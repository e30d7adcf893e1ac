import UbbdKernel.Framework.Channel
import UbbdKernel.Service.Transfer

/-!
# A queue and its backend are a channel

Requests and completions of a queue, and its backend, are a channel: commands
are sent with the data of their WRITEs, the backend reads them in the order in
which they were published, finds the data of the WRITEs at their ranges, answers
each at most once and in any order, and each request is ended at most once, with
the result and the data of the answer to its own command, or without an answer
by a forced removal (`service_refines`).
-/

namespace Ubbd.Service

open Queue (Pc By ThStep WkStep Keeping Pending)
open Ubbd.Ring (Ent)

variable {C : Conf} {s s' : State C}

/-- The state of the channel that a state of the queue stands for: an answer
posted with a `priv_data` is the reply to the command of that number. -/
structure Stands (s : State C) (c : Channel C.Key Msg Reply) : Prop where
  sent : c.sent = s.sent
  received : c.received = s.seen.length
  replied : List.Forall₂ (fun kr p => (⟨p.1, kr.1.1, kr.1.2⟩ : Queue.Pub C.queue) ∈ s.queue.pub ∧ kr.2 = p.2)
    c.replied s.posted
  ended : c.ended = s.ended

/-- And what the backend has of it: the commands, and the data of the WRITEs
that are not answered, unless a forced removal ends requests. -/
structure Serves (s : State C) (c : Channel C.Key Msg Reply) : Prop extends Stands s c where
  seen : s.seen = (c.sent.take c.received).map fun m => m.2.cmd
  data : ∀ m ∈ c.sent, m.1 ∉ Channel.keys c.replied → m.2.cmd.op = .write → ¬ Queue.Spliced s.queue →
    ranges s m.2.cmd = some m.2.data

theorem stands_init (n r : Nat) : Stands (initState C n r) (Channel.empty _ _ _) := ⟨rfl, rfl, .nil, rfl⟩

theorem forall₂_mem {α β : Type} {R : α → β → Prop} {l : List α} {l' : List β} (h : List.Forall₂ R l l') :
    (∀ b ∈ l', ∃ a ∈ l, R a b) ∧ ∀ a ∈ l, ∃ b ∈ l', R a b := by
  induction h with
  | nil => exact ⟨nofun, nofun⟩
  | cons hab _ ih =>
    refine ⟨fun b hb => ?_, fun a ha => ?_⟩
    · rcases List.mem_cons.mp hb with rfl | hb
      · exact ⟨_, List.mem_cons_self .., hab⟩
      · obtain ⟨a, ha, hr⟩ := ih.1 b hb
        exact ⟨a, List.mem_cons_of_mem _ ha, hr⟩
    · rcases List.mem_cons.mp ha with rfl | ha
      · exact ⟨_, List.mem_cons_self .., hab⟩
      · obtain ⟨b, hb, hr⟩ := ih.2 a ha
        exact ⟨b, List.mem_cons_of_mem _ hb, hr⟩

/-! ## What the backend has -/

theorem Exchange.seen_eq (h : Exchange s) : s.seen = (s.sent.take s.seen.length).map fun m => m.2.cmd := by
  obtain ⟨hs, es, -, heq⟩ := h.entries
  rw [List.map_take, ← heq, List.take_left]

theorem Exchange.seen_le (h : Exchange s) : s.seen.length ≤ s.sent.length := by
  obtain ⟨hs, es, -, heq⟩ := h.entries
  have := congrArg List.length heq
  rw [List.length_append, List.length_map] at this
  omega

theorem Stands.serves (hx : Exchange s) (hm : Messages s) (ht : Transfer s) {c : Channel C.Key Msg Reply}
    (h : Stands s c) : Serves s c := by
  refine ⟨h, ?_, fun m hmem hnew hop hns => ?_⟩
  · rw [h.sent, h.received]
    exact hx.seen_eq
  · have hmem : m ∈ s.sent := h.sent ▸ hmem
    rcases hm.past m hmem with ha | hp | hd
    · have hown := hm.own m hmem ha
      have hkeep := ha.1.keeping
      have hopn : (s.queue.rqs m.1.1).op = .write := by
        rw [← hop, hown]
        rfl
      have hopr := (op_iff hx.regular.holding hkeep).2.mp hopn
      obtain ⟨bss, hbss, hshows, hlen⟩ := ranges_now hx.regular.holding hkeep (by rw [hopn]; rfl)
      rw [hown, hbss]
      refine congrArg some (hshows.unique (ht.write _ hkeep hopr) ?_)
      rw [hlen, hm.copied _ hkeep (by rw [ha.1.1]; nofun) hopr]
    · exfalso
      obtain ⟨p, hp, hptid⟩ := List.mem_map.mp hp
      obtain ⟨kr, hkr, hpub, -⟩ := (forall₂_mem h.replied).1 p hp
      refine hnew (Channel.mem_keys.mpr ⟨kr.2, ?_⟩)
      have hpubm : (⟨m.2.cmd.privData, m.1.1, m.1.2⟩ : Queue.Pub C.queue) ∈ s.queue.pub := by
        rw [hx.pub]
        exact List.mem_map_of_mem hmem
      have heq := hx.regular.traced.recorded.tid_inj hpub hpubm hptid
      obtain ⟨-, htag, hstart⟩ := Queue.Pub.mk.inj heq
      rw [show m.1 = kr.1 from Prod.ext htag.symm hstart.symm]
      exact hkr
    · exact absurd hd.spliced hns

/-! ## Steps -/

/-- The records of publications only grow. -/
theorem Stands.pub {c : Channel C.Key Msg Reply} (h : Stands s c) {pub : List (Queue.Pub C.queue)}
    (hp : ∀ p ∈ s.queue.pub, p ∈ pub) :
    List.Forall₂ (fun kr p => (⟨p.1, kr.1.1, kr.1.2⟩ : Queue.Pub C.queue) ∈ pub ∧ kr.2 = p.2) c.replied s.posted :=
  h.replied.imp fun _ _ hr => ⟨hp _ hr.1, hr.2⟩

/-- A thread ends a request: it delivers the answer to its command, or drops
it. -/
theorem Stands.finish (hx : Exchange s) (ht : Transfer s) {c : Channel C.Key Msg Reply} (h : Stands s c) {x : Nat}
    {t : C.Tag} {by_ : By} (pc : s.queue.threads x = .finish t by_) {q : Queue.State C.queue}
    (hq : Queue.step s.queue (.th x .finish) = some q) :
    ∃ c', Channel.Step c c' ∧ Stands (record s (.th x .finish) q) c' := by
  have hown := hx.regular.traced.own
  have hrec := hx.regular.traced.recorded
  obtain ⟨hwk, -⟩ := hown.of_holds (x := x) (t := t) (by rw [pc]; rfl)
  have hpub := hrec.published t (by rw [hwk]; rfl)
  have hnew : (t, (s.queue.rqs t).start) ∉ Channel.keys c.ended := by
    intro hk
    obtain ⟨v, hv⟩ := Channel.mem_keys.mp hk
    exact hrec.not_logged (by rw [hwk]; decide) (hx.ended _ (h.ended ▸ hv))
  have hends : endedBy s (.th x .finish) = [((t, (s.queue.rqs t).start), answer s x by_)] := by
    simp only [endedBy, pc]
  have hkeep : ∀ p ∈ s.queue.pub, p ∈ q.pub := fun p hp => by
    rw [sentBy_pub hq]
    exact List.mem_append_left _ hp
  have hstands : Stands (record s (.th x .finish) q)
      { c with ended := c.ended ++ [((t, (s.queue.rqs t).start), answer s x by_)] } := by
    refine ⟨?_, h.received, h.pub hkeep, ?_⟩
    · show c.sent = s.sent ++ []
      rw [List.append_nil, h.sent]
    · show c.ended ++ _ = s.ended ++ endedBy s (.th x .finish)
      rw [hends, h.ended]
  cases by_ with
  | entry tid =>
    obtain ⟨r, p, hr, hp, hanswer, hppub⟩ := hx.finishing ht pc
    obtain ⟨kr, hkr, hkpub, hkans⟩ := (forall₂_mem h.replied).1 p (List.mem_of_getElem? hp.num)
    obtain ⟨-, htag, hstart⟩ := Queue.Pub.mk.inj (hrec.tid_inj hkpub hppub rfl)
    rw [hanswer] at hstands
    refine ⟨_, .deliver _ _ ?_ hnew, hstands⟩
    rw [← hkans, show (t, (s.queue.rqs t).start) = kr.1 from Prod.ext htag.symm hstart.symm]
    exact hkr
  | removal =>
    refine ⟨_, .drop _ ?_ hnew, hstands⟩
    rw [hx.pub] at hpub
    obtain ⟨m, hm, heq⟩ := List.mem_map.mp hpub
    obtain ⟨-, htag, hstart⟩ := Queue.Pub.mk.inj heq
    rw [h.sent]
    refine Channel.mem_keys.mpr ⟨m.2, ?_⟩
    rw [show (t, (s.queue.rqs t).start) = m.1 from Prod.ext htag.symm hstart.symm]
    exact hm

theorem Stands.queue (hx : Exchange s) (ht : Transfer s) {c : Channel C.Key Msg Reply} (h : Stands s c)
    {l : Queue.Label C.queue} {q : Queue.State C.queue} (hq : Queue.step s.queue l = some q) :
    Stands (record s l q) c ∨ ∃ c', Channel.Step c c' ∧ Stands (record s l q) c' := by
  have hkeep : ∀ p ∈ s.queue.pub, p ∈ q.pub := fun p hp => by
    rw [sentBy_pub hq]
    exact List.mem_append_left _ hp
  by_cases hf : ∃ x, l = .th x .finish
  · obtain ⟨x, rfl⟩ := hf
    have hth : ThStep s.queue x .finish q := Queue.stepTh_cases hq
    cases hth with
    | back l call pc => cases call
    | finish t by_ pc => exact .inr (h.finish hx ht pc hq)
  · have hended : endedBy s l = [] := by
      unfold endedBy
      split
      · rename_i x
        exact absurd ⟨x, rfl⟩ hf
      · rfl
    have hend : c.ended = s.ended ++ endedBy s l := by rw [hended, List.append_nil, h.ended]
    cases hsent : sentBy s l q with
    | nil =>
      refine .inl ⟨?_, h.received, h.pub hkeep, hend⟩
      show c.sent = s.sent ++ sentBy s l q
      rw [hsent, List.append_nil, h.sent]
    | cons m ms =>
      have hmem : m ∈ sentBy s l q := by rw [hsent]; exact List.mem_cons_self ..
      obtain ⟨rfl, hins, hstart, -, hpub, -⟩ := sentBy_mem hq hmem
      have hms : ms = [] := by
        rw [sentBy, if_pos hpub] at hsent
        exact (List.cons.inj hsent).2.symm
      refine .inr ⟨_, .send m.1 m.2 ?_, ?_, h.received, h.pub hkeep, hend⟩
      · intro hk
        obtain ⟨v, hv⟩ := Channel.mem_keys.mp hk
        rw [h.sent] at hv
        exact hx.not_sent hv hins hstart
      · show c.sent ++ [m] = s.sent ++ sentBy s _ q
        rw [hsent, hms, h.sent]

/-- The backend posts an answer. -/
theorem Stands.post (hx : Exchange s) {c : Channel C.Key Msg Reply} (h : Stands s c) {p : Nat × Reply}
    (hp : s.writing = some p) (hs' : s'.posted = s.posted ++ [p]) (hq : s'.queue = s.queue) (hsent : s'.sent = s.sent)
    (hseen : s'.seen = s.seen) (hended : s'.ended = s.ended) : ∃ c', Channel.Step c c' ∧ Stands s' c' := by
  have hrec := hx.regular.traced.recorded
  have hnd := hx.answered.nodup_iff.mpr hx.seen_nodup
  have hmid : p.1 ∈ s.todo.map Cmd.privData ++ (s.writing.map Prod.fst).toList := by
    rw [hp]
    exact List.mem_append_right _ (List.mem_singleton.mpr rfl)
  have hseenp : p.1 ∈ s.seen.map Cmd.privData := hx.answered.subset (List.mem_append_left _ hmid)
  rw [hx.seen_eq, List.map_map] at hseenp
  obtain ⟨m, hm, hmtid⟩ := List.mem_map.mp hseenp
  have hmtid : m.2.cmd.privData = p.1 := hmtid
  have hpub : (⟨p.1, m.1.1, m.1.2⟩ : Queue.Pub C.queue) ∈ s.queue.pub := by
    rw [hx.pub, ← hmtid]
    exact List.mem_map_of_mem (List.mem_of_mem_take hm)
  refine ⟨_, .reply m.1 p.2 ?_ ?_, by rw [hsent]; exact h.sent, by rw [hseen]; exact h.received, ?_, by
    rw [hended]; exact h.ended⟩
  · rw [h.sent, h.received]
    exact Channel.mem_keys.mpr ⟨m.2, hm⟩
  · intro hk
    obtain ⟨v, hv⟩ := Channel.mem_keys.mp hk
    obtain ⟨p', hp', hpub', -⟩ := (forall₂_mem h.replied).2 _ hv
    -- a request is published once, and its number is answered once
    have heq := List.inj_on_of_nodup_map hrec.pubOnce hpub hpub' rfl
    refine (List.nodup_append.mp hnd).2.2 _ hmid p'.1 (List.mem_map_of_mem hp') ?_
    exact congrArg Queue.Pub.tid heq
  · rw [hq, hs']
    exact List.rel_append h.replied (.cons ⟨hpub, rfl⟩ .nil)

/-- A step is a step of the channel, or none. -/
theorem stands_step {a : Label C} (hx : Exchange s) (ht : Transfer s) {c : Channel C.Key Msg Reply} (h : Stands s c)
    (hs : step s a = some s') (hx' : Exchange s') : Stands s' c ∨ ∃ c', Channel.Step c c' ∧ Stands s' c' := by
  cases step_cases hs with
  | queue l q ok hq => exact h.queue hx ht hq
  | fetch x r q q' hr hq hq' =>
    refine .inl ⟨h.sent, h.received, h.pub fun p hp => ?_, h.ended⟩
    show p ∈ q'.pub
    rw [sentBy_pub (s := { s with queue := q }) hq', sentBy_pub hq]
    exact List.mem_append_left _ (List.mem_append_left _ hp)
  | readCmd c' more hc =>
    have hle := hx'.seen_le
    rw [List.length_append, List.length_singleton] at hle
    refine .inr ⟨_, .receive ?_, h.sent, ?_, h.replied, h.ended⟩
    · rw [h.sent, h.received]
      exact hle
    · rw [h.received, List.length_append, List.length_singleton]
  | post p hp room => exact .inr (h.post hx hp rfl rfl rfl rfl rfl)
  | _ => exact .inl ⟨h.sent, h.received, h.replied, h.ended⟩

/-- In every run in which REMOVING is not overwritten, no more than `2 ^ 64 - 1`
commands are published and the backend writes no entry to a slot that a caller
has still to read, a queue and its backend are a channel. That the backend reads
in order, answers once and writes to unanswered READs only is part of its steps
(`stepRead`, `stepReply`, `stepStore`). -/
theorem service_refines (C : Conf) {n : Nat} (hn : n ≤ 2 ^ 31) (r : Nat) (as : List (Label C))
    (h : (lts C).Steps Proper (initState C n r) as) :
    (lts C).States (fun s => ∃ c, Channel.Reach c ∧ Serves s c) (initState C n r) as := by
  refine (Channel.reach_of_simulates (B := Proper) (I := fun s => Exchange s ∧ Messages s ∧ Transfer s) (R := Stands)
    (fun s a s' hi hs hp => ?_) (fun s a s' c hi hs hp hr => ?_)
    ⟨exchange_init hn r, messages_init n r, transfer_init n r⟩ .empty (stands_init n r) h).mono ?_
  · obtain ⟨hx, hm, ht⟩ := hi
    exact ⟨exchange_step hx hs hp, messages_step hx hm hs, transfer_step hx hm ht hs⟩
  · exact stands_step hi.1 hi.2.2 hr hs (exchange_step hi.1 hs hp)
  · rintro s ⟨⟨hx, hm, ht⟩, c, hc, hr⟩
    exact ⟨c, hc, hr.serves hx hm ht⟩

/-! ## A READ -/

/-- The step sets no status. -/
def calm : Label C → Bool
  | .queue (.th _ .stopSet) | .queue (.th _ .stopFinal) | .queue (.th _ .startSet) | .queue (.th _ .setStopped) => false
  | _ => true

/-- The step takes no entry, the step writes none. -/
def takesNone : Label C → Bool
  | .take _ => false
  | _ => true

def repliesNone : Label C → Bool
  | .reply _ _ => false
  | _ => true

theorem queue_lasts {q q' : Queue.State C.queue} {l : Queue.Label C.queue} (hq : Queue.step q l = some q')
    (hl : calm (.queue l) = true) : Queue.Lasts q q' := by
  cases Queue.step_cases hq with
  | rq hw => exact fun hst => hw.control.1.trans hst
  | th hth =>
    cases hth with
    | remSet force pc lock => exact fun _ => rfl
    | stopSet | stopFinal | startSet | setStopped => cases hl
    | _ => exact id
  | _ => exact id

theorem lasts_step {a : Label C} (hs : step s a = some s') (ha : calm a = true) : Queue.Lasts s.queue s'.queue := by
  cases step_cases hs with
  | queue l q ok hq => exact queue_lasts hq ha
  | fetch x r q q' hr hq hq' => exact fun hst => queue_lasts hq' rfl (queue_lasts hq rfl hst)
  | _ => exact id

theorem pub_step {a : Label C} (hs : step s a = some s') : s'.queue.pub.length ≤ s.queue.pub.length + 1 := by
  cases step_cases hs with
  | queue l q ok hq => exact Queue.step_pub hq
  | fetch x r q q' hr hq hq' =>
    rw [show q'.pub = s.queue.pub by
      rw [sentBy_pub (s := { s with queue := q }) hq', sentBy_pub hq]
      simp only [sentBy, List.map_nil, List.append_nil]]
    exact Nat.le_succ _
  | _ => exact Nat.le_succ _

theorem taken_step {a : Label C} (hs : step s a = some s') (ha : takesNone a = true) (hn : ∀ x, s.taken x = none)
    (x : Nat) : s'.taken x = none := by
  have hno : ∀ {x r}, s.taken x ≠ some r := fun he => nomatch (hn _).symm.trans he
  cases step_cases hs with
  | queue l q ok hq =>
    show takenAfter s l x = none
    unfold takenAfter
    split
    · rw [Function.update_apply]
      split
      · rfl
      · exact hn x
    · exact hn x
  | take y pc hnone more => cases ha
  | fetch y r q q' hr hq hq' => exact absurd hr hno
  | copyFrom y t tid r bv page pc hr => exact absurd hr hno
  | result y t tid r pc hr => exact absurd hr hno
  | _ => exact hn x

/-- The steps of a list are proper that set no status and publish fewer than
`2 ^ 64` commands, if no answer is written after an entry is taken. -/
theorem proper_of_calm {as bs : List (Label C)} (hcalm : ∀ a ∈ as ++ bs, calm a = true)
    (htake : ∀ a ∈ as, takesNone a = true) (hreply : ∀ a ∈ bs, repliesNone a = true)
    (hlen : s.queue.pub.length + (as ++ bs).length < 2 ^ 64) (hn : ∀ x, s.taken x = none) :
    (lts C).Steps Proper s (as ++ bs) := by
  have hunwrapped : ∀ {s : State C} {k : Nat} (l : Queue.Label C.queue), s.queue.pub.length + (k + 1) < 2 ^ 64 →
      Queue.Unwrapped s.queue l := by
    intro s k l hk
    unfold Queue.Unwrapped
    split
    · omega
    · trivial
  induction as generalizing s with
  | nil =>
    rw [List.nil_append] at hcalm hlen ⊢
    clear hn
    induction bs generalizing s with
    | nil => trivial
    | cons b bs ih =>
      intro s' hs
      have hpub := pub_step hs
      rw [List.length_cons] at hlen
      refine ⟨⟨lasts_step hs (hcalm b (List.mem_cons_self ..)), fun l _ => hunwrapped l hlen, ?_⟩, ?_⟩
      · unfold Apart
        split
        · cases hreply _ (List.mem_cons_self ..)
        · trivial
      · exact ih (fun a ha => hreply a (List.mem_cons_of_mem _ ha)) (fun a ha => hcalm a (List.mem_cons_of_mem _ ha))
          (by omega)
  | cons a as ih =>
    intro s' hs
    have hpub := pub_step hs
    rw [List.cons_append, List.length_cons] at hlen
    refine ⟨⟨lasts_step hs (hcalm a (List.mem_cons_self ..)), fun l _ => hunwrapped l hlen, ?_⟩, ?_⟩
    · unfold Apart
      split
      · exact fun x r hr => nomatch (hn x).symm.trans hr
      · trivial
    · exact ih (fun b hb => hcalm b (List.mem_cons_of_mem _ hb)) (fun b hb => htake b (List.mem_cons_of_mem _ hb))
        (by omega) (taken_step hs (htake a (List.mem_cons_self ..)) hn)

/-- One tag, a ring with room for one command, and a completion ring of two
slots. -/
def smallConf : Conf where
  header := sampleHeader 64 8 eight_dvd_64 eight_pos eight_le_64 lt_64
  data := Data.smallLayout
  compr := Compr.twoSlots
  tags := 1
  privData_width := rfl
  result_width := rfl

theorem smallConf_tags_pos : 0 < smallConf.tags := Nat.one_pos

def smallTag : smallConf.Tag := ⟨0, smallConf_tags_pos⟩

/-- A READ of two bytes. -/
def readReq : Request smallConf.queue.pageSize where
  op := .read
  pos := 0
  bytes := 2
  bios := [[⟨0, 0, 2⟩]]
  single := show ∀ bio ∈ [[(⟨0, 0, 2⟩ : BioVec)]], ∀ bv ∈ bio, bv.off + bv.len ≤ 4096 by decide
  segs_le := Nat.le_of_ble_eq_true rfl
  bytes_lt := Nat.le_of_ble_eq_true rfl

/-- The steps of the READ up to its publication, and those of the backend: it
reads the command, stores two bytes and answers. -/
def sendRead : List (Label smallConf) :=
  [.queue (.rq smallTag .rqRead), .queue (.rq smallTag (.rqStart readReq)), .queue (.rq smallTag .status),
    .queue (.rq smallTag (.prepare true)), .queue (.page (.seg smallTag true)),
    .queue (.page (.alloc smallTag (some 0))), .queue (.page (.incLoad smallTag)),
    .queue (.page (.incStore smallTag)), .queue (.page (.seg smallTag true)), .queue (.page (.out smallTag)),
    .queue (.rq smallTag .pages), .queue (.rq smallTag .insert), .queue (.rq smallTag .submit)]

def answerRead : List (Label smallConf) := [.read, .store 1 0 0 7, .store 1 0 1 8, .reply 1 0, .post]

/-- A thread completes it. -/
def completeRead : List (Label smallConf) :=
  [.queue (.th 0 .enter), .take 0, .fetch 0, .copyFrom 0, .result 0, .queue (.th 0 .mark),
    .queue (.page (.releaseOne smallTag)), .queue (.page (.releaseOne smallTag)), .queue (.th 0 .released),
    .queue (.th 0 .finish), .queue (.th 0 .advance)]

/-- The READ ends with the bytes of its answer. -/
theorem service_refines_read :
    (lts smallConf).States (fun s => ∃ c, Channel.Reach c ∧ Serves s c) (initState smallConf 8 6)
        (sendRead ++ answerRead ++ completeRead) ∧
      ((lts smallConf).exec (initState smallConf 8 6) (sendRead ++ answerRead ++ completeRead)).map State.ended =
        some [((smallTag, 1), some ⟨0, [[7, 8]]⟩)] := by
  refine ⟨service_refines _ (by decide) _ _ (proper_of_calm (List.all_eq_true.mp rfl) (List.all_eq_true.mp rfl)
    (List.all_eq_true.mp rfl) (by decide) fun _ => rfl), by decide +kernel⟩

end Ubbd.Service
