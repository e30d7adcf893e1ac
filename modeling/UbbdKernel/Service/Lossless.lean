import Mathlib.Data.List.Perm.Subperm
import UbbdKernel.Service.Refines

/-!
# No answer is lost

Where an answer is between its posting and the end of its request (`Carried`):
in the completion ring, in the hands of one caller of `ubbd_queue_complete`, or
with the request it has ended. A caller that looks for the request of its entry
finds it (`Carried.listed`), so none drops an entry, until a forced removal
takes requests off the list.

`no_answer_lost` says what follows for a run: when backend and callers have
nothing left to do, every command sent is ended with its answer. And as no two
answers under way are of one request, a completion ring with more slots than
there are requests never fills up (`post_never_blocks`).
-/

namespace Ubbd.Service

open Queue (Pc By ThStep WkStep Pending)
open Ubbd.Ring (Ent)

variable {C : Conf} {s s' : State C}

/-- The thread has the entry that was posted as number `k`. -/
def Carries (s : State C) (x k : Nat) : Prop := (s.taken x).map Taken.num = some k

/-- The request of the entry was ended with its answer. -/
def EndedWith (s : State C) (p : Nat × Reply) : Prop :=
  ∃ key : C.Key, ⟨p.1, key.1, key.2⟩ ∈ s.queue.pub ∧ (key, some p.2) ∈ s.ended

structure Carried (s : State C) : Prop where
  once : ∀ x y k, Carries s x k → Carries s y k → x = y
  taken : ¬ Queue.Spliced s.queue → ∀ k p, k < s.ntaken → s.posted[k]? = some p →
    (∃ x, Carries s x k) ∨ EndedWith s p
  /-- What is in the log of the queue was ended by an entry that is nobody's any more. -/
  logged : ¬ Queue.Spliced s.queue → ∀ pb ∈ s.queue.pub, pb.key ∈ s.queue.log.map Queue.Finish.key →
    ∃ k p, k < s.ntaken ∧ s.posted[k]? = some p ∧ p.1 = pb.tid ∧ ∀ x, ¬ Carries s x k

theorem carried_init (n r : Nat) : Carried (initState C n r) where
  once x y k h := by cases h
  taken _ k p h := absurd h (Nat.not_lt_zero k)
  logged _ := nofun

theorem carries_iff {x k : Nat} : Carries s x k ↔ ∃ r, s.taken x = some r ∧ r.num = k := Option.map_eq_some_iff

/-! ## Numbers -/

theorem Exchange.num_inj (hx : Exchange s) {j k : Nat} {p q : Nat × Reply} (hp : s.posted[j]? = some p)
    (hq : s.posted[k]? = some q) (h : p.1 = q.1) : j = k := by
  have hlt : j < (s.posted.map Prod.fst).length := by
    rw [List.length_map]
    exact (List.getElem?_eq_some_iff.mp hp).1
  refine (List.getElem?_inj hlt hx.posted_nodup).mp ?_
  rw [List.getElem?_map, List.getElem?_map, hp, hq, Option.map_some, Option.map_some, h]

theorem Exchange.carries_lt (hx : Exchange s) {x k : Nat} (h : Carries s x k) : k < s.ntaken := by
  obtain ⟨r, hr, rfl⟩ := carries_iff.mp h
  obtain ⟨p, hp⟩ := (hx.completions.takes x).is hr
  exact hp.lt

/-- A thread that has a request has the entry of its number. -/
theorem Exchange.holder (hx : Exchange s) (hns : ¬ Queue.Spliced s.queue) {y : Nat} {t : C.Tag}
    (h : (s.queue.threads y).holds = some t) :
    ∃ r p, s.taken y = some r ∧ Is s r p ∧ p.1 = (s.queue.rqs t).tid := by
  have htakes := hx.completions.takes y
  have hserved := hx.regular.traced.recorded.served y
  have hend : (s.queue.threads y).ending = false := Bool.eq_false_iff.mpr fun he => hns ⟨y, .inl he⟩
  generalize s.queue.threads y = pc at h htakes hserved hend
  cases pc with
  | setStopped u tid =>
    cases h
    obtain ⟨r, p, hr, -, -, hp, hptid⟩ := htakes
    exact ⟨r, p, hr, hp, hptid.trans hserved.symm⟩
  | mark u by_ =>
    cases h
    cases by_ with
    | entry tid =>
      obtain ⟨r, p, hr, hp, hptid⟩ := htakes
      exact ⟨r, p, hr, hp, hptid.trans hserved.symm⟩
    | removal => cases hend
  | release u by_ =>
    cases h
    cases by_ with
    | entry tid =>
      obtain ⟨r, p, hr, hp, hptid, -⟩ := htakes
      exact ⟨r, p, hr, hp, hptid.trans hserved.symm⟩
    | removal => cases hend
  | finish u by_ =>
    cases h
    cases by_ with
    | entry tid =>
      obtain ⟨r, p, hr, hp, hptid, -⟩ := htakes
      exact ⟨r, p, hr, hp, hptid.trans hserved.symm⟩
    | removal => cases hend
  | _ => cases h

/-- A publication that no taken entry answers is of a request on the list, or
with a thread. -/
theorem Carried.unanswered (hx : Exchange s) (h : Carried s) (hns : ¬ Queue.Spliced s.queue) {pb : Queue.Pub C.queue}
    (hpb : pb ∈ s.queue.pub)
    (hno : ∀ k p, k < s.ntaken → s.posted[k]? = some p → p.1 = pb.tid → ∃ x, Carries s x k) :
    (s.queue.rqs pb.tag).tid = pb.tid ∧
      (pb.tag ∈ s.queue.inflight ∨ ∃ y, (s.queue.threads y).holds = some pb.tag) := by
  have hlog : pb.key ∉ s.queue.log.map Queue.Finish.key := by
    intro hlog
    obtain ⟨k, p, hk, hp, htid, hnone⟩ := h.logged hns pb hpb hlog
    obtain ⟨x, hc⟩ := hno k p hk hp htid
    exact hnone x hc
  obtain ⟨-, htid, q, hat, -⟩ := hx.regular.traced.kept hpb hlog
  refine ⟨htid, ?_⟩
  have hmem : pb.tag ∈ Queue.place s.queue q := List.count_pos_iff.mp (Nat.lt_of_lt_of_eq Nat.zero_lt_one hat.symm)
  cases q with
  | none => exact .inl hmem
  | some y =>
    refine .inr ⟨y, ?_⟩
    have htmp := hx.regular.traced.own.tmp y
      (Bool.eq_false_iff.mpr fun he => hns ⟨y, .inl he⟩)
    rw [Queue.place, htmp, List.append_nil] at hmem
    exact Option.mem_toList.mp hmem

/-- The request of an entry is on the list, if the entry is not taken, or with a
thread that has no request. -/
theorem Carried.listed (hx : Exchange s) (h : Carried s) (hns : ¬ Queue.Spliced s.queue) {k : Nat} {p : Nat × Reply}
    (hp : s.posted[k]? = some p) (hk : s.ntaken ≤ k ∨ ∃ x, Carries s x k)
    (hfree : ∀ x, Carries s x k → (s.queue.threads x).holds = none) :
    ∃ t ∈ s.queue.inflight, (s.queue.rqs t).tid = p.1 := by
  obtain ⟨pb, hpb, hpbtid⟩ := hx.seen_pub (hx.posted_seen (List.mem_of_getElem? hp))
  obtain ⟨htid, hplace⟩ := h.unanswered hx hns hpb fun k' p' hk' hp' he => by
    obtain rfl := hx.num_inj hp' hp (he.trans hpbtid)
    exact hk.resolve_left (Nat.not_le_of_lt hk')
  rcases hplace with hmem | ⟨y, hy⟩
  · exact ⟨_, hmem, htid.trans hpbtid⟩
  · obtain ⟨r, p', hr, hp', hptid⟩ := hx.holder hns hy
    obtain rfl := hx.num_inj hp'.num hp (hptid.trans (htid.trans hpbtid))
    have := hfree y (carries_iff.mpr ⟨r, hr, rfl⟩)
    rw [hy] at this
    cases this

/-- A caller that looks for the request of its entry finds it. -/
theorem Carried.found (hx : Exchange s) (h : Carried s) (hns : ¬ Queue.Spliced s.queue) {x : Nat} {r : Taken}
    (pc : s.queue.threads x = .again) (hr : s.taken x = some r) :
    ∃ t ∈ s.queue.inflight, (s.queue.rqs t).tid = C.compr.privData.get s.compr r.ce := by
  obtain ⟨-, -, p, hp, htid⟩ := hx.completions.tid hr pc
  have hc : Carries s x r.num := carries_iff.mpr ⟨r, hr, rfl⟩
  rw [htid]
  refine h.listed hx hns hp.num (.inr ⟨x, hc⟩) fun y hy => ?_
  rw [h.once y x _ hy hc, pc]
  rfl

/-! ## Steps -/

/-- What a search of the list changes, and when it fails. -/
theorem fetch_records {q q₁ q₂ : Queue.State C.queue} {x tid : Nat} (h₁ : Queue.step q (.th x (.take tid)) = some q₁)
    (h₂ : Queue.step q₁ (.th x .fetch) = some q₂) : q₂.pub = q.pub ∧ q₂.log = q.log := by
  have h₁ : ThStep q x (.take tid) q₁ := Queue.stepTh_cases h₁
  have h₂ : ThStep q₁ x .fetch q₂ := Queue.stepTh_cases h₂
  have hq₁ : q₁.pub = q.pub ∧ q₁.log = q.log := by cases h₁ <;> exact ⟨rfl, rfl⟩
  have hq₂ : q₂.pub = q₁.pub ∧ q₂.log = q₁.log := by cases h₂ <;> exact ⟨rfl, rfl⟩
  exact ⟨hq₂.1.trans hq₁.1, hq₂.2.trans hq₁.2⟩

theorem fetch_finds {q q₁ q₂ : Queue.State C.queue} {x tid : Nat} (h₁ : Queue.step q (.th x (.take tid)) = some q₁)
    (h₂ : Queue.step q₁ (.th x .fetch) = some q₂) {t : C.Tag} (ht : t ∈ q.inflight) (htid : (q.rqs t).tid = tid) :
    q₂.threads x ≠ .again := by
  have h₁ : ThStep q x (.take tid) q₁ := Queue.stepTh_cases h₁
  have h₂ : ThStep q₁ x .fetch q₂ := Queue.stepTh_cases h₂
  cases h₁ with
  | back l call pc => cases call
  | take _ pc =>
    cases h₂ with
    | back l call pc => cases call
    | miss tid' pc' lock absent =>
      rw [Queue.State.setPc_threads, if_pos rfl] at pc'
      exact absurd htid (Pc.took.inj pc' ▸ absent t ht)
    | last tid' pc' lock u mem tid_eq st empty =>
      show ((q.setPc x (.took tid)).setPc x _).threads x ≠ _
      rw [Queue.State.setPc_threads, if_pos rfl]
      nofun
    | fetch tid' pc' lock u mem tid_eq =>
      show ((q.setPc x (.took tid)).setPc x _).threads x ≠ _
      rw [Queue.State.setPc_threads, if_pos rfl]
      nofun

/-- Steps that change neither who has an entry nor the records. -/
theorem Carried.frame (hx : Exchange s) (h : Carried s) (hsp : Queue.Spliced s.queue → Queue.Spliced s'.queue)
    (hc : ∀ x, (s'.taken x).map Taken.num = (s.taken x).map Taken.num) (hn : s'.ntaken = s.ntaken)
    (hposted : s.posted <+: s'.posted) (hpub : s'.queue.pub = s.queue.pub) (hlog : s'.queue.log = s.queue.log)
    (hended : s'.ended = s.ended) : Carried s' := by
  have hcarries : ∀ x k, Carries s' x k ↔ Carries s x k := fun x k => by unfold Carries; rw [hc]
  have hget : ∀ {k}, k < s.ntaken → s'.posted[k]? = s.posted[k]? := fun {k} hk => by
    obtain ⟨l, hl⟩ := hposted
    rw [← hl, List.getElem?_append_left (Nat.lt_of_lt_of_le hk hx.completions.le)]
  refine ⟨fun x y k hxk hyk => ?_, fun hns k p hk hp => ?_, fun hns pb hpb hl => ?_⟩
  · exact h.once x y k ((hcarries x k).mp hxk) ((hcarries y k).mp hyk)
  · rw [hn] at hk
    rw [hget hk] at hp
    rcases h.taken (fun hs => hns (hsp hs)) k p hk hp with ⟨x, hx⟩ | ⟨key, hkey, he⟩
    · exact .inl ⟨x, (hcarries x k).mpr hx⟩
    · exact .inr ⟨key, hpub ▸ hkey, hended ▸ he⟩
  · rw [hpub] at hpb
    rw [hlog] at hl
    obtain ⟨k, p, hk, hp, htid, hnone⟩ := h.logged (fun hs => hns (hsp hs)) pb hpb hl
    exact ⟨k, p, hn ▸ hk, (hget hk).trans hp, htid, fun x hxk => hnone x ((hcarries x k).mp hxk)⟩

/-- A caller takes the entry at the tail. -/
theorem Carried.take (hx : Exchange s) (h : Carried s) {x ce tail : Nat} (hnone : s.taken x = none) :
    Carried { s.setTaken x (some ⟨ce, s.ntaken, [], none⟩) with comprTail := tail, ntaken := s.ntaken + 1 } := by
  have hcarries : ∀ y k, Carries (C := C) { s.setTaken x (some ⟨ce, s.ntaken, [], none⟩) with
      comprTail := tail, ntaken := s.ntaken + 1 } y k ↔ if y = x then k = s.ntaken else Carries s y k := by
    intro y k
    show ((s.setTaken x _).taken y).map Taken.num = some k ↔ _
    rw [State.setTaken_taken]
    split
    · exact ⟨fun he => (Option.some.inj he).symm, fun he => congrArg some he.symm⟩
    · exact Iff.rfl
  have hold : ∀ {y k}, Carries s y k → y ≠ x := fun {y k} hy he => by
    rw [he, Carries, hnone] at hy
    cases hy
  refine ⟨fun y z k hy hz => ?_, fun hns k p hk hp => ?_, fun hns pb hpb hl => ?_⟩
  · rw [hcarries] at hy hz
    split at hy
    · rename_i hyx
      split at hz
      · rename_i hzx
        rw [hyx, hzx]
      · exact absurd hy (Nat.ne_of_lt (hx.carries_lt hz))
    · split at hz
      · exact absurd hz (Nat.ne_of_lt (hx.carries_lt hy))
      · exact h.once y z k hy hz
  · rcases Nat.lt_succ_iff_lt_or_eq.mp hk with hk | rfl
    · refine (h.taken hns k p hk hp).imp_left fun ⟨y, hy⟩ => ⟨y, ?_⟩
      rw [hcarries, if_neg (hold hy)]
      exact hy
    · exact .inl ⟨x, by rw [hcarries, if_pos rfl]⟩
  · obtain ⟨k, p, hk, hp, htid, hno⟩ := h.logged hns pb hpb hl
    refine ⟨k, p, Nat.lt_succ_of_lt hk, hp, htid, fun y hy => ?_⟩
    rw [hcarries] at hy
    split at hy
    · exact absurd hy (Nat.ne_of_lt hk)
    · exact hno y hy

/-- A caller looks for the request of its entry. -/
theorem Carried.fetch (hx : Exchange s) (h : Carried s) {x : Nat} {r : Taken} {q q' : Queue.State C.queue}
    (hr : s.taken x = some r) (hq : Queue.step s.queue (.th x (.take (C.compr.privData.get s.compr r.ce))) = some q)
    (hq' : Queue.step q (.th x .fetch) = some q') :
    Carried { s.setTaken x (entryKept s x q') with queue := q' } := by
  obtain ⟨hpub, hlog⟩ := fetch_records hq hq'
  obtain ⟨-, -, -, hsp⟩ := fetch_rqs hq hq'
  obtain ⟨pc, -, hat⟩ := fetch_threads hq hq'
  have hset : ∀ y, ({ s.setTaken x (entryKept s x q') with queue := q' } : State C).taken y =
      if y = x then entryKept s x q' else s.taken y := fun y => State.setTaken_taken ..
  have hkept : q'.threads x ≠ .again → entryKept s x q' = s.taken x := by
    intro hne
    rcases hat with hat | ⟨t, -, hat | hat⟩
    · exact absurd hat hne
    · rw [entryKept, hat]
    · rw [entryKept, hat]
  have hless : ∀ {y k}, Carries (C := C) { s.setTaken x (entryKept s x q') with queue := q' } y k → Carries s y k := by
    intro y k hy
    rw [Carries, hset] at hy
    split at hy
    · rename_i hyx
      by_cases hag : q'.threads x = .again
      · rw [entryKept, hag] at hy
        cases hy
      · rw [hyx, Carries, ← hkept hag]
        exact hy
    · exact hy
  by_cases hns : Queue.Spliced q'
  · exact ⟨fun y z k hy hz => h.once y z k (hless hy) (hless hz), fun hno => absurd hns hno, fun hno => absurd hns hno⟩
  · -- the request is on the list, so the caller keeps its entry
    have hag : q'.threads x ≠ .again := by
      obtain ⟨t, hmem, htid⟩ := h.found hx (fun hs => hns (hsp hs)) pc hr
      exact fetch_finds hq hq' hmem htid
    refine h.frame hx hsp (fun y => ?_) rfl (List.prefix_refl _) hpub hlog rfl
    rw [hset]
    split
    · rename_i hyx
      rw [hkept hag, hyx]
    · rfl

/-! ## The queue -/

/-- Only a thread that ends a request puts a publication into the log. -/
theorem logged_step {q q' : Queue.State C.queue} (h : Queue.Traced q) {l : Queue.Label C.queue}
    (hq : Queue.step q l = some q') (hl : ∀ x, l ≠ .th x .finish) {pb : Queue.Pub C.queue} (hpb : pb ∈ q'.pub)
    (hlog : pb.key ∈ q'.log.map Queue.Finish.key) : pb ∈ q.pub ∧ pb.key ∈ q.log.map Queue.Finish.key := by
  cases Queue.step_cases hq with
  | rq hw =>
    cases hw with
    | rqStart wk r =>
      obtain ⟨op, w, -, heq⟩ := Queue.startRq_eq q _ r
      rw [heq] at hpb hlog
      exact ⟨hpb, hlog⟩
    | publish wk ring se =>
      rcases List.mem_append.mp hpb with hpb | hpb
      · exact ⟨hpb, hlog⟩
      · obtain rfl := List.mem_singleton.mp hpb
        exact absurd hlog (h.recorded.not_logged (by rw [wk]; nofun))
    | endRequest e wk =>
      refine ⟨hpb, ?_⟩
      rw [List.map_append] at hlog
      rcases List.mem_append.mp hlog with hlog | hlog
      · exact hlog
      · -- a request that failed was not published
        have hkey : pb.key ∈ q.pub.map Queue.Pub.key := List.mem_map_of_mem hpb
        rw [List.mem_singleton.mp hlog] at hkey
        exact absurd hkey (h.recorded.not_published (by rw [wk]; rfl))
    | _ => exact ⟨hpb, hlog⟩
  | th ht =>
    cases ht with
    | finish t by_ pc => exact absurd rfl (hl _)
    | _ => exact ⟨hpb, hlog⟩
  | _ => exact ⟨hpb, hlog⟩

/-- A thread ends the request of its entry. -/
theorem Carried.finish (hx : Exchange s) (ht : Transfer s) (h : Carried s) {x : Nat} {t : C.Tag} {by_ : By}
    (pc : s.queue.threads x = .finish t by_) :
    Carried (record s (.th x .finish) ((Queue.finishRq s.queue t by_).setPc x (.advance by_))) := by
  have hless : ∀ {y k}, Carries (record s (.th x .finish) ((Queue.finishRq s.queue t by_).setPc x (.advance by_))) y k →
      y ≠ x ∧ Carries s y k := by
    intro y k hy
    have hy : (Function.update s.taken x none y).map Taken.num = some k := hy
    by_cases hyx : y = x
    · rw [hyx, Function.update_self] at hy
      cases hy
    · rw [Function.update_of_ne hyx] at hy
      exact ⟨hyx, hy⟩
  have hended : (record s (.th x .finish) ((Queue.finishRq s.queue t by_).setPc x (.advance by_))).ended =
      s.ended ++ [((t, (s.queue.rqs t).start), answer s x by_)] := by
    show s.ended ++ endedBy s (.th x .finish) = _
    simp only [endedBy, pc]
  have hstep : Queue.step s.queue (.th x .finish) = some ((Queue.finishRq s.queue t by_).setPc x (.advance by_)) := by
    show Queue.stepTh s.queue x .finish = _
    simp only [Queue.stepTh, pc]
  have hspliced : Queue.Spliced s.queue → Queue.Spliced ((Queue.finishRq s.queue t by_).setPc x (.advance by_)) :=
    fun hs => hs.step hstep
  have hent : ¬ Queue.Spliced ((Queue.finishRq s.queue t by_).setPc x (.advance by_)) → ∃ tid, by_ = .entry tid := by
    intro hns
    cases by_ with
    | entry tid => exact ⟨tid, rfl⟩
    | removal => exact absurd ⟨x, .inl (by rw [pc]; rfl)⟩ fun hs => hns (hspliced hs)
  refine ⟨fun y z k hy hz => h.once y z k (hless hy).2 (hless hz).2, fun hns k p hk hp => ?_, fun hns pb hpb hl => ?_⟩
  · obtain ⟨tid, rfl⟩ := hent hns
    obtain ⟨r, p', hr, hp', hans, hpub⟩ := hx.finishing ht pc
    rcases h.taken (fun hs => hns (hspliced hs)) k p hk hp with ⟨y, hy⟩ | ⟨key, hkey, he⟩
    · by_cases hyx : y = x
      · obtain ⟨r', hr', hnum⟩ := carries_iff.mp hy
        rw [hyx] at hr'
        obtain rfl := Option.some.inj (hr.symm.trans hr')
        obtain rfl : p' = p := Option.some.inj (hp'.num.symm.trans (hnum ▸ hp))
        refine .inr ⟨(t, (s.queue.rqs t).start), hpub, ?_⟩
        rw [hended, hans]
        exact List.mem_append_right _ (List.mem_singleton.mpr rfl)
      · refine .inl ⟨y, ?_⟩
        show (Function.update s.taken x none y).map Taken.num = some k
        rw [Function.update_of_ne hyx]
        exact hy
    · refine .inr ⟨key, hkey, ?_⟩
      rw [hended]
      exact List.mem_append_left _ he
  · obtain ⟨tid, rfl⟩ := hent hns
    have hl : pb.key ∈
        (s.queue.log ++ [(⟨t, (s.queue.rqs t).start, .entry tid⟩ : Queue.Finish C.queue)]).map Queue.Finish.key := hl
    rw [List.map_append] at hl
    rcases List.mem_append.mp hl with hl | hl
    · obtain ⟨k, p, hk, hp, htid, hno⟩ := h.logged (fun hs => hns (hspliced hs)) pb hpb hl
      exact ⟨k, p, hk, hp, htid, fun y hy => hno y (hless hy).2⟩
    · obtain ⟨r, p, hr, hp, -, hpub⟩ := hx.finishing ht pc
      obtain rfl := List.inj_on_of_nodup_map hx.regular.traced.recorded.pubOnce hpb hpub (List.mem_singleton.mp hl)
      refine ⟨r.num, p, hp.lt, hp.num, rfl, fun y hy => ?_⟩
      obtain ⟨hyx, hy⟩ := hless hy
      exact hyx (h.once y x _ hy (carries_iff.mpr ⟨r, hr, rfl⟩))

theorem Carried.queue (hx : Exchange s) (ht : Transfer s) (h : Carried s) {l : Queue.Label C.queue}
    {q : Queue.State C.queue} (hq : Queue.step s.queue l = some q) : Carried (record s l q) := by
  by_cases hf : ∃ x, l = .th x .finish
  · obtain ⟨x, rfl⟩ := hf
    have hth : ThStep s.queue x .finish q := Queue.stepTh_cases hq
    cases hth with
    | back l call pc => cases call
    | finish t by_ pc => exact h.finish hx ht pc
  · have hl : ∀ x, l ≠ .th x .finish := fun x he => hf ⟨x, he⟩
    have htaken : (record s l q).taken = s.taken := record_taken hl
    have hcarries : ∀ y k, Carries (record s l q) y k ↔ Carries s y k := fun y k => by
      unfold Carries
      rw [htaken]
    have hended : ∀ e ∈ s.ended, e ∈ (record s l q).ended := fun e he => List.mem_append_left _ he
    have hpub : ∀ p ∈ s.queue.pub, p ∈ q.pub := fun p hp => by
      rw [sentBy_pub hq]
      exact List.mem_append_left _ hp
    refine ⟨fun y z k hy hz => h.once y z k ((hcarries y k).mp hy) ((hcarries z k).mp hz), fun hns k p hk hp => ?_,
      fun hns pb hpb hlog => ?_⟩
    · rcases h.taken (fun hs => hns (hs.step hq)) k p hk hp with ⟨y, hy⟩ | ⟨key, hkey, he⟩
      · exact .inl ⟨y, (hcarries y k).mpr hy⟩
      · exact .inr ⟨key, hpub _ hkey, hended _ he⟩
    · obtain ⟨hpb, hlog⟩ := logged_step hx.regular.traced hq hl hpb hlog
      obtain ⟨k, p, hk, hp, htid, hno⟩ := h.logged (fun hs => hns (hs.step hq)) pb hpb hlog
      exact ⟨k, p, hk, hp, htid, fun y hy => hno y ((hcarries y k).mp hy)⟩

theorem carried_step {a : Label C} (hx : Exchange s) (ht : Transfer s) (h : Carried s) (hs : step s a = some s') :
    Carried s' := by
  have hset : ∀ {x r r'}, s.taken x = some r → r'.num = r.num → ∀ y,
      ((s.setTaken x (some r')).taken y).map Taken.num = (s.taken y).map Taken.num := by
    intro x r r' hr hnum y
    rw [State.setTaken_taken]
    split
    · rename_i hyx
      rw [hyx, hr, Option.map_some, Option.map_some, hnum]
    · rfl
  cases step_cases hs with
  | queue l q ok hq => exact h.queue hx ht hq
  | take x pc hnone more => exact h.take hx hnone
  | fetch x r q q' hr hq hq' => exact h.fetch hx hr hq hq'
  | copyFrom x t tid r bv page pc hr op unread seg hpage =>
    exact h.frame hx id (hset hr rfl) rfl (List.prefix_refl _) rfl rfl rfl
  | result x t tid r pc hr unread full => exact h.frame hx id (hset hr rfl) rfl (List.prefix_refl _) rfl rfl rfl
  | post p hp room => exact h.frame hx id (fun _ => rfl) rfl (List.prefix_append _ _) rfl rfl rfl
  | _ => exact h.frame hx id (fun _ => rfl) rfl (List.prefix_refl _) rfl rfl rfl

/-! ## Nothing is lost -/

/-- The backend has read the ring and answered, and the callers are done with all entries. -/
structure AtRest (s : State C) : Prop where
  read : s.pos = s.queue.ring.cmdHead
  todo : s.todo = []
  writing : s.writing = none
  entries : s.comprTail = s.comprHead
  taken : ∀ x, s.taken x = none

/-- Each answer is in one place: its entry is to be taken, and its request on
the list; one thread has it; or its request is ended with it. -/
structure Accounted (s : State C) : Prop where
  waiting : ∀ k p, s.ntaken ≤ k → s.posted[k]? = some p → ∃ t ∈ s.queue.inflight, (s.queue.rqs t).tid = p.1
  found : ∀ x r, s.queue.threads x = .again → s.taken x = some r →
    ∃ t ∈ s.queue.inflight, (s.queue.rqs t).tid = C.compr.privData.get s.compr r.ce
  taken : ∀ k p, k < s.ntaken → s.posted[k]? = some p →
    (∃ x, Carries s x k ∧ ∀ y, Carries s y k → y = x) ∧ ¬ EndedWith s p ∨ (∀ x, ¬ Carries s x k) ∧ EndedWith s p
  atRest : AtRest s → ∀ m ∈ s.sent, ∃ d, (m.2.cmd.privData, d) ∈ s.posted ∧ (m.1, some d) ∈ s.ended

/-- Nobody has the entry of a request that was ended with its answer. -/
theorem Carried.not_ended (hx : Exchange s) (h : Carried s) (hns : ¬ Queue.Spliced s.queue) {x k : Nat}
    {p : Nat × Reply} (hp : s.posted[k]? = some p) (hc : Carries s x k) : ¬ EndedWith s p := by
  rintro ⟨key, hpub, he⟩
  obtain ⟨k', p', -, hp', htid, hno⟩ := h.logged hns _ hpub (hx.ended _ he)
  obtain rfl := hx.num_inj hp' hp htid
  exact hno x hc

theorem Exchange.all_read (hx : Exchange s) (h : s.pos = s.queue.ring.cmdHead) :
    s.seen = s.sent.map fun m => m.2.cmd := by
  obtain ⟨hs, es, hent, hcmds⟩ := hx.entries
  rw [hent.eq_nil h, List.filterMap_nil, List.append_nil] at hcmds
  exact hcmds

theorem Completions.all_taken (h : Completions s) (he : s.comprTail = s.comprHead) : s.ntaken = s.posted.length := by
  refine Nat.le_antisymm h.le (Nat.le_of_not_lt fun hlt => ?_)
  rw [h.tail, h.head] at he
  exact C.compr.slot_ne hlt h.room he

theorem Carried.accounted (hx : Exchange s) (h : Carried s) (hns : ¬ Queue.Spliced s.queue) : Accounted s where
  waiting k p hk hp :=
    h.listed hx hns hp (.inl hk) fun x hc => absurd (hx.carries_lt hc) (Nat.not_lt.mpr hk)
  found x r pc hr := h.found hx hns pc hr
  taken k p hk hp := by
    by_cases hc : ∃ x, Carries s x k
    · obtain ⟨x, hc⟩ := hc
      exact .inl ⟨⟨x, hc, fun y hy => h.once y x k hy hc⟩, h.not_ended hx hns hp hc⟩
    · exact .inr ⟨fun x hx => hc ⟨x, hx⟩, (h.taken hns k p hk hp).resolve_left hc⟩
  atRest hr m hm := by
    -- what was read was answered, and every answer was taken
    have hread : m.2.cmd.privData ∈ s.seen.map Cmd.privData := by
      rw [hx.all_read hr.read, List.map_map]
      exact List.mem_map_of_mem hm
    have hans := hx.answered
    rw [hr.todo, hr.writing] at hans
    obtain ⟨p, hp, hptid⟩ := List.mem_map.mp (hans.symm.subset hread)
    obtain ⟨k, hk, hpk⟩ := List.getElem_of_mem hp
    have hget : s.posted[k]? = some p := by rw [List.getElem?_eq_getElem hk, hpk]
    have hnone : ¬ ∃ x, Carries s x k := fun ⟨x, hc⟩ => by
      rw [Carries, hr.taken x] at hc
      cases hc
    rw [← hx.completions.all_taken hr.entries] at hk
    obtain ⟨key, hpub, he⟩ := (h.taken hns k p hk hget).resolve_left hnone
    have hmpub : (⟨m.2.cmd.privData, m.1.1, m.1.2⟩ : Queue.Pub C.queue) ∈ s.queue.pub := by
      rw [hx.pub]
      exact List.mem_map_of_mem hm
    obtain ⟨-, htag, hstart⟩ := Queue.Pub.mk.inj (hx.regular.traced.recorded.tid_inj hpub hmpub hptid)
    refine ⟨p.2, hptid ▸ hp, ?_⟩
    rw [← show key = m.1 from Prod.ext htag hstart]
    exact he

theorem carried_states (C : Conf) {n : Nat} (hn : n ≤ 2 ^ 31) (r : Nat) (as : List (Label C))
    (h : (lts C).Steps Proper (initState C n r) as) :
    (lts C).States (fun s => Exchange s ∧ Carried s) (initState C n r) as := by
  refine (Lts.states_of_steps (I := fun s => Exchange s ∧ Messages s ∧ Transfer s ∧ Carried s)
    (fun s a s' hi hs hp => ?_) ⟨exchange_init hn r, messages_init n r, transfer_init n r, carried_init n r⟩ h).mono
    fun s hi => ⟨hi.1, hi.2.2.2⟩
  obtain ⟨hx, hm, ht, hc⟩ := hi
  exact ⟨exchange_step hx hs hp, messages_step hx hm hs, transfer_step hx hm ht hs, carried_step hx ht hc hs⟩

/-- In every run in which REMOVING is not overwritten, no more than `2 ^ 64 - 1`
commands are published and the backend writes no entry to a slot that a caller
has still to read, no answer is lost before a forced removal takes requests off
the list. The backend answers each command at most once (`stepReply`): a second
answer would find no request. -/
theorem no_answer_lost (C : Conf) {n : Nat} (hn : n ≤ 2 ^ 31) (r : Nat) (as : List (Label C))
    (h : (lts C).Steps Proper (initState C n r) as) :
    (lts C).States (fun s => ¬ Queue.Spliced s.queue → Accounted s) (initState C n r) as :=
  (carried_states C hn r as h).mono fun _ hi hns => hi.2.accounted hi.1 hns

/-- The READ: its answer waits in the ring, is with the thread, and has ended it. -/
theorem no_answer_lost_read :
    (lts smallConf).States (fun s => ¬ Queue.Spliced s.queue → Accounted s) (initState smallConf 8 6)
        (sendRead ++ answerRead ++ completeRead) ∧
      ((lts smallConf).exec (initState smallConf 8 6) (sendRead ++ answerRead ++ completeRead)).map
        (fun s => (s.posted.length, s.ntaken, s.ended.length)) = some (1, 1, 1) := by
  refine ⟨no_answer_lost _ (by decide) _ _ (proper_of_calm (List.all_eq_true.mp rfl) (List.all_eq_true.mp rfl)
    (List.all_eq_true.mp rfl) (by decide) fun _ => rfl), by decide +kernel⟩

/-! ## The room in the completion ring -/

/-- The numbers under which answers are written or wait to be taken. -/
def underWay (s : State C) : List Nat := (s.writing.map Prod.fst).toList ++ (s.posted.drop s.ntaken).map Prod.fst

theorem Exchange.underWay_nodup (hx : Exchange s) : (underWay s).Nodup := by
  have hnd := hx.answered.nodup_iff.mpr hx.seen_nodup
  rw [List.append_assoc] at hnd
  refine (List.nodup_append.mp hnd).2.1.sublist ?_
  exact List.Sublist.append_left ((List.drop_sublist _ _).map _) _

/-- Each is of a request of its own. -/
theorem Carried.underWay_rqs (hx : Exchange s) (h : Carried s) (hns : ¬ Queue.Spliced s.queue) {tid : Nat}
    (ht : tid ∈ underWay s) : ∃ t : C.Tag, (s.queue.rqs t).tid = tid := by
  have hseen : tid ∈ s.seen.map Cmd.privData := by
    refine hx.answered.subset ?_
    rcases List.mem_append.mp ht with ht | ht
    · exact List.mem_append_left _ (List.mem_append_right _ ht)
    · exact List.mem_append_right _ (List.map_subset _ (List.drop_subset _ _) ht)
  obtain ⟨pb, hpb, hpbtid⟩ := hx.seen_pub hseen
  refine ⟨pb.tag, (h.unanswered hx hns hpb fun k p hk hp he => ?_).1.trans hpbtid⟩
  -- no taken entry has this number
  exfalso
  have hptid : p.1 = tid := he.trans hpbtid
  rcases List.mem_append.mp ht with ht | ht
  · have hnd := hx.answered.nodup_iff.mpr hx.seen_nodup
    exact (List.nodup_append.mp hnd).2.2 tid (List.mem_append_right _ ht) p.1
      (List.mem_map_of_mem (List.mem_of_getElem? hp)) hptid.symm
  · obtain ⟨q, hq, hqtid⟩ := List.mem_map.mp ht
    obtain ⟨j, hj, hqj⟩ := List.getElem_of_mem hq
    have hget : s.posted[s.ntaken + j]? = some q := by
      rw [← List.getElem?_drop, List.getElem?_eq_getElem hj, hqj]
    have := hx.num_inj hp hget (hptid.trans hqtid.symm)
    omega

theorem Carried.underWay_le (hx : Exchange s) (h : Carried s) (hns : ¬ Queue.Spliced s.queue) :
    (underWay s).length ≤ C.tags := by
  have hsub : underWay s ⊆ (List.finRange C.tags).map fun t => (s.queue.rqs t).tid := fun tid ht => by
    obtain ⟨t, htid⟩ := h.underWay_rqs hx hns ht
    exact List.mem_map.mpr ⟨t, List.mem_finRange t, htid⟩
  have hle := (hx.underWay_nodup.subperm hsub).length_le
  rwa [List.length_map, List.length_finRange] at hle

/-- Before a forced removal takes requests off the list, there are no more
answers under way than requests, so a backend whose completion ring has more
slots than that never waits for one. This too needs that it answers each command
at most once (`stepReply`). -/
theorem post_never_blocks (C : Conf) {n : Nat} (hn : n ≤ 2 ^ 31) (r : Nat) (as : List (Label C))
    (h : (lts C).Steps Proper (initState C n r) as) :
    (lts C).States (fun s => ¬ Queue.Spliced s.queue → (underWay s).length ≤ C.tags ∧
      (C.tags < C.compr.slots → s.writing.isSome = true → (step s .post).isSome = true)) (initState C n r) as := by
  refine (carried_states C hn r as h).mono fun s hi hns => ?_
  obtain ⟨hx, hc⟩ := hi
  have hle := hc.underWay_le hx hns
  refine ⟨hle, fun hslots hw => ?_⟩
  obtain ⟨p, hp⟩ := Option.isSome_iff_exists.mp hw
  have hcompl := hx.completions
  rw [underWay, List.length_append, hp, List.length_map, List.length_drop] at hle
  have hle : 1 + (s.posted.length - s.ntaken) ≤ C.tags := hle
  have hne : Compr.updateComprTail s.comprHead C.compr.sizeofCe C.compr.comprSize ≠ s.comprTail := by
    rw [hcompl.head, C.compr.updateComprTail_slot, hcompl.tail]
    have := hcompl.le
    exact (C.compr.slot_ne (by omega) (by omega)).symm
  simp only [step, stepPost, hp, Option.bind_some, if_neg hne, Option.isSome_some]

/-- One request and two slots: the answer that is written can be posted. -/
theorem post_never_blocks_read :
    smallConf.tags < smallConf.compr.slots ∧
      (lts smallConf).States (fun s => ¬ Queue.Spliced s.queue → (underWay s).length ≤ smallConf.tags ∧
        (smallConf.tags < smallConf.compr.slots → s.writing.isSome = true → (step s .post).isSome = true))
        (initState smallConf 8 6) (sendRead ++ answerRead ++ completeRead) := by
  refine ⟨by decide, post_never_blocks _ (by decide) _ _ (proper_of_calm (List.all_eq_true.mp rfl)
    (List.all_eq_true.mp rfl) (List.all_eq_true.mp rfl) (by decide) fun _ => rfl)⟩

end Ubbd.Service
