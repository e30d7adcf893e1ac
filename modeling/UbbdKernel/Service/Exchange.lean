import UbbdKernel.Queue.Entries
import UbbdKernel.Service.Completions

/-!
# Commands and answers

What the commands in the ring, those that the backend has read and the answers
it has posted have to do with each other, in every run in which REMOVING is not
overwritten, no more than `2 ^ 64 - 1` commands are published, and the backend
writes no entry to a slot that a caller has still to read (`Exchange`): the
backend reads what was sent, in that order, and answers each command once; a
completion is of a request whose command was read.
-/

namespace Ubbd.Service

open Queue (Pc By ThStep)
open Ubbd.Ring (Ent)

variable {C : Conf} {s s' : State C}

structure Exchange (s : State C) : Prop where
  regular : Queue.Regular s.queue
  /-- What was read, and what is in front of the backend. -/
  entries : ∃ hs es, Queue.Entries s.queue s.pos hs es ∧
    s.seen ++ es.filterMap Ent.cmd = s.sent.map fun m => m.2.cmd
  pub : s.queue.pub = s.sent.map fun m => ⟨m.2.cmd.privData, m.1.1, m.1.2⟩
  /-- What was read is to be answered, being answered, or answered. -/
  answered : (s.todo.map Cmd.privData ++ (s.writing.map Prod.fst).toList ++ s.posted.map Prod.fst).Perm
    (s.seen.map Cmd.privData)
  todo : ∀ c ∈ s.todo, c ∈ s.seen
  completions : Completions s
  ended : ∀ e ∈ s.ended, e.1 ∈ s.queue.log.map Queue.Finish.key

/-- What is asked of a step. -/
structure Proper (s : State C) (a : Label C) (s' : State C) : Prop where
  lasts : Queue.Lasts s.queue s'.queue
  unwrapped : ∀ l, a = .queue l → Queue.Unwrapped s.queue l
  apart : Apart s a

theorem exchange_init {n : Nat} (hn : n ≤ 2 ^ 31) (r : Nat) : Exchange (initState C n r) where
  regular := Queue.regular_init hn r
  entries := ⟨[], [], Queue.entries_init n r, rfl⟩
  pub := rfl
  answered := .nil
  todo := nofun
  completions := completions_init n r
  ended := nofun

theorem pageSize_lt (L : Data.Layout) : L.pageSize < 2 ^ 64 := by
  have := L.fits
  omega

/-! ## What the numbers are -/

/-- Each command was sent under the number of its publication. -/
theorem Exchange.tids (h : Exchange s) :
    s.sent.map (fun m => m.2.cmd.privData) = List.range' 1 s.sent.length := by
  have ht := h.regular.traced.recorded.tids
  rw [h.pub, List.map_map, List.length_map] at ht
  exact ht

theorem Exchange.seen_map (h : Exchange s) : s.seen.map Cmd.privData <+: s.sent.map fun m => m.2.cmd.privData := by
  obtain ⟨hs, es, -, heq⟩ := h.entries
  refine ⟨(es.filterMap Ent.cmd).map Cmd.privData, ?_⟩
  rw [← List.map_append, heq, List.map_map]
  rfl

theorem Exchange.seen_nodup (h : Exchange s) : (s.seen.map Cmd.privData).Nodup := by
  have hnd : (s.sent.map fun m => m.2.cmd.privData).Nodup := h.tids ▸ List.nodup_range'
  exact hnd.sublist h.seen_map.sublist

theorem Exchange.posted_nodup (h : Exchange s) : (s.posted.map Prod.fst).Nodup :=
  (List.nodup_append.mp (h.answered.nodup_iff.mpr h.seen_nodup)).2.1

theorem Exchange.posted_seen (h : Exchange s) {p : Nat × Reply} (hp : p ∈ s.posted) :
    p.1 ∈ s.seen.map Cmd.privData :=
  h.answered.subset (List.mem_append_right _ (List.mem_map_of_mem hp))

theorem Exchange.todo_lt (h : Exchange s) {c : Cmd} (hc : c ∈ s.todo) : c.privData < 2 ^ 64 := by
  have hmem : c.privData ∈ s.sent.map fun m => m.2.cmd.privData :=
    h.seen_map.subset (List.mem_map_of_mem (h.todo c hc))
  have hfew := h.regular.few
  rw [h.tids, List.mem_range'_1] at hmem
  rw [h.pub, List.length_map] at hfew
  omega

/-- What was read was published. -/
theorem Exchange.seen_pub (h : Exchange s) {tid : Nat} (ht : tid ∈ s.seen.map Cmd.privData) :
    ∃ p ∈ s.queue.pub, p.tid = tid := by
  obtain ⟨m, hm, htid⟩ := List.mem_map.mp (h.seen_map.subset ht)
  exact ⟨_, by rw [h.pub]; exact List.mem_map_of_mem hm, htid⟩

/-! ## Entries -/

/-- A completion is of a request whose command the backend has passed. -/
theorem Exchange.mark (h : Exchange s) {hs es : List Ent} (he : Queue.Entries s.queue s.pos hs es)
    (hcmds : s.seen ++ es.filterMap Ent.cmd = s.sent.map fun m => m.2.cmd) {x : Nat} {t : C.Tag} {by_ : By}
    (pc : s.queue.threads x = .mark t by_) (hns : ¬ Queue.Spliced s.queue) {e : Ent} (hmem : e ∈ es) :
    e.pos ≠ (s.queue.rqs t).se := by
  intro hpos
  cases by_ with
  | removal => exact hns ⟨x, .inl (by rw [pc]; rfl)⟩
  | entry tid =>
    have hown := h.regular.traced.own
    obtain ⟨hwk, -⟩ := hown.of_holds (x := x) (t := t) (by rw [pc]; rfl)
    obtain ⟨c, hc, htid⟩ := he.ahead hwk (hown.unreleased pc) hmem hpos
    have hserved := h.regular.traced.recorded.served x
    rw [pc] at hserved
    have ht := h.completions.takes x
    rw [pc] at ht
    obtain ⟨r, p, -, hp, hptid⟩ := ht
    -- its number is among those read and among those in front
    have hseen := h.posted_seen (List.mem_of_getElem? hp.num)
    have hnd : (s.sent.map fun m => m.2.cmd.privData).Nodup := h.tids ▸ List.nodup_range'
    have heq : s.sent.map (fun m => m.2.cmd.privData) =
        s.seen.map Cmd.privData ++ (es.filterMap Ent.cmd).map Cmd.privData := by
      rw [← List.map_append, hcmds, List.map_map]
      rfl
    rw [heq] at hnd
    refine (List.nodup_append.mp hnd).2.2 _ hseen _ (List.mem_map_of_mem hc) ?_
    rw [htid, hptid]
    exact hserved.symm

/-- Only submissions send commands. -/
theorem sentBy_eq_nil {l : Queue.Label C.queue} (hl : ∀ t, l ≠ .rq t .submit) (q : Queue.State C.queue) :
    sentBy s l q = [] := by
  unfold sentBy
  split
  · rename_i t
    exact absurd rfl (hl t)
  · rfl

theorem published_eq_nil {q q' : Queue.State C.queue} {l : Queue.Label C.queue} (hl : ∀ t, l ≠ .rq t .submit) :
    Queue.published q l q' = [] := by
  unfold Queue.published
  split
  · rename_i t
    exact absurd rfl (hl t)
  · rfl

/-- The commands that a step of the queue sends are those it publishes. -/
theorem sentBy_cmds (l : Queue.Label C.queue) (q : Queue.State C.queue) :
    (sentBy s l q).map (fun m => m.2.cmd) = Queue.published s.queue l q := by
  by_cases hl : ∃ t, l = .rq t .submit
  · obtain ⟨t, rfl⟩ := hl
    by_cases hwk : (q.rqs t).wk = .published
    · simp only [sentBy, Queue.published, if_pos hwk, List.map_cons, List.map_nil]
    · simp only [sentBy, Queue.published, if_neg hwk, List.map_nil]
  · have hl : ∀ t, l ≠ .rq t .submit := fun t he => hl ⟨t, he⟩
    rw [sentBy_eq_nil hl, published_eq_nil hl, List.map_nil]

/-- And they are recorded. -/
theorem sentBy_pub {l : Queue.Label C.queue} {q : Queue.State C.queue} (hq : Queue.step s.queue l = some q) :
    q.pub = s.queue.pub ++ (sentBy s l q).map fun m => ⟨m.2.cmd.privData, m.1.1, m.1.2⟩ := by
  by_cases hl : ∃ t, l = .rq t .submit
  · obtain ⟨t, rfl⟩ := hl
    have hst : Queue.stepWk s.queue t .submit = some q := hq
    simp only [Queue.stepWk] at hst
    split at hst <;> [skip; cases hst]
    rw [Option.some.injEq] at hst
    cases hr : Ring.submit C.queue.header s.queue.ring (Queue.cmdOf s.queue t) with
    | none =>
      rw [hr] at hst
      have hwk : (q.rqs t).wk ≠ .published := by
        rw [← hst, Queue.publishRq, Queue.State.setWk_rqs, if_pos rfl]
        show Queue.Wk.full ≠ .published
        decide
      rw [sentBy, if_neg hwk, List.map_nil, List.append_nil, ← hst]
      rfl
    | some ring =>
      rw [hr] at hst
      have hwk : (q.rqs t).wk = .published := by
        rw [← hst]
        exact congrArg Queue.Rq.wk ((Queue.State.setRq_rqs ..).trans (if_pos rfl))
      rw [sentBy, if_pos hwk, ← hst]
      rfl
  · rw [sentBy_eq_nil (fun t he => hl ⟨t, he⟩), List.map_nil, List.append_nil]
    cases Queue.step_cases hq with
    | rq hw =>
      cases hw with
      | rqStart wk r =>
        obtain ⟨op, w, -, heq⟩ := Queue.startRq_eq s.queue _ r
        rw [heq]
        rfl
      | full | publish => exact absurd ⟨_, rfl⟩ hl
      | _ => rfl
    | th ht => cases ht <;> rfl
    | _ => rfl

/-- What a step of the queue ends is in its log. -/
theorem endedBy_log {l : Queue.Label C.queue} {q : Queue.State C.queue} (hq : Queue.step s.queue l = some q) :
    (∀ e ∈ s.queue.log, e ∈ q.log) ∧ ∀ e ∈ endedBy s l, e.1 ∈ q.log.map Queue.Finish.key := by
  have hnil : (∀ x, l ≠ .th x .finish) → endedBy s l = [] := by
    intro hl
    unfold endedBy
    split
    · rename_i x
      exact absurd rfl (hl x)
    · rfl
  cases Queue.step_cases hq with
  | rq hw =>
    rw [hnil nofun]
    refine ⟨?_, nofun⟩
    cases hw with
    | rqStart wk r =>
      obtain ⟨op, w, -, heq⟩ := Queue.startRq_eq s.queue _ r
      rw [heq]
      exact fun _ => id
    | endRequest e wk => exact fun e he => List.mem_append_left _ he
    | _ => exact fun _ => id
  | th ht =>
    rename_i x l
    cases ht with
    | finish t by_ pc =>
      refine ⟨fun e he => List.mem_append_left _ he, fun e he => ?_⟩
      have he : e ∈ endedBy s (.th x .finish) := he
      simp only [endedBy, pc] at he
      rw [List.mem_singleton.mp he]
      exact List.mem_map.mpr ⟨_, List.mem_append_right _ (List.mem_singleton.mpr rfl), rfl⟩
    | back l call pc =>
      rw [hnil fun y hy => by cases hy; cases call]
      exact ⟨fun _ => id, nofun⟩
    | _ =>
      rw [hnil nofun]
      exact ⟨fun _ => id, nofun⟩
  | _ =>
    rw [hnil nofun]
    exact ⟨fun _ => id, nofun⟩

/-- The ring of a regular queue may be any. -/
theorem Regular.ring {q : Queue.State C.queue} (h : Queue.Regular q) (ring : CmdRing) :
    Queue.Regular { q with ring := ring } where
  traced := ⟨⟨h.traced.own.placed, h.traced.own.tmp⟩, h.traced.recorded.congr rfl rfl rfl (fun _ => rfl) (fun _ => rfl)
    (fun _ => rfl) h.traced.recorded.served⟩
  awaited := h.awaited
  holding := ⟨h.holding.owned, h.holding.wants, h.holding.known⟩
  few := h.few

/-! ## Steps -/

/-- Steps that change neither the queue nor what is sent, read and answered. -/
theorem Exchange.frame (h : Exchange s) (hq : s'.queue = s.queue) (hpos : s'.pos = s.pos) (hseen : s'.seen = s.seen)
    (hsent : s'.sent = s.sent) (htodo : s'.todo = s.todo) (hw : s'.writing = s.writing) (hp : s'.posted = s.posted)
    (he : s'.ended = s.ended) (hc : Completions s') : Exchange s' where
  regular := hq ▸ h.regular
  entries := by
    rw [hq, hpos, hseen, hsent]
    exact h.entries
  pub := by
    rw [hq, hsent]
    exact h.pub
  answered := by
    rw [htodo, hw, hp, hseen]
    exact h.answered
  todo := by
    rw [htodo, hseen]
    exact h.todo
  completions := hc
  ended := by
    rw [he, hq]
    exact h.ended

theorem Exchange.queue (h : Exchange s) {l : Queue.Label C.queue} {q : Queue.State C.queue} (ok : allowed s l = true)
    (hq : Queue.step s.queue l = some q) (hl : Queue.Lasts s.queue q) (hu : Queue.Unwrapped s.queue l)
    (hc : Completions (record s l q)) : Exchange (record s l q) where
  regular := by
    refine h.regular.step hq ?_ hu hl
    cases l with
    | th x l =>
      cases l with
      | take tid => cases ok
      | _ => trivial
    | _ => trivial
  entries := by
    obtain ⟨hs, es, hent, hcmds⟩ := h.entries
    obtain ⟨hs', es', hent', hes, -⟩ := Queue.entries_step (pageSize_lt C.data) h.regular hent hq
      (fun p he => by rw [he] at ok; cases ok)
      fun x t by_ _ pc hns e hmem => h.mark hent hcmds pc hns hmem
    refine ⟨hs', es', hent', ?_⟩
    show s.seen ++ _ = List.map _ (s.sent ++ sentBy s l q)
    rw [hes, List.map_append, ← hcmds, sentBy_cmds, List.append_assoc]
  pub := by
    show q.pub = List.map _ (s.sent ++ sentBy s l q)
    rw [sentBy_pub hq, h.pub, List.map_append]
  answered := h.answered
  todo := h.todo
  completions := hc
  ended e he := by
    obtain ⟨hlog, hnew⟩ := endedBy_log hq
    rcases List.mem_append.mp he with he | he
    · obtain ⟨f, hf, heq⟩ := List.mem_map.mp (h.ended e he)
      exact List.mem_map.mpr ⟨f, hlog f hf, heq⟩
    · exact hnew e he

/-- A caller takes the number of an entry that was posted. -/
theorem Exchange.regular_take (h : Exchange s) {x : Nat} {r : Taken} {q q' : Queue.State C.queue}
    (hr : s.taken x = some r) (hq : Queue.step s.queue (.th x (.take (C.compr.privData.get s.compr r.ce))) = some q)
    (hq' : Queue.step q (.th x .fetch) = some q') : Queue.Regular q := by
  obtain ⟨pc, -, -⟩ := fetch_threads hq hq'
  obtain ⟨-, -, p, hp, htid⟩ := h.completions.tid hr pc
  have hstatus : q.status = s.queue.status := by
    have hth : ThStep s.queue x (.take _) q := Queue.stepTh_cases hq
    cases hth <;> rfl
  refine h.regular.step hq ?_ trivial fun hst => hstatus.trans hst
  rw [htid]
  exact h.seen_pub (h.posted_seen (List.mem_of_getElem? hp.num))

/-- A caller looks for the request of its entry. -/
theorem Exchange.fetch (h : Exchange s) {x : Nat} {r : Taken} {q q' : Queue.State C.queue} (hr : s.taken x = some r)
    (hq : Queue.step s.queue (.th x (.take (C.compr.privData.get s.compr r.ce))) = some q)
    (hq' : Queue.step q (.th x .fetch) = some q')
    (hc : Completions { s.setTaken x (entryKept s x q') with queue := q' }) :
    Exchange { s.setTaken x (entryKept s x q') with queue := q' } := by
  have hstatus : q.pub = s.queue.pub ∧ q.log = s.queue.log := by
    have hth : ThStep s.queue x (.take _) q := Queue.stepTh_cases hq
    cases hth <;> exact ⟨rfl, rfl⟩
  have hstatus' : q'.status = q.status ∧ q'.pub = q.pub ∧ q'.log = q.log := by
    have hth : ThStep q x .fetch q' := Queue.stepTh_cases hq'
    cases hth <;> exact ⟨rfl, rfl, rfl⟩
  have hreg := h.regular_take hr hq hq'
  refine ⟨hreg.step hq' trivial trivial fun hst => hstatus'.1.trans hst, ?_, ?_, h.answered, h.todo, hc, fun e he => ?_⟩
  · obtain ⟨hs, es, hent, hcmds⟩ := h.entries
    obtain ⟨hs₁, es₁, h₁, hes₁, -⟩ := Queue.entries_step (pageSize_lt C.data) h.regular hent hq nofun nofun
    obtain ⟨hs₂, es₂, h₂, hes₂, -⟩ := Queue.entries_step (pageSize_lt C.data) hreg h₁ hq' nofun nofun
    refine ⟨hs₂, es₂, h₂, ?_⟩
    show s.seen ++ _ = List.map _ s.sent
    rw [hes₂, hes₁, ← hcmds]
    simp only [Queue.published, List.append_nil]
  · show q'.pub = List.map _ s.sent
    rw [hstatus'.2.1, hstatus.1]
    exact h.pub
  · show e.1 ∈ q'.log.map _
    rw [hstatus'.2.2, hstatus.2]
    exact h.ended e he

/-- The backend passes an entry. -/
theorem Exchange.readCmd (h : Exchange s) {c : Cmd} (more : s.pos ≠ s.queue.ring.cmdHead)
    (hc : Ring.cmdAt C.header s.queue.ring.cmdr s.pos = some c) {pos : Nat}
    (hpos : pos = (s.pos + Ring.entLen C.header s.queue.ring.cmdr s.pos) % C.header.cmdrSize)
    (hcompl : Completions { s with pos := pos, seen := s.seen ++ [c], todo := s.todo ++ [c] }) :
    Exchange { s with pos := pos, seen := s.seen ++ [c], todo := s.todo ++ [c] } where
  regular := h.regular
  entries := by
    obtain ⟨hs, es, hent, hcmds⟩ := h.entries
    obtain ⟨e, es', rfl, hec, hent'⟩ := hent.passCmd more hc
    refine ⟨hs ++ [e], es', by rw [hpos]; exact hent', ?_⟩
    rw [List.filterMap_cons_some hec] at hcmds
    show (s.seen ++ [c]) ++ _ = _
    rw [List.append_assoc, List.singleton_append]
    exact hcmds
  pub := h.pub
  answered := by
    show (List.map Cmd.privData (s.todo ++ [c]) ++ _ ++ _).Perm (List.map Cmd.privData (s.seen ++ [c]))
    rw [List.map_append, List.map_append]
    refine .trans ?_ (h.answered.append_right _)
    simp only [List.map_cons, List.map_nil, List.append_assoc]
    refine List.Perm.append_left _ ?_
    rw [← List.append_assoc (s.writing.map Prod.fst).toList]
    exact List.perm_append_comm
  todo d hd := by
    rcases List.mem_append.mp hd with hd | hd
    · exact List.mem_append_left _ (h.todo d hd)
    · exact List.mem_append_right _ hd
  completions := hcompl
  ended := h.ended

theorem Exchange.readPad (h : Exchange s) (more : s.pos ≠ s.queue.ring.cmdHead)
    (hc : Ring.cmdAt C.header s.queue.ring.cmdr s.pos = none) {pos : Nat}
    (hpos : pos = (s.pos + Ring.entLen C.header s.queue.ring.cmdr s.pos) % C.header.cmdrSize)
    (hcompl : Completions { s with
      pos := pos, queue := { s.queue with ring := Ring.setDone C.header s.queue.ring s.pos } }) :
    Exchange { s with
      pos := pos, queue := { s.queue with ring := Ring.setDone C.header s.queue.ring s.pos } } where
  regular := Regular.ring h.regular _
  entries := by
    obtain ⟨hs, es, hent, hcmds⟩ := h.entries
    obtain ⟨e, es', rfl, -, hec, hent'⟩ := hent.passPad more hc
    refine ⟨_, _, by rw [hpos]; exact hent', ?_⟩
    rw [List.filterMap_cons_none hec] at hcmds
    show s.seen ++ _ = _
    rw [Queue.filterMap_markAt]
    exact hcmds
  pub := h.pub
  answered := h.answered
  todo := h.todo
  completions := hcompl
  ended := h.ended

/-- A command that is found is taken out of what is to be answered. -/
theorem todoOf_perm {l : List Cmd} {tid : Nat} {c : Cmd} (h : l.find? (fun c => c.privData = tid) = some c) :
    (l.map Cmd.privData).Perm (tid :: (l.eraseP fun c => c.privData = tid).map Cmd.privData) := by
  induction l with
  | nil => cases h
  | cons a l ih =>
    by_cases ha : a.privData = tid
    · rw [List.eraseP_cons_of_pos (by simpa using ha), List.map_cons, ha]
    · rw [List.find?_cons_of_neg (by simpa using ha)] at h
      rw [List.eraseP_cons_of_neg (by simpa using ha), List.map_cons, List.map_cons]
      exact ((ih h).cons _).trans (.swap ..)

/-- The backend answers a command. -/
theorem Exchange.reply (h : Exchange s) {tid : Nat} {d : Reply} {c : Cmd} (hc : todoOf s tid = some c)
    (free : s.writing = none) {compr : Mem}
    (hcompl : Completions { s with
      compr := compr, todo := s.todo.eraseP fun c => c.privData = tid, writing := some (tid, d) }) :
    Exchange { s with
      compr := compr, todo := s.todo.eraseP fun c => c.privData = tid, writing := some (tid, d) } where
  regular := h.regular
  entries := h.entries
  pub := h.pub
  answered := by
    refine .trans ?_ h.answered
    rw [free]
    refine List.Perm.append_right _ ?_
    show (_ ++ [tid]).Perm (_ ++ [])
    rw [List.append_nil]
    exact List.perm_append_comm.trans (todoOf_perm hc).symm
  todo d hd := h.todo d (List.mem_of_mem_eraseP hd)
  completions := hcompl
  ended := h.ended

theorem Exchange.post (h : Exchange s) {p : Nat × Reply} (hp : s.writing = some p) {head : Nat}
    (hcompl : Completions { s with comprHead := head, posted := s.posted ++ [p], writing := none }) :
    Exchange { s with comprHead := head, posted := s.posted ++ [p], writing := none } where
  regular := h.regular
  entries := h.entries
  pub := h.pub
  answered := by
    refine .trans ?_ h.answered
    rw [hp]
    show (_ ++ [] ++ (s.posted ++ [p]).map Prod.fst).Perm (_ ++ [p.1] ++ _)
    rw [List.append_nil, List.append_assoc, List.map_append]
    exact List.perm_append_comm.append_left _
  todo := h.todo
  completions := hcompl
  ended := h.ended

theorem exchange_step {a : Label C} (h : Exchange s) (hs : step s a = some s') (hp : Proper s a s') :
    Exchange s' := by
  have hcompl := completions_step h.completions (fun _ hc => h.todo_lt hc) hs hp.apart
  cases step_cases hs with
  | queue l q ok hq => exact h.queue ok hq hp.lasts (hp.unwrapped l rfl) hcompl
  | fetch x r q q' hr hq hq' => exact h.fetch hr hq hq' hcompl
  | readCmd c more hc => exact h.readCmd more hc rfl hcompl
  | readPad more hc => exact h.readPad more hc rfl hcompl
  | reply tid result c hc free lt => exact h.reply hc free hcompl
  | post p hw room => exact h.post hw hcompl
  | _ => exact h.frame rfl rfl rfl rfl rfl rfl rfl rfl hcompl

end Ubbd.Service
