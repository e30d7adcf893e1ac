import UbbdKernel.Queue.Model

/-!
# What a step of the queue can do

`WkStep` and `ThStep` list the outcomes of the steps of requests and threads,
each with what the step found and the state it leaves (`stepWk_cases`,
`stepTh_cases`). The invariants are proved from these lists.
-/

namespace Ubbd.Queue

variable {C : Conf}

namespace State

theorem setRq_rqs (s : State C) (t u : C.Tag) (r : Rq C.pageSize) :
    (s.setRq t r).rqs u = if u = t then r else s.rqs u := by
  simp [setRq, Function.update_apply]

theorem setWk_rqs (s : State C) (t u : C.Tag) (w : Wk) :
    (s.setWk t w).rqs u = if u = t then { s.rqs t with wk := w } else s.rqs u :=
  setRq_rqs ..

/-- An update that leaves a field of the request alone. -/
theorem setRq_field {α : Type} (f : Rq C.pageSize → α) {s : State C} {t : C.Tag} {r : Rq C.pageSize}
    (h : f r = f (s.rqs t)) (u : C.Tag) : f ((s.setRq t r).rqs u) = f (s.rqs u) := by
  rw [setRq_rqs]
  split
  · rename_i hut
    rw [hut, h]
  · rfl

theorem setPc_threads (s : State C) (x y : Nat) (pc : Pc C) :
    (s.setPc x pc).threads y = if y = x then pc else s.threads y := by
  simp [setPc, Function.update_apply]

end State

/-- A start, of an operation the driver knows or of another one. -/
theorem startRq_eq (s : State C) (t : C.Tag) (r : Request C.pageSize) :
    ∃ op w, (w = Wk.queued ∨ w = .none) ∧
      startRq s t r = ({ s with pages := s.pages.setReq t Pages.Req.fresh } : State C).setRq t
        ⟨(s.rqs t).start + 1, r, op, 0, 0, 0, false, w⟩ := by
  unfold startRq
  split
  · exact ⟨_, _, .inl rfl, rfl⟩
  · exact ⟨_, _, .inr rfl, rfl⟩

/-- The outcomes of a step of the request `t`. -/
inductive WkStep (s : State C) (t : C.Tag) : WkLabel C → State C → Prop
  | refused (wk : (s.rqs t).wk = .none) : WkStep s t .rqRead s
  | rqRead (wk : (s.rqs t).wk = .none) (st : s.status = .running) :
      WkStep s t .rqRead (s.setWk t .starting)
  | rqStart (wk : (s.rqs t).wk = .starting) (r : Request C.pageSize) :
      WkStep s t (.rqStart r) (startRq s t r)
  | pass (wk : (s.rqs t).wk = .queued) (st : s.status = .running) :
      WkStep s t .status (s.setWk t .passed)
  | refuse (wk : (s.rqs t).wk = .queued) (e : Errno) : WkStep s t .status (s.setWk t (.failed e))
  | noPi (wk : (s.rqs t).wk = .passed) (cnt : Nat) :
      WkStep s t (.prepare false) (s.setRq t { s.rqs t with piCnt := cnt, wk := .failed .enomem })
  | noData (wk : (s.rqs t).wk = .passed) (piOk : Bool)
      (cnt : (s.rqs t).req.ubbdReqSegments (s.rqs t).op = 0) :
      WkStep s t (.prepare piOk) (s.setRq t { s.rqs t with piCnt := 0, wk := .prepared })
  | get (wk : (s.rqs t).wk = .passed) (piOk : Bool) (cnt : Nat) (pos : 0 < cnt) (p : Pages.State C.Tag)
      (hp : Pages.step s.pages (.get t cnt) = some p) :
      WkStep s t (.prepare piOk)
        { s.setRq t { s.rqs t with
            piCnt := cnt, heapPi := decide (cnt > inlinePiMax), wk := .pages } with pages := p }
  | gotPages (wk : (s.rqs t).wk = .pages) (pc : (s.pages.reqs t).pc = .ready) :
      WkStep s t .pages (s.setWk t .prepared)
  | noPages (wk : (s.rqs t).wk = .pages) (pc : (s.pages.reqs t).pc = .idle) :
      WkStep s t .pages (s.setRq t { s.rqs t with heapPi := false, wk := .failed .enomem })
  | insert (wk : (s.rqs t).wk = .prepared) (lock : s.inflightLock = none) :
      WkStep s t .insert { s.setWk t .inserted with inflight := s.inflight ++ [t] }
  | full (wk : (s.rqs t).wk = .inserted) : WkStep s t .submit (s.setWk t .full)
  | publish (wk : (s.rqs t).wk = .inserted) (ring : CmdRing) (se : Nat) :
      WkStep s t .submit
        { s.setRq t { s.rqs t with tid := inc64 s.reqTid, se := se, wk := .published } with
          ring := ring
          reqTid := inc64 s.reqTid
          pub := s.pub ++ [⟨inc64 s.reqTid, t, (s.rqs t).start⟩] }
  | remove (wk : (s.rqs t).wk = .full) (lock : s.inflightLock = none) :
      WkStep s t .remove
        { s.setWk t (.failed .enomem) with
          inflight := s.inflight.erase t
          tmp := fun x => (s.tmp x).erase t }
  | endRequest (e : Errno) (wk : (s.rqs t).wk = .failed e) :
      WkStep s t .endRequest
        { s.setWk t .none with
          log := s.log ++ [⟨t, (s.rqs t).start, if requeued e then .requeue else .error⟩] }

theorem stepWk_cases {s s' : State C} {t : C.Tag} {l : WkLabel C} (h : stepWk s t l = some s') :
    WkStep s t l s' := by
  cases l with
  | rqRead =>
    simp only [stepWk] at h
    split at h
    · rename_i wk st
      cases h
      exact .rqRead wk st
    · rename_i wk _
      cases h
      exact .refused wk
    · cases h
  | rqStart r =>
    simp only [stepWk] at h
    split at h <;> cases h
    rename_i wk
    exact .rqStart wk r
  | status =>
    simp only [stepWk] at h
    split at h
    · rename_i wk st
      cases h
      exact .pass wk st
    · rename_i wk _
      cases h
      exact .refuse wk _
    · rename_i wk _ _
      cases h
      exact .refuse wk _
    · cases h
  | prepare piOk =>
    simp only [stepWk, prepareRq] at h
    split at h <;> [skip; cases h]
    rename_i wk
    split at h
    · rename_i hpi
      cases h
      obtain rfl := hpi.2
      exact .noPi wk _
    · split at h
      · rename_i hcnt
        cases h
        rw [hcnt]
        exact .noData wk piOk hcnt
      · rename_i hcnt
        obtain ⟨p, hp, rfl⟩ := Option.map_eq_some_iff.mp h
        exact .get wk piOk _ (Nat.pos_of_ne_zero hcnt) p hp
  | pages =>
    simp only [stepWk] at h
    split at h
    · rename_i wk pc
      cases h
      exact .gotPages wk pc
    · rename_i wk pc
      cases h
      exact .noPages wk pc
    · cases h
  | insert =>
    simp only [stepWk] at h
    split at h <;> cases h
    rename_i hw
    exact .insert hw.1 hw.2
  | submit =>
    simp only [stepWk] at h
    split at h <;> [skip; cases h]
    rename_i wk
    rw [Option.some.injEq] at h
    subst h
    cases Ring.submit C.header s.ring (cmdOf s t) with
    | none => exact .full wk
    | some ring => exact .publish wk ring _
  | remove =>
    simp only [stepWk] at h
    split at h <;> cases h
    rename_i hw
    exact .remove hw.1 hw.2
  | endRequest =>
    simp only [stepWk] at h
    split at h <;> cases h
    rename_i e wk
    exact .endRequest e wk

/-- The outcomes of a step of the thread `x`. -/
inductive ThStep (s : State C) (x : Nat) : ThLabel → State C → Prop
  | back (l : ThLabel) (call : l.calls = true) (pc : s.threads x = .idle) : ThStep s x l s
  | stopRead (pc : s.threads x = .idle) (lock : s.stateLock = none) (st : s.status = .running) :
      ThStep s x .stopRead { s.setPc x .stopSet with stateLock := some x }
  | stopSet (pc : s.threads x = .stopSet) :
      ThStep s x .stopSet { s.setPc x .stopFlush with status := .stopping }
  | stopFlush (pc : s.threads x = .stopFlush) :
      ThStep s x .stopFlush (s.setPc x (.stopFlushing fun t => (s.rqs t).start))
  | stopFlushed (snap : C.Tag → Nat) (pc : s.threads x = .stopFlushing snap) (flushed : s.Flushed snap) :
      ThStep s x .stopFlushed (s.setPc x .stopFlushed)
  | stopFinal (pc : s.threads x = .stopFlushed) (lock : s.inflightLock = none) :
      ThStep s x .stopFinal
        { s.setPc x .idle with
          status := if s.inflight = [] then .stopped else s.status
          stateLock := none }
  | startRead (pc : s.threads x = .idle) (lock : s.stateLock = none)
      (st : s.status = .stopping ∨ s.status = .stopped) :
      ThStep s x .startRead { s.setPc x .startSet with stateLock := some x }
  | startSet (pc : s.threads x = .startSet) :
      ThStep s x .startSet { s.setPc x .idle with status := .running, stateLock := none }
  | remCheck (force : Bool) (pc : s.threads x = .idle) (closed : force = false → s.openCount = 0) :
      ThStep s x (.remCheck force) (s.setPc x (.remSet force))
  | remSet (force : Bool) (pc : s.threads x = .remSet force) (lock : s.stateLock = none) :
      ThStep s x .remSet { s.setPc x (.remFlush force) with status := .removing }
  | remFlush (force : Bool) (pc : s.threads x = .remFlush force) :
      ThStep s x .remFlush (s.setPc x (.remFlushing force fun t => (s.rqs t).start))
  | remFlushed (force : Bool) (snap : C.Tag → Nat) (pc : s.threads x = .remFlushing force snap)
      (flushed : s.Flushed snap) :
      ThStep s x .remFlushed (s.setPc x (if force then .remSplice else .removed false))
  | remSplice (pc : s.threads x = .remSplice) (lock : s.inflightLock = none) :
      ThStep s x .remSplice
        { s.setPc x .remNext with inflight := [], tmp := Function.update s.tmp x s.inflight }
  | remDone (pc : s.threads x = .remNext) (tmp : s.tmp x = []) :
      ThStep s x .remNext (s.setPc x (.removed true))
  | remNext (pc : s.threads x = .remNext) (t : C.Tag) (ts : List C.Tag) (tmp : s.tmp x = t :: ts) :
      ThStep s x .remNext { s.setPc x (.mark t .removal) with tmp := Function.update s.tmp x ts }
  | enter (pc : s.threads x = .idle) (st : s.status ≠ .removing) : ThStep s x .enter (s.setPc x .again)
  | take (tid : Nat) (pc : s.threads x = .again) : ThStep s x (.take tid) (s.setPc x (.took tid))
  | none (pc : s.threads x = .again) : ThStep s x .none (s.setPc x .idle)
  | miss (tid : Nat) (pc : s.threads x = .took tid) (lock : s.inflightLock = none)
      (absent : ∀ t ∈ s.inflight, (s.rqs t).tid ≠ tid) : ThStep s x .fetch (s.setPc x .again)
  | last (tid : Nat) (pc : s.threads x = .took tid) (lock : s.inflightLock = none) (t : C.Tag)
      (mem : t ∈ s.inflight) (tid_eq : (s.rqs t).tid = tid) (st : s.status = .stopping)
      (empty : s.inflight.erase t = []) :
      ThStep s x .fetch
        { s.setPc x (.setStopped t tid) with inflight := s.inflight.erase t, inflightLock := some x }
  | fetch (tid : Nat) (pc : s.threads x = .took tid) (lock : s.inflightLock = none) (t : C.Tag)
      (mem : t ∈ s.inflight) (tid_eq : (s.rqs t).tid = tid) :
      ThStep s x .fetch { s.setPc x (.mark t (.entry tid)) with inflight := s.inflight.erase t }
  | setStopped (t : C.Tag) (tid : Nat) (pc : s.threads x = .setStopped t tid) :
      ThStep s x .setStopped
        { s.setPc x (.mark t (.entry tid)) with status := .stopped, inflightLock := none }
  | mark (t : C.Tag) (by_ : By) (pc : s.threads x = .mark t by_) :
      ThStep s x .mark
        { s.setPc x (.release t by_) with
          ring := Ring.setDone C.header s.ring (s.rqs t).se
          pages := (Pages.step s.pages (.release t)).getD s.pages }
  | released (t : C.Tag) (by_ : By) (pc : s.threads x = .release t by_)
      (idle : (s.pages.reqs t).pc = .idle) :
      ThStep s x .released ((s.setRq t { s.rqs t with heapPi := false }).setPc x (.finish t by_))
  | finish (t : C.Tag) (by_ : By) (pc : s.threads x = .finish t by_) :
      ThStep s x .finish ((finishRq s t by_).setPc x (.advance by_))
  | advance (by_ : By) (pc : s.threads x = .advance by_) :
      ThStep s x .advance
        { s.setPc x by_.next with ring := Ring.advanceCmdRing C.header s.ring }

theorem fetchReq_cases {s : State C} {x tid : Nat} (pc : s.threads x = .took tid)
    (lock : s.inflightLock = none) : ThStep s x .fetch (fetchReq s x tid) := by
  unfold fetchReq
  split
  · rename_i hf
    refine .miss tid pc lock fun t ht htid => ?_
    have := List.find?_eq_none.mp hf t ht
    simp [htid] at this
  · rename_i t hf
    have hmem := List.mem_of_find?_eq_some hf
    have htid : (s.rqs t).tid = tid := by simpa using List.find?_some hf
    split
    · rename_i hst
      exact .last tid pc lock t hmem htid hst.1 hst.2
    · exact .fetch tid pc lock t hmem htid

theorem stepTh_cases {s s' : State C} {x : Nat} {l : ThLabel} (h : stepTh s x l = some s') :
    ThStep s x l s' := by
  cases l with
  | stopRead =>
    simp only [stepTh] at h
    split at h
    · rename_i pc lock st
      cases h
      exact .stopRead pc lock st
    · rename_i pc _ _
      cases h
      exact .back _ rfl pc
    · cases h
  | stopSet =>
    simp only [stepTh] at h
    split at h <;> cases h
    rename_i pc
    exact .stopSet pc
  | stopFlush =>
    simp only [stepTh] at h
    split at h <;> cases h
    rename_i pc
    exact .stopFlush pc
  | stopFlushed =>
    simp only [stepTh] at h
    split at h <;> [skip; cases h]
    rename_i snap pc
    split at h <;> cases h
    rename_i hf
    exact .stopFlushed snap pc hf
  | stopFinal =>
    simp only [stepTh] at h
    split at h <;> cases h
    rename_i pc lock
    exact .stopFinal pc lock
  | startRead =>
    simp only [stepTh] at h
    split at h
    · rename_i pc _ _
      cases h
      exact .back _ rfl pc
    · rename_i pc _ _
      cases h
      exact .back _ rfl pc
    · rename_i pc lock hr hm
      cases h
      refine .startRead pc lock ?_
      cases hst : s.status with
      | running => exact absurd hst hr
      | removing => exact absurd hst hm
      | stopping => exact .inl rfl
      | stopped => exact .inr rfl
    · cases h
  | startSet =>
    simp only [stepTh] at h
    split at h <;> cases h
    rename_i pc
    exact .startSet pc
  | remCheck force =>
    simp only [stepTh] at h
    split at h <;> [skip; cases h]
    rename_i pc
    split at h
    · cases h
      exact .back _ rfl pc
    · rename_i hopen
      cases h
      exact .remCheck force pc fun hf => by simpa [hf] using hopen
  | remSet =>
    simp only [stepTh] at h
    split at h <;> cases h
    rename_i force pc lock
    exact .remSet force pc lock
  | remFlush =>
    simp only [stepTh] at h
    split at h <;> cases h
    rename_i force pc
    exact .remFlush force pc
  | remFlushed =>
    simp only [stepTh] at h
    split at h <;> [skip; cases h]
    rename_i force snap pc
    split at h <;> cases h
    rename_i hf
    exact .remFlushed force snap pc hf
  | remSplice =>
    simp only [stepTh] at h
    split at h <;> cases h
    rename_i pc lock
    exact .remSplice pc lock
  | remNext =>
    simp only [stepTh] at h
    split at h
    · rename_i pc tmp
      cases h
      exact .remDone pc tmp
    · rename_i t ts pc tmp
      cases h
      exact .remNext pc t ts tmp
    · cases h
  | enter =>
    simp only [stepTh] at h
    split at h
    · rename_i pc _
      cases h
      exact .back _ rfl pc
    · rename_i pc st
      cases h
      exact .enter pc st
    · cases h
  | take tid =>
    simp only [stepTh] at h
    split at h <;> cases h
    rename_i pc
    exact .take tid pc
  | none =>
    simp only [stepTh] at h
    split at h <;> cases h
    rename_i pc
    exact .none pc
  | fetch =>
    simp only [stepTh] at h
    split at h <;> cases h
    rename_i tid pc lock
    exact fetchReq_cases pc lock
  | setStopped =>
    simp only [stepTh] at h
    split at h <;> cases h
    rename_i t tid pc
    exact .setStopped t tid pc
  | mark =>
    simp only [stepTh] at h
    split at h <;> cases h
    rename_i t by_ pc
    exact .mark t by_ pc
  | released =>
    simp only [stepTh] at h
    split at h <;> [skip; cases h]
    rename_i t by_ pc
    split at h <;> cases h
    rename_i idle
    exact .released t by_ pc idle
  | finish =>
    simp only [stepTh] at h
    split at h <;> cases h
    rename_i t by_ pc
    exact .finish t by_ pc
  | advance =>
    simp only [stepTh] at h
    split at h <;> cases h
    rename_i by_ pc
    exact .advance by_ pc

/-- The outcomes of a step of the queue. -/
inductive QStep (s : State C) : Label C → State C → Prop
  | rq {t : C.Tag} {l : WkLabel C} {s' : State C} (h : WkStep s t l s') : QStep s (.rq t l) s'
  | th {x : Nat} {l : ThLabel} {s' : State C} (h : ThStep s x l s') : QStep s (.th x l) s'
  | page (l : Pages.Label C.Tag) (hl : inside l = true) (p : Pages.State C.Tag)
      (h : Pages.step s.pages l = some p) : QStep s (.page l) { s with pages := p }
  | pad (pos : Nat) (ring : CmdRing) : QStep s (.pad pos) { s with ring := ring }
  | open_ : QStep s .open_ { s with openCount := s.openCount + 1 }
  | close : QStep s .close { s with openCount := s.openCount - 1 }

theorem step_cases {s s' : State C} {a : Label C} (h : step s a = some s') : QStep s a s' := by
  cases a with
  | rq t l => exact .rq (stepWk_cases h)
  | th x l => exact .th (stepTh_cases h)
  | page l =>
    simp only [step] at h
    split at h <;> [skip; cases h]
    rename_i hl
    obtain ⟨p, hp, rfl⟩ := Option.map_eq_some_iff.mp h
    exact .page l hl p hp
  | pad pos =>
    simp only [step] at h
    split at h <;> cases h
    exact .pad pos _
  | open_ =>
    cases h
    exact .open_
  | close =>
    simp only [step] at h
    split at h <;> cases h
    exact .close

/-- A step of a request leaves the status, the threads and the locks alone. -/
theorem WkStep.control {s s' : State C} {t : C.Tag} {l : WkLabel C} (h : WkStep s t l s') :
    s'.status = s.status ∧ s'.threads = s.threads ∧ s'.stateLock = s.stateLock ∧
      s'.inflightLock = s.inflightLock ∧ s'.openCount = s.openCount := by
  cases h with
  | rqStart wk r =>
    unfold startRq
    split <;> exact ⟨rfl, rfl, rfl, rfl, rfl⟩
  | _ => exact ⟨rfl, rfl, rfl, rfl, rfl⟩

/-- A step of a request leaves the private data of the others alone. -/
theorem WkStep.other {s s' : State C} {t : C.Tag} {l : WkLabel C} (h : WkStep s t l s') {u : C.Tag}
    (hu : u ≠ t) : s'.rqs u = s.rqs u := by
  cases h with
  | refused wk => rfl
  | rqStart wk r =>
    unfold startRq
    split <;> exact (State.setRq_rqs ..).trans (if_neg hu)
  | _ => exact (State.setRq_rqs ..).trans (if_neg hu)

/-- Where the worker of a request can go in one step, with the same start. -/
inductive WkTrans (st : QueueStatus) : Wk → Wk → Prop
  | refused (w : Wk) : WkTrans st w w
  | rqRead (h : st = .running) : WkTrans st .none .starting
  | pass (h : st = .running) : WkTrans st .queued .passed
  | refuse (e : Errno) : WkTrans st .queued (.failed e)
  | noPi : WkTrans st .passed (.failed .enomem)
  | noData : WkTrans st .passed .prepared
  | get : WkTrans st .passed .pages
  | gotPages : WkTrans st .pages .prepared
  | noPages : WkTrans st .pages (.failed .enomem)
  | insert : WkTrans st .prepared .inserted
  | full : WkTrans st .inserted .full
  | publish : WkTrans st .inserted .published
  | remove : WkTrans st .full (.failed .enomem)
  | endRequest (e : Errno) : WkTrans st (.failed e) .none

/-- A worker passes the status check only when it reads RUNNING. -/
theorem WkTrans.busy {st : QueueStatus} {w w' : Wk} (h : WkTrans st w w') (hw : w'.busy = true) :
    w.busy = true ∨ st = .running := by
  cases h with
  | pass h => exact .inr h
  | refused w => exact .inl hw
  | _ => first | exact .inl rfl | cases hw

theorem WkTrans.passing {st : QueueStatus} {w w' : Wk} (h : WkTrans st w w') (hw : w'.passing = true) :
    w.passing = true ∨ st = .running := by
  cases h with
  | pass h => exact .inr h
  | refused w => exact .inl hw
  | _ => first | exact .inl rfl | cases hw

/-- A step of a request moves its worker, or starts the request anew. -/
theorem WkStep.trans {s s' : State C} {t : C.Tag} {l : WkLabel C} (h : WkStep s t l s') :
    ((s'.rqs t).start = (s.rqs t).start ∧ WkTrans s.status (s.rqs t).wk (s'.rqs t).wk) ∨
      ((s.rqs t).wk = .starting ∧ (s'.rqs t).start = (s.rqs t).start + 1 ∧
        ((s'.rqs t).wk = .queued ∨ (s'.rqs t).wk = .none)) := by
  cases h with
  | refused wk => exact .inl ⟨rfl, .refused _⟩
  | rqStart wk r =>
    refine .inr ⟨wk, ?_⟩
    unfold startRq
    split <;> simp [State.setRq_rqs]
  | rqRead wk st => exact .inl (by simpa [State.setWk_rqs, wk] using .rqRead st)
  | pass wk st => exact .inl (by simpa [State.setWk_rqs, wk] using .pass st)
  | refuse wk e => exact .inl (by simpa [State.setWk_rqs, wk] using .refuse e)
  | noPi wk cnt => exact .inl (by simpa [State.setRq_rqs, wk] using .noPi)
  | noData wk piOk cnt => exact .inl (by simpa [State.setRq_rqs, wk] using .noData)
  | get wk piOk cnt pos p hp => exact .inl (by simpa [State.setRq_rqs, wk] using .get)
  | gotPages wk pc => exact .inl (by simpa [State.setWk_rqs, wk] using .gotPages)
  | noPages wk pc => exact .inl (by simpa [State.setRq_rqs, wk] using .noPages)
  | insert wk lock => exact .inl (by simpa [State.setWk_rqs, wk] using .insert)
  | full wk => exact .inl (by simpa [State.setWk_rqs, wk] using .full)
  | publish wk ring se => exact .inl (by simpa [State.setRq_rqs, wk] using .publish)
  | remove wk lock => exact .inl (by simpa [State.setWk_rqs, wk] using .remove)
  | endRequest e wk => exact .inl (by simpa [State.setWk_rqs, wk] using .endRequest e)

/-- Workers that are past the status check after a step of a request. -/
theorem WkStep.busy {s s' : State C} {t : C.Tag} {l : WkLabel C} (h : WkStep s t l s')
    (hst : s.status ≠ .running) {u : C.Tag} (hu : (s'.rqs u).wk.busy = true) :
    (s.rqs u).wk.busy = true ∧ (s'.rqs u).start = (s.rqs u).start := by
  by_cases hut : u = t
  · subst hut
    rcases h.trans with ⟨hstart, htr⟩ | ⟨-, -, hw⟩
    · exact ⟨(htr.busy hu).resolve_right hst, hstart⟩
    · rcases hw with hw | hw <;> rw [hw] at hu <;> cases hu
  · rw [h.other hut] at hu ⊢
    exact ⟨hu, rfl⟩

theorem WkStep.passing {s s' : State C} {t : C.Tag} {l : WkLabel C} (h : WkStep s t l s')
    (hst : s.status ≠ .running) {u : C.Tag} (hu : (s'.rqs u).wk.passing = true) :
    (s.rqs u).wk.passing = true ∧ (s'.rqs u).start = (s.rqs u).start := by
  by_cases hut : u = t
  · subst hut
    rcases h.trans with ⟨hstart, htr⟩ | ⟨-, -, hw⟩
    · exact ⟨(htr.passing hu).resolve_right hst, hstart⟩
    · rcases hw with hw | hw <;> rw [hw] at hu <;> cases hu
  · rw [h.other hut] at hu ⊢
    exact ⟨hu, rfl⟩

/-- A step of a request puts a request on the list only from `prepared`, with
the list's lock free. -/
theorem WkStep.inflight {s s' : State C} {t : C.Tag} {l : WkLabel C} (h : WkStep s t l s') :
    (∀ u ∈ s'.inflight, u ∈ s.inflight) ∨
      ((s.rqs t).wk = .prepared ∧ s.inflightLock = none ∧ s'.inflight = s.inflight ++ [t]) := by
  cases h with
  | rqStart wk r =>
    unfold startRq
    split <;> exact .inl fun _ h => h
  | insert wk lock => exact .inr ⟨wk, lock, rfl⟩
  | remove wk lock => exact .inl fun _ h => List.mem_of_mem_erase h
  | _ => exact .inl fun _ h => h

/-- A step of a thread leaves the workers alone, but for the end of a
published request. -/
theorem ThStep.wk {s s' : State C} {x : Nat} {l : ThLabel} (h : ThStep s x l s') (u : C.Tag) :
    (s'.rqs u).start = (s.rqs u).start ∧
      ((s'.rqs u).wk = (s.rqs u).wk ∨ ((s.rqs u).wk = .published ∧ (s'.rqs u).wk = .none)) := by
  cases h with
  | released t by_ pc idle =>
    by_cases hu : u = t
    · simp [State.setPc, State.setRq_rqs, hu]
    · simp [State.setPc, State.setRq_rqs, hu]
  | finish t by_ pc =>
    by_cases hu : u = t
    · by_cases hw : (s.rqs t).wk = .published
      · simp [State.setPc, finishRq, State.setWk_rqs, hu, hw]
      · simp [State.setPc, finishRq, State.setWk_rqs, hu, hw]
    · simp [State.setPc, finishRq, State.setWk_rqs, hu]
  | _ => exact ⟨rfl, .inl rfl⟩

theorem ThStep.busy {s s' : State C} {x : Nat} {l : ThLabel} (h : ThStep s x l s') (u : C.Tag) :
    (s'.rqs u).wk.busy = (s.rqs u).wk.busy ∧ (s'.rqs u).wk.passing = (s.rqs u).wk.passing ∧
      (s'.rqs u).start = (s.rqs u).start := by
  obtain ⟨hstart, hw | ⟨hw, hw'⟩⟩ := h.wk u
  · rw [hw]
    exact ⟨rfl, rfl, hstart⟩
  · rw [hw, hw']
    exact ⟨rfl, rfl, hstart⟩

/-- Threads only take requests off the list. -/
theorem ThStep.inflight {s s' : State C} {x : Nat} {l : ThLabel} (h : ThStep s x l s') :
    ∀ u ∈ s'.inflight, u ∈ s.inflight := by
  cases h with
  | remSplice pc lock => exact fun _ h => nomatch h
  | last tid pc lock t mem tid_eq st empty => exact fun _ h => List.mem_of_mem_erase h
  | fetch tid pc lock t mem tid_eq => exact fun _ h => List.mem_of_mem_erase h
  | _ => exact fun _ h => h

/-- A property of all threads, after the thread `x` has moved. -/
theorem forall_setPc {P : Nat → Pc C → Prop} {s : State C} {x : Nat} {pc : Pc C} (hx : P x pc)
    (h : ∀ y, y ≠ x → P y (s.threads y)) (y : Nat) : P y ((s.setPc x pc).threads y) := by
  rw [State.setPc_threads]
  split
  · rename_i hy
    rw [hy]
    exact hx
  · rename_i hy
    exact h y hy

end Ubbd.Queue
