import UbbdKernel.Queue.Status

/-!
# A stopped queue is drained

`queue_stop` waits for the workers that passed the status check before it
looks at `inflight_reqs`. `fetch_inflight_req` does not: when a completion
takes the last request off the list, it sets STOPPED even if a worker has
passed the check and is yet to put its request on the list. That is the only
way a queue becomes STOPPED without being drained (`drained_iff`).
-/

namespace Ubbd.Queue

variable {C : Conf}

/-- A STOPPED queue has no request in flight, and no worker that passed the
status check will put one on the list. -/
def Drained (s : State C) : Prop :=
  s.status = .stopped → s.inflight = [] ∧ ∀ t, (s.rqs t).wk.passing = false

/-- `fetch_inflight_req` sets STOPPED only when no worker that passed the
status check is yet to put its request on the list. -/
def StopsDrained (s : State C) : Label C → Prop
  | .th _ .setStopped => ∀ t, (s.rqs t).wk.passing = false
  | _ => True

/-- What `queue_stop` has waited for, and what a completion that is about to
set STOPPED has found. -/
def Waited (s : State C) : Pc C → Prop
  | .stopFlushing snap => ∀ t, (s.rqs t).wk.passing = true → (s.rqs t).start ≤ snap t
  | .stopFlushed => ∀ t, (s.rqs t).wk.passing = false
  | .setStopped _ _ => s.inflight = []
  | _ => True

def WaitedAll (s : State C) : Prop := ∀ x, Waited s (s.threads x)

theorem eq_nil_of_forall_mem {α : Type} {l l' : List α} (h : ∀ u ∈ l', u ∈ l) (hl : l = []) : l' = [] := by
  subst hl
  exact List.eq_nil_iff_forall_not_mem.mpr fun u hu => nomatch h u hu

theorem eq_false_of_imp {a b : Bool} (h : a = true → b = true) (hb : b = false) : a = false := by
  cases a
  · rfl
  · rw [h rfl] at hb
    cases hb

/-- Steps of requests keep what the threads have waited for: the thread that
flushes has set STOPPING, and the list's lock is held while it is empty. -/
theorem waited_wkStep {s s' : State C} {t : C.Tag} {l : WkLabel C} (hh : HeldAll s) (h : WaitedAll s)
    (hs : WkStep s t l s') : WaitedAll s' := by
  intro x
  have hhx := hh x
  have hx := h x
  rw [hs.control.2.1]
  cases hpc : s.threads x with
  | stopFlushing snap =>
    rw [hpc] at hhx hx
    have hst : s.status ≠ .running := by rcases hhx.2 with h | h <;> rw [h] <;> exact nofun
    intro u hu
    obtain ⟨hp, hstart⟩ := hs.passing hst hu
    rw [hstart]
    exact hx u hp
  | stopFlushed =>
    rw [hpc] at hhx hx
    have hst : s.status ≠ .running := by rcases hhx.2 with h | h <;> rw [h] <;> exact nofun
    exact fun u => eq_false_of_imp (fun hu => (hs.passing hst hu).1) (hx u)
  | setStopped t' tid =>
    rw [hpc] at hhx hx
    rcases hs.inflight with hin | ⟨-, hlock, -⟩
    · exact eq_nil_of_forall_mem hin hx
    · rw [show s.inflightLock = some x from hhx] at hlock
      cases hlock
  | _ => exact trivial

/-- A step of a thread keeps what the others have waited for. -/
theorem Waited.frame {s s' : State C} {x : Nat} {l : ThLabel} (hs : ThStep s x l s') {pc : Pc C}
    (h : Waited s pc) : Waited s' pc := by
  cases pc with
  | stopFlushing snap =>
    intro u hu
    rw [(hs.busy u).2.1] at hu
    rw [(hs.busy u).2.2]
    exact h u hu
  | stopFlushed => exact fun u => (hs.busy u).2.1.trans (h u)
  | setStopped t' tid => exact eq_nil_of_forall_mem hs.inflight h
  | _ => exact trivial

theorem waited_thStep {s s' : State C} {x : Nat} {l : ThLabel} (h : WaitedAll s) (hs : ThStep s x l s') :
    WaitedAll s' := by
  have hothers : ∀ y, y ≠ x → Waited s' (s.threads y) := fun y _ => (h y).frame hs
  cases hs with
  | back l call pc => exact h
  | stopFlush pc =>
    exact forall_setPc (P := fun _ => Waited _) (fun _ _ => Nat.le_refl _) hothers
  | stopFlushed snap pc flushed =>
    refine forall_setPc (P := fun _ => Waited _) (fun t => ?_) hothers
    have hx := h x
    rw [pc] at hx
    -- a worker that passed the check before the flush is no longer running
    refine eq_false_of_imp (b := false) (fun hp => ?_) rfl
    have hactive : (s.rqs t).wk.active = true := by
      revert hp
      show (s.rqs t).wk.passing = true → _
      cases (s.rqs t).wk <;> first | exact fun _ => rfl | exact fun h => h
    exact absurd (flushed t hactive) (Nat.not_lt.mpr (hx t hp))
  | last tid pc lock t mem tid_eq st empty =>
    exact forall_setPc (P := fun _ => Waited _) empty hothers
  | remFlushed force snap pc flushed =>
    refine forall_setPc (P := fun _ => Waited _) ?_ hothers
    cases force <;> exact trivial
  | advance by_ pc =>
    refine forall_setPc (P := fun _ => Waited _) ?_ hothers
    cases by_ <;> exact trivial
  | _ => exact forall_setPc (P := fun _ => Waited _) trivial hothers

theorem waited_step {s s' : State C} {a : Label C} (hh : HeldAll s) (h : WaitedAll s)
    (hs : step s a = some s') : WaitedAll s' := by
  cases step_cases hs with
  | rq hw => exact waited_wkStep hh h hw
  | th ht => exact waited_thStep h ht
  | _ => exact h

theorem drained_wkStep {s s' : State C} {t : C.Tag} {l : WkLabel C} (h : Drained s) (hs : WkStep s t l s') :
    Drained s' := by
  intro hst
  rw [hs.control.1] at hst
  obtain ⟨hin, hpass⟩ := h hst
  refine ⟨?_, fun u => eq_false_of_imp (fun hu => (hs.passing (by rw [hst]; exact nofun) hu).1) (hpass u)⟩
  rcases hs.inflight with hsub | ⟨hw, -, -⟩
  · exact eq_nil_of_forall_mem hsub hin
  · have := hpass t
    rw [hw] at this
    cases this

/-- A step of a thread that does not set STOPPED. -/
theorem Drained.frame {s s' : State C} {x : Nat} {l : ThLabel} (h : Drained s) (hs : ThStep s x l s')
    (hst : s'.status = .stopped → s.status = .stopped) : Drained s' := by
  intro hst'
  obtain ⟨hin, hpass⟩ := h (hst hst')
  exact ⟨eq_nil_of_forall_mem hs.inflight hin, fun u => (hs.busy u).2.1.trans (hpass u)⟩

theorem drained_thStep {s s' : State C} {x : Nat} {l : ThLabel} (hw : WaitedAll s) (h : Drained s)
    (hs : ThStep s x l s') (hd : StopsDrained s (.th x l)) : Drained s' := by
  have hx := hw x
  have hframe := h.frame hs
  cases hs with
  | stopSet pc => exact fun hst => nomatch hst
  | startSet pc => exact fun hst => nomatch hst
  | remSet force pc lock => exact fun hst => nomatch hst
  | stopFinal pc lock =>
    rw [pc] at hx
    by_cases hin : s.inflight = []
    · exact fun _ => ⟨hin, hx⟩
    · refine hframe fun hst => ?_
      rwa [if_neg hin] at hst
  | setStopped t tid pc =>
    rw [pc] at hx
    exact fun _ => ⟨hx, hd⟩
  | _ => exact hframe fun hst => hst

theorem drained_step {s s' : State C} {a : Label C} (hw : WaitedAll s) (h : Drained s)
    (hs : step s a = some s') (hd : StopsDrained s a) : Drained s' := by
  cases step_cases hs with
  | rq hr => exact drained_wkStep h hr
  | th ht => exact drained_thStep hw h ht hd
  | _ => exact h

theorem not_drained {s s' : State C} {a : Label C} (hs : step s a = some s') (hd : ¬ StopsDrained s a) :
    ¬ Drained s' := by
  cases step_cases hs with
  | th ht =>
    rename_i x l
    cases ht with
    | setStopped t tid pc => exact fun h => hd (h rfl).2
    | back l call pc =>
      cases l with
      | setStopped => cases call
      | _ => exact absurd trivial hd
    | _ => exact absurd trivial hd
  | _ => exact absurd trivial hd

/-- In a run of any number of requests and threads, a STOPPED queue is always
drained exactly when `fetch_inflight_req` sets STOPPED only while no worker
that passed the status check is yet to put its request on the list. -/
theorem drained_iff (C : Conf) (n r : Nat) (as : List (Label C)) :
    (lts C).States Drained (initState C n r) as ↔
      (lts C).Steps (fun s a _ => StopsDrained s a) (initState C n r) as := by
  refine Lts.states_iff_steps (I := fun s => HeldAll s ∧ WaitedAll s ∧ Drained s) (fun _ h => h.2.2)
    (fun s a s' h hs hd => ?_) (fun _ _ _ _ hs hd => not_drained hs hd) ?_ as
  · exact ⟨heldAll_step h.1 hs, waited_step h.1 h.2.1 hs, drained_step h.2.1 h.2.2 hs hd⟩
  · exact ⟨heldAll_init n r, fun _ => trivial, fun hst => nomatch hst⟩

/-- Request 0 is in flight, and the worker of request 1 has passed the status
check, when the queue is stopped. The completion of request 0 sets STOPPED
during the flush, and request 1 joins the list of a STOPPED queue. -/
theorem stopped_not_drained :
    ∃ s, (lts (sampleConf 2)).exec (initState (sampleConf 2) 8 6) (publishFlush ⟨0, by decide⟩ ++
        [.rq ⟨1, by decide⟩ .rqRead, .rq ⟨1, by decide⟩ (.rqStart (flushReq _)), .rq ⟨1, by decide⟩ .status,
          .th 0 .stopRead, .th 0 .stopSet, .th 0 .stopFlush,
          .th 1 .enter, .th 1 (.take 1), .th 1 .fetch, .th 1 .setStopped,
          .rq ⟨1, by decide⟩ (.prepare true), .rq ⟨1, by decide⟩ .insert]) = some s ∧
      s.status = .stopped ∧ s.inflight = [⟨1, by decide⟩] ∧ ¬ Drained s := by
  refine ⟨_, rfl, rfl, rfl, fun h => ?_⟩
  exact absurd (h rfl).1 (by decide)

end Ubbd.Queue
