import UbbdKernel.Queue.Step

/-!
# The status of a queue

`queue_stop`, `queue_start` and `ubbd_dev_remove_queues` set the status under
`state_lock`. `fetch_inflight_req` reads STOPPING and sets STOPPED under
another lock. In between, a start or a removal may set the status, and the
completion then overwrites what they set. `Held` says what a thread may rely
on in any run; as long as no start or removal sets the status while a
completion is in between (`Undisturbed`), every change of the status is a
lawful one (`status_lawful`).
-/

namespace Ubbd.Queue

variable {C : Conf}

/-- What a thread may rely on: the lock it holds, and, once `queue_stop` has
set STOPPING, a status that is not RUNNING or REMOVING. -/
def Held (st : QueueStatus) (sl il : Option Nat) (x : Nat) : Pc C → Prop
  | .stopSet | .startSet => sl = some x
  | .stopFlush | .stopFlushing _ | .stopFlushed => sl = some x ∧ (st = .stopping ∨ st = .stopped)
  | .setStopped _ _ => il = some x
  | _ => True

namespace Held

variable {st st' : QueueStatus} {sl il : Option Nat} {x y : Nat} {pc : Pc C}

/-- Nobody relies on the status while `state_lock` is free. -/
theorem of_free (h : Held st none il y pc) : Held st' sl il y pc := by
  cases pc <;> simp_all [Held]

/-- Nobody but the holder relies on `state_lock` and on the status. -/
theorem of_other (h : Held st (some x) il y pc) (hy : y ≠ x) : Held st' sl il y pc := by
  cases pc <;> simp_all [Held]

theorem of_inflight_free (h : Held st sl none y pc) : Held st sl il y pc := by
  cases pc <;> simp_all [Held]

/-- STOPPED keeps what the others rely on. -/
theorem of_stopped (h : Held st sl (some x) y pc) (hy : y ≠ x) : Held .stopped sl il y pc := by
  cases pc <;> simp_all [Held]

end Held

/-- All threads may rely on what `Held` says. -/
def HeldAll (s : State C) : Prop := ∀ x, Held s.status s.stateLock s.inflightLock x (s.threads x)

theorem heldAll_init (n r : Nat) : HeldAll (initState C n r) := fun _ => trivial

/-- A thread that moves without touching the status or a lock. -/
theorem HeldAll.move {s : State C} (h : HeldAll s) {x : Nat} {pc : Pc C}
    (hx : Held s.status s.stateLock s.inflightLock x (s.threads x) →
      Held s.status s.stateLock s.inflightLock x pc) (y : Nat) :
    Held s.status s.stateLock s.inflightLock y ((s.setPc x pc).threads y) :=
  forall_setPc (P := Held s.status s.stateLock s.inflightLock) (hx (h x)) (fun y _ => h y) y

theorem heldAll_thStep {s s' : State C} {x : Nat} {l : ThLabel} (h : HeldAll s) (hs : ThStep s x l s') :
    HeldAll s' := by
  have hx := h x
  cases hs with
  | back l call pc => exact h
  | stopRead pc lock st =>
    unfold HeldAll at h
    rw [lock] at h
    exact forall_setPc (P := Held s.status (some x) s.inflightLock) rfl fun y _ => (h y).of_free
  | stopSet pc =>
    rw [pc] at hx
    refine forall_setPc (P := Held .stopping s.stateLock s.inflightLock) ⟨hx, .inl rfl⟩ fun y hy => ?_
    exact Held.of_other (by rw [← show s.stateLock = some x from hx]; exact h y) hy
  | stopFlush pc =>
    refine h.move fun hx => ?_
    rw [pc] at hx
    exact hx
  | stopFlushed snap pc flushed =>
    refine h.move fun hx => ?_
    rw [pc] at hx
    exact hx
  | stopFinal pc lock =>
    rw [pc] at hx
    refine forall_setPc (P := Held _ none s.inflightLock) trivial fun y hy => ?_
    exact Held.of_other (by rw [← show s.stateLock = some x from hx.1]; exact h y) hy
  | startRead pc lock st =>
    unfold HeldAll at h
    rw [lock] at h
    exact forall_setPc (P := Held s.status (some x) s.inflightLock) rfl fun y _ => (h y).of_free
  | startSet pc =>
    rw [pc] at hx
    refine forall_setPc (P := Held .running none s.inflightLock) trivial fun y hy => ?_
    exact Held.of_other (by rw [← show s.stateLock = some x from hx]; exact h y) hy
  | remSet force pc lock =>
    refine forall_setPc (P := Held .removing s.stateLock s.inflightLock) trivial fun y _ => ?_
    exact Held.of_free (by rw [← lock]; exact h y)
  | last tid pc lock t mem tid_eq st empty =>
    unfold HeldAll at h
    rw [lock] at h
    exact forall_setPc (P := Held s.status s.stateLock (some x)) rfl fun y _ => (h y).of_inflight_free
  | setStopped t tid pc =>
    rw [pc] at hx
    refine forall_setPc (P := Held .stopped s.stateLock none) trivial fun y hy => ?_
    exact Held.of_stopped (by rw [← show s.inflightLock = some x from hx]; exact h y) hy
  | remFlushed force snap pc flushed =>
    refine h.move fun _ => ?_
    cases force <;> exact trivial
  | advance by_ pc =>
    refine h.move fun _ => ?_
    cases by_ <;> exact trivial
  | _ => exact h.move fun _ => trivial

theorem heldAll_step {s s' : State C} {a : Label C} (h : HeldAll s) (hs : step s a = some s') :
    HeldAll s' := by
  cases step_cases hs with
  | rq hw =>
    obtain ⟨h₁, h₂, h₃, h₄, -⟩ := hw.control
    unfold HeldAll
    rw [h₁, h₂, h₃, h₄]
    exact h
  | th ht => exact heldAll_thStep h ht
  | _ => exact h

/-! ## The law of the status -/

/-- The changes of the status that are meant to happen. -/
def Lawful (st st' : QueueStatus) : Prop :=
  st' = st ∨ (st = .running ∧ st' = .stopping) ∨ (st = .stopping ∧ st' = .stopped) ∨
    (st = .stopping ∧ st' = .running) ∨ (st = .stopped ∧ st' = .running) ∨ st' = .removing

instance (st st' : QueueStatus) : Decidable (Lawful st st') := by unfold Lawful; infer_instance

/-- Every step that can be taken in `s` changes the status lawfully. -/
def LawfulFrom (s : State C) : Prop := ∀ a s', step s a = some s' → Lawful s.status s'.status

/-- No start and no removal sets the status while a completion is between its
read of STOPPING and its store of STOPPED. -/
def Undisturbed (s : State C) : Label C → Prop
  | .th _ .startSet | .th _ .remSet => ∀ y t tid, s.threads y ≠ .setStopped t tid
  | _ => True

/-- What a thread has read of the status is still so. -/
def Read (st : QueueStatus) : Pc C → Prop
  | .stopSet => st = .running
  | .startSet => st = .stopping ∨ st = .stopped
  | .setStopped _ _ => st = .stopping
  | _ => True

def ReadAll (s : State C) : Prop := ∀ x, Read s.status (s.threads x)

theorem readAll_init (n r : Nat) : ReadAll (initState C n r) := fun _ => trivial

/-- A thread that relies neither on `state_lock` nor on the list's lock has
read nothing it still uses. -/
theorem Read.of_unheld {st st' : QueueStatus} {pc : Pc C} {y : Nat} {sl il : Option Nat}
    (h : Held st sl il y pc) (hs : sl ≠ some y) (hi : il ≠ some y) : Read st' pc := by
  cases pc <;> simp_all [Held, Read]

theorem Read.of_other {st st' : QueueStatus} {pc : Pc C} {x y : Nat} {il : Option Nat}
    (h : Held st (some x) il y pc) (hy : y ≠ x) (hpc : ∀ t tid, pc ≠ .setStopped t tid) : Read st' pc := by
  cases pc <;> simp_all [Held, Read]

theorem readAll_thStep {s s' : State C} {x : Nat} {l : ThLabel} (hh : HeldAll s) (h : ReadAll s)
    (hs : ThStep s x l s') (hu : Undisturbed s (.th x l)) : ReadAll s' := by
  have hx := h x
  have hhx := hh x
  cases hs with
  | back l call pc => exact h
  | stopRead pc lock st => exact forall_setPc (P := fun _ => Read s.status) st fun y _ => h y
  | stopSet pc =>
    rw [pc] at hx hhx
    refine forall_setPc (P := fun _ => Read .stopping) trivial fun y hy => ?_
    refine Read.of_other (by rw [← show s.stateLock = some x from hhx]; exact hh y) hy fun t tid hpc => ?_
    -- a completion in between has read STOPPING, this thread RUNNING
    have hy := h y
    rw [hpc] at hy
    rw [show s.status = .running from hx] at hy
    cases hy
  | stopFinal pc lock =>
    rw [pc] at hhx
    refine forall_setPc (P := fun _ => Read _) trivial fun y hy => ?_
    refine Read.of_unheld (hh y) ?_ (by rw [lock]; exact nofun)
    rw [hhx.1]
    exact fun he => hy (Option.some.inj he).symm
  | startRead pc lock st => exact forall_setPc (P := fun _ => Read s.status) st fun y _ => h y
  | startSet pc =>
    rw [pc] at hhx
    refine forall_setPc (P := fun _ => Read .running) trivial fun y hy => ?_
    exact Read.of_other (by rw [← show s.stateLock = some x from hhx]; exact hh y) hy (hu y)
  | remSet force pc lock =>
    refine forall_setPc (P := fun _ => Read .removing) trivial fun y hy => ?_
    have hhy := hh y
    have huy := hu y
    rw [lock] at hhy
    cases hpc : s.threads y <;> simp_all [Held, Read]
  | last tid pc lock t mem tid_eq st empty =>
    exact forall_setPc (P := fun _ => Read s.status) st fun y _ => h y
  | setStopped t tid pc =>
    rw [pc] at hx hhx
    refine forall_setPc (P := fun _ => Read .stopped) trivial fun y hy => ?_
    have hhy := hh y
    have hry := h y
    rw [show s.inflightLock = some x from hhx] at hhy
    rw [show s.status = .stopping from hx] at hry
    cases hpc : s.threads y <;> simp_all [Held, Read]
  | remFlushed force snap pc flushed =>
    refine forall_setPc (P := fun _ => Read s.status) ?_ fun y _ => h y
    cases force <;> exact trivial
  | advance by_ pc =>
    refine forall_setPc (P := fun _ => Read s.status) ?_ fun y _ => h y
    cases by_ <;> exact trivial
  | _ => exact forall_setPc (P := fun _ => Read s.status) trivial fun y _ => h y

theorem readAll_step {s s' : State C} {a : Label C} (hh : HeldAll s) (h : ReadAll s)
    (hs : step s a = some s') (hu : Undisturbed s a) : ReadAll s' := by
  cases step_cases hs with
  | rq hw =>
    obtain ⟨h₁, h₂, -⟩ := hw.control
    unfold ReadAll
    rw [h₁, h₂]
    exact h
  | th ht => exact readAll_thStep hh h ht hu
  | _ => exact h

/-- Whoever changes the status finds it as it was read. -/
theorem lawful_thStep {s s' : State C} {x : Nat} {l : ThLabel} (hh : HeldAll s) (h : ReadAll s)
    (hs : ThStep s x l s') : Lawful s.status s'.status := by
  have hx := h x
  have hhx := hh x
  cases hs with
  | stopSet pc =>
    rw [pc] at hx
    exact .inr (.inl ⟨hx, rfl⟩)
  | stopFinal pc lock =>
    rw [pc] at hhx
    show Lawful s.status (if s.inflight = [] then .stopped else s.status)
    split
    · rcases hhx.2 with hst | hst
      · exact .inr (.inr (.inl ⟨hst, rfl⟩))
      · exact .inl hst.symm
    · exact .inl rfl
  | startSet pc =>
    rw [pc] at hx
    rcases hx with hst | hst
    · exact .inr (.inr (.inr (.inl ⟨hst, rfl⟩)))
    · exact .inr (.inr (.inr (.inr (.inl ⟨hst, rfl⟩))))
  | remSet force pc lock => exact .inr (.inr (.inr (.inr (.inr rfl))))
  | setStopped t tid pc =>
    rw [pc] at hx
    exact .inr (.inr (.inl ⟨hx, rfl⟩))
  | _ => exact .inl rfl

theorem lawfulFrom_of_read {s : State C} (hh : HeldAll s) (h : ReadAll s) : LawfulFrom s := by
  intro a s' hs
  cases step_cases hs with
  | rq hw => exact .inl hw.control.1
  | th ht => exact lawful_thStep hh h ht
  | _ => exact .inl rfl

/-- A completion in between, in a state that is no longer STOPPING, is about
to change the status against the law. -/
theorem not_lawfulFrom {s : State C} (y : Nat) (t : C.Tag) (tid : Nat) (hy : s.threads y = .setStopped t tid)
    (hst : s.status = .running ∨ s.status = .removing) : ¬ LawfulFrom s := by
  intro h
  have hs : step s (.th y .setStopped) =
      some { s.setPc y (.mark t (.entry tid)) with status := .stopped, inflightLock := none } := by
    simp only [step, stepTh, hy]
  have hl : Lawful s.status .stopped := h _ _ hs
  rcases hst with hst | hst <;> rw [hst] at hl <;> exact absurd hl (by decide)

theorem not_lawfulFrom_of_disturbed {s s' : State C} {a : Label C} (hs : step s a = some s')
    (hu : ¬ Undisturbed s a) : ¬ LawfulFrom s' := by
  cases step_cases hs with
  | th ht =>
    rename_i x l
    cases ht with
    | startSet pc =>
      simp only [Undisturbed, ne_eq, not_forall, not_not] at hu
      obtain ⟨y, t, tid, hy⟩ := hu
      have hne : y ≠ x := fun he => by rw [he, pc] at hy; cases hy
      refine not_lawfulFrom y t tid ?_ (.inl rfl)
      show (s.setPc x .idle).threads y = _
      rw [State.setPc_threads, if_neg hne]
      exact hy
    | remSet force pc lock =>
      simp only [Undisturbed, ne_eq, not_forall, not_not] at hu
      obtain ⟨y, t, tid, hy⟩ := hu
      have hne : y ≠ x := fun he => by rw [he, pc] at hy; cases hy
      refine not_lawfulFrom y t tid ?_ (.inr rfl)
      show (s.setPc x (.remFlush force)).threads y = _
      rw [State.setPc_threads, if_neg hne]
      exact hy
    | back l call pc =>
      cases l with
      | startSet => cases call
      | remSet => cases call
      | _ => exact absurd trivial hu
    | _ => exact absurd trivial hu
  | _ => exact absurd trivial hu

/-- In a run of any number of threads, all changes of the status that can be
made in its states are lawful exactly when no start and no removal sets the
status while a completion is between its read of STOPPING and its store of
STOPPED. -/
theorem status_lawful_iff (C : Conf) (n r : Nat) (as : List (Label C)) :
    (lts C).States LawfulFrom (initState C n r) as ↔
      (lts C).Steps (fun s a _ => Undisturbed s a) (initState C n r) as :=
  Lts.states_iff_steps (I := fun s => HeldAll s ∧ ReadAll s) (fun _ h => lawfulFrom_of_read h.1 h.2)
    (fun _ _ _ h hs hu => ⟨heldAll_step h.1 hs, readAll_step h.1 h.2 hs hu⟩)
    (fun _ _ _ _ hs hu => not_lawfulFrom_of_disturbed hs hu) ⟨heldAll_init n r, readAll_init n r⟩ as

/-- A forced removal sets REMOVING while a completion has read STOPPING; the
completion then sets STOPPED. -/
theorem removing_overwritten :
    ∃ s s', (lts (sampleConf 1)).exec (initState (sampleConf 1) 8 6) (publishFlush ⟨0, by decide⟩ ++
        [.th 0 .stopRead, .th 0 .stopSet, .th 0 .stopFlush, .th 0 .stopFlushed, .th 0 .stopFinal,
          .th 1 .enter, .th 1 (.take 1), .th 1 .fetch, .th 2 (.remCheck true), .th 2 .remSet]) = some s ∧
      step s (.th 1 .setStopped) = some s' ∧ s.status = .removing ∧ s'.status = .stopped ∧
      ¬ Lawful s.status s'.status := by
  refine ⟨_, _, rfl, rfl, rfl, rfl, by decide⟩

end Ubbd.Queue
