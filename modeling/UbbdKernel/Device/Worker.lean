import Mathlib.Logic.Function.Basic
import Mathlib.Tactic.Common
import UbbdKernel.Basic

/-!
# The add-disk worker

A device has one work item. `ubbd_dev_add_disk` initialises and queues it for
every command it accepts, and the workqueue runs `ubbd_add_disk_fn` for it:
`queue_work` on a pending item queues nothing, and the item does not run twice
at a time. Runs have numbers; the number of a run is that with which the item
was queued for it.
-/

namespace Ubbd.Device

/-- Where a run of `ubbd_add_disk_fn` has got to. -/
inductive Run
  | none
  /-- It is queued, or short of its first section. -/
  | queued
  /-- It read PREPARED and set INTRANS; `ubbd_add_disk` is to run. -/
  | adding
  /-- `ubbd_add_disk` returned; INTRANS is still set. -/
  | added (diskRunning : Bool)
  /-- It read another status, and goes on to `out`. -/
  | refused
  /-- It is past `out`, to drop the reference of its command. -/
  | putting
  deriving DecidableEq

/-- The run is between its setting and its clearing of INTRANS. -/
def Run.inWindow : Run → Bool
  | .adding | .added _ => true
  | _ => false

/-- `ubbd_dev->work`, with what the worker reads and writes of the device. -/
structure Worker where
  status : DevStatus
  /-- `UBBD_DEV_STATUS_FLAG_INTRANS`. -/
  intrans : Bool
  runs : Nat → Run
  /-- The run that the item is pending for. -/
  pending : Option Nat
  /-- The run that has started and not returned. -/
  current : Option Nat

def initWorker : Worker where
  status := .init
  intrans := false
  runs := fun _ => .none
  pending := .none
  current := .none

namespace Worker

def setRun (w : Worker) (i : Nat) (r : Run) : Worker := { w with runs := Function.update w.runs i r }

@[simp] theorem setRun_status (w : Worker) (i : Nat) (r : Run) : (w.setRun i r).status = w.status := rfl

/-- `queue_work`, as run `i`. -/
def queueWork (w : Worker) (i : Nat) : Option Worker :=
  match w.pending with
  | some _ => some w
  | none => if w.runs i = .none then some ({ w with pending := some i }.setRun i .queued) else none

/-- The workqueue starts the pending item. -/
def start (w : Worker) : Option Worker :=
  match w.pending, w.current with
  | some i, none => some { w with pending := none, current := some i }
  | _, _ => none

/-! The sections of `ubbd_add_disk_fn` -/

/-- Up to the first `mutex_unlock`. `ubbd_dev_state_get_lock` waits for INTRANS
to be clear. -/
def runTest (w : Worker) (i : Nat) : Option Worker :=
  if w.current = some i ∧ w.runs i = .queued ∧ w.intrans = false then
    if w.status = .prepared then some ({ w with intrans := true }.setRun i .adding)
    else some (w.setRun i .refused)
  else none

/-- `ubbd_add_disk`, and the two `blk_queue_rq_timeout` around it. -/
def runAdd (w : Worker) (i : Nat) (ok : Bool) : Option Worker :=
  if w.current = some i ∧ w.runs i = .adding then some (w.setRun i (.added ok)) else none

/-- The section at `out`. -/
def runOut (w : Worker) (i : Nat) : Option Worker :=
  if w.current = some i then
    match w.runs i with
    | .added ok =>
      some ({ w with intrans := false, status := if ok then .running else w.status }.setRun i .putting)
    | .refused => some ({ w with intrans := false }.setRun i .putting)
    | _ => none
  else none

/-- `ubbd_dev_put`, and the return. -/
def runPut (w : Worker) (i : Nat) : Option Worker :=
  if w.current = some i ∧ w.runs i = .putting then some ({ w with current := none }.setRun i .none) else none

/-! ## What the sections do -/

variable {w w' : Worker} {i : Nat}

theorem queueWork_cases (h : w.queueWork i = some w') :
    (∃ j, w.pending = some j ∧ w' = w) ∨
      (w.pending = none ∧ w.runs i = .none ∧ w' = { w with pending := some i }.setRun i .queued) := by
  simp only [queueWork] at h
  split at h
  · rename_i j hj
    cases h
    exact .inl ⟨j, hj, rfl⟩
  · rename_i hp
    split at h <;> cases h
    exact .inr ⟨hp, ‹_›, rfl⟩

theorem start_cases (h : w.start = some w') :
    ∃ i, w.pending = some i ∧ w.current = none ∧ w' = { w with pending := none, current := some i } := by
  simp only [start] at h
  split at h <;> cases h
  exact ⟨_, ‹_›, ‹_›, rfl⟩

theorem runTest_cases (h : w.runTest i = some w') :
    w.current = some i ∧ w.runs i = .queued ∧ w.intrans = false ∧
      ((w.status = .prepared ∧ w' = { w with intrans := true }.setRun i .adding) ∨
        (w.status ≠ .prepared ∧ w' = w.setRun i .refused)) := by
  simp only [runTest, Option.ite_none_right_eq_some] at h
  obtain ⟨⟨hc, hq, hi⟩, h⟩ := h
  refine ⟨hc, hq, hi, ?_⟩
  split at h <;> cases h
  · exact .inl ⟨‹_›, rfl⟩
  · exact .inr ⟨‹_›, rfl⟩

theorem runAdd_cases {ok : Bool} (h : w.runAdd i ok = some w') :
    w.current = some i ∧ w.runs i = .adding ∧ w' = w.setRun i (.added ok) := by
  simp only [runAdd, Option.ite_none_right_eq_some, Option.some.injEq] at h
  obtain ⟨⟨hc, hr⟩, rfl⟩ := h
  exact ⟨hc, hr, rfl⟩

theorem runOut_cases (h : w.runOut i = some w') :
    w.current = some i ∧
      ((∃ ok, w.runs i = .added ok ∧
          w' = { w with intrans := false, status := if ok then .running else w.status }.setRun i .putting) ∨
        (w.runs i = .refused ∧ w' = { w with intrans := false }.setRun i .putting)) := by
  simp only [runOut, Option.ite_none_right_eq_some] at h
  obtain ⟨hc, h⟩ := h
  refine ⟨hc, ?_⟩
  split at h <;> cases h
  · exact .inl ⟨_, ‹_›, rfl⟩
  · exact .inr ⟨‹_›, rfl⟩

theorem runPut_cases (h : w.runPut i = some w') :
    w.current = some i ∧ w.runs i = .putting ∧ w' = { w with current := none }.setRun i .none := by
  simp only [runPut, Option.ite_none_right_eq_some, Option.some.injEq] at h
  obtain ⟨⟨hc, hr⟩, rfl⟩ := h
  exact ⟨hc, hr, rfl⟩

theorem setRun_runs (w : Worker) (i j : Nat) (r : Run) :
    (w.setRun i r).runs j = if j = i then r else w.runs j := by
  simp [setRun, Function.update_apply]

/-- The pending item has a run that is queued and not started; a run that has
started and not returned is one. -/
structure Ok (w : Worker) : Prop where
  pending : ∀ i, w.pending = some i → w.runs i = .queued ∧ w.current ≠ some i
  current : ∀ i, w.current = some i → w.runs i ≠ .none

/-- The current run moves on. -/
theorem Ok.setRun {st : DevStatus} {b : Bool} (h : w.Ok) (hc : w.current = some i) {r : Run} (hr : r ≠ .none) :
    ({ w with status := st, intrans := b }.setRun i r).Ok := by
  refine ⟨fun j hj => ?_, fun j hj => ?_⟩
  · obtain ⟨hq, hne⟩ := h.pending j hj
    have hji : j ≠ i := by
      rintro rfl
      exact hne hc
    rw [setRun_runs, if_neg hji]
    exact ⟨hq, hne⟩
  · rw [setRun_runs]
    split
    · exact hr
    · exact h.current j hj

theorem Ok.queueWork (h : w.Ok) (hs : w.queueWork i = some w') : w'.Ok := by
  rcases queueWork_cases hs with ⟨_, -, rfl⟩ | ⟨-, hi, rfl⟩
  · exact h
  · refine ⟨fun j hj => ?_, fun j hj => ?_⟩
    · obtain rfl : i = j := Option.some.inj hj
      rw [setRun_runs, if_pos rfl]
      exact ⟨rfl, fun hc => h.current i hc hi⟩
    · rw [setRun_runs]
      split
      · exact fun he => by cases he
      · exact h.current j hj

theorem Ok.start (h : w.Ok) (hs : w.start = some w') : w'.Ok := by
  obtain ⟨i, hp, -, rfl⟩ := start_cases hs
  refine ⟨fun j hj => absurd hj (Option.some_ne_none j).symm, fun j hj => ?_⟩
  obtain rfl : i = j := Option.some.inj hj
  show w.runs i ≠ .none
  rw [(h.pending i hp).1]
  exact fun he => by cases he

theorem Ok.runTest (h : w.Ok) (hs : w.runTest i = some w') : w'.Ok := by
  obtain ⟨hc, -, -, ⟨-, rfl⟩ | ⟨-, rfl⟩⟩ := runTest_cases hs
  · exact h.setRun hc fun he => by cases he
  · exact h.setRun hc fun he => by cases he

theorem Ok.runAdd {ok : Bool} (h : w.Ok) (hs : w.runAdd i ok = some w') : w'.Ok := by
  obtain ⟨hc, -, rfl⟩ := runAdd_cases hs
  exact h.setRun hc fun he => by cases he

theorem Ok.runOut (h : w.Ok) (hs : w.runOut i = some w') : w'.Ok := by
  obtain ⟨hc, ⟨ok, -, rfl⟩ | ⟨-, rfl⟩⟩ := runOut_cases hs
  · exact h.setRun hc fun he => by cases he
  · exact h.setRun hc fun he => by cases he

theorem Ok.runPut (h : w.Ok) (hs : w.runPut i = some w') : w'.Ok := by
  obtain ⟨hc, -, rfl⟩ := runPut_cases hs
  refine ⟨fun j hj => ?_, fun j hj => absurd hj (Option.some_ne_none j).symm⟩
  obtain ⟨hq, hne⟩ := h.pending j hj
  have hji : j ≠ i := by
    rintro rfl
    exact hne hc
  rw [setRun_runs, if_neg hji]
  exact ⟨hq, (Option.some_ne_none j).symm⟩

/-- What the others do to the status keeps the item. -/
theorem Ok.congr (h : w.Ok) (hr : w'.runs = w.runs) (hp : w'.pending = w.pending) (hc : w'.current = w.current) :
    w'.Ok := by
  refine ⟨fun i hi => ?_, fun i hi => ?_⟩
  · rw [hr, hc]
    exact h.pending i (hp ▸ hi)
  · rw [hr]
    exact h.current i (hc ▸ hi)

end Worker

theorem initWorker_ok : initWorker.Ok where
  pending := fun i h => absurd h (Option.some_ne_none i).symm
  current := fun i h => absurd h (Option.some_ne_none i).symm

end Ubbd.Device
