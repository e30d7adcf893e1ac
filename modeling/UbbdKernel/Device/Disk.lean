import Mathlib.Logic.Function.Basic
import Mathlib.Tactic.Common
import UbbdKernel.Device.Worker
import UbbdKernel.Framework.Lts

/-!
# Adding, deleting and freeing the disk

`Lifecycle` has the netlink handlers one after another; here any number of
calls of `ubbd_dev_remove_disk` run at the same time, by netlink or by
requests that timed out, beside the add-disk worker, in any number of runs, and
`ubbd_dev_remove_dev`. A call reads and overwrites the status in one section
under `state_lock`, and deletes the disk after it, if it read RUNNING; so at
most one call deletes it.

* `diskOnce`: the status only moves forward, INTRANS is set for exactly one
  run of the worker, and `del_gendisk` is called at most once, for a disk that
  was added. A call that reads REMOVING does not wait for the call that read
  RUNNING, so when it returns the disk may not be deleted yet
  (`returned_before_del_gendisk`).
* `freedAfter_iff`: `ubbd_dev_remove_dev` takes REMOVING as permission to free
  the disk; it is freed after its deletion exactly when no call that read
  RUNNING is still short of the return of `del_gendisk` then.
-/

namespace Ubbd.Disk

open Device (Run Worker initWorker)

/-- Where a call of `ubbd_dev_remove_disk` is. -/
inductive Remover
  | idle
  /-- It is in `ubbd_dev_remove_queues`, or waits for `state_lock`. -/
  | called
  /-- It has stored REMOVING; `diskIsRunning` is what it read. -/
  | stored (diskIsRunning : Bool)
  /-- It is in `del_gendisk`. -/
  | deleting
  | done
  deriving DecidableEq

/-- The device, and what was done to its disk. -/
structure DiskDev extends Worker where
  /-- `ubbd_dev->disk != NULL`. -/
  disk : Bool
  /-- The device is on `ubbd_dev_list`. -/
  listed : Bool
  removers : Nat → Remover
  /-- The netlink call of `ubbd_dev_remove_disk` that runs. -/
  netlink : Option Nat
  /-- `add_disk` succeeded. -/
  added : Bool
  /-- The call that read RUNNING. -/
  deleter : Option Nat
  /-- How often `del_gendisk` was called, and whether it returned. -/
  dels : Nat
  delReturned : Bool
  /-- `del_gendisk` was called with a disk that was freed, or NULL. -/
  nullDel : Bool
  /-- How often `ubbd_free_disk` was called. -/
  frees : Nat

def initDiskDev : DiskDev where
  toWorker := initWorker
  disk := false
  listed := false
  removers := fun _ => .idle
  netlink := none
  added := false
  deleter := none
  dels := 0
  delReturned := false
  nullDel := false
  frees := 0

inductive Label
  /-- `ubbd_dev_add_dev`: the disk is set up, the status PREPARED, the device
  listed. -/
  | prepare
  /-- `ubbd_dev_add_disk`, as run `i`. -/
  | queueRun (i : Nat)
  /-- The worker. -/
  | runStart
  | runTest (i : Nat)
  | runAdd (i : Nat) (ok : Bool)
  | runOut (i : Nat)
  | runPut (i : Nat)
  /-- Call `k` of `ubbd_dev_remove_disk`, by netlink or by a timeout. -/
  | removeCall (k : Nat) (netlink : Bool)
  /-- Its section under `state_lock`. -/
  | removeStore (k : Nat)
  /-- It returns without `del_gendisk`. -/
  | removeSkip (k : Nat)
  | delGendisk (k : Nat)
  | delReturn (k : Nat)
  /-- `ubbd_dev_remove_dev`, by netlink: its section under `state_lock`. -/
  | removeDev

namespace DiskDev

def setRun (d : DiskDev) (i : Nat) (r : Run) : DiskDev := { d with toWorker := d.toWorker.setRun i r }

def setRemover (d : DiskDev) (k : Nat) (r : Remover) : DiskDev :=
  { d with removers := Function.update d.removers k r }

/-- Call `k` returns; the next netlink command may run. -/
def finish (d : DiskDev) (k : Nat) : DiskDev :=
  { d.setRemover k .done with netlink := if d.netlink = some k then none else d.netlink }

end DiskDev

def step (d : DiskDev) : Label → Option DiskDev
  | .prepare =>
    if d.status = .init then some { d with status := .prepared, disk := true, listed := true } else none
  | .queueRun i =>
    if d.status = .prepared ∧ d.listed ∧ d.netlink = none then
      (d.queueWork i).map fun w => { d with toWorker := w }
    else none
  | .runStart => d.start.map fun w => { d with toWorker := w }
  | .runTest i => (d.toWorker.runTest i).map fun w => { d with toWorker := w }
  | .runAdd i ok =>
    if d.disk then (d.toWorker.runAdd i ok).map fun w => { d with toWorker := w, added := d.added || ok } else none
  | .runOut i => (d.toWorker.runOut i).map fun w => { d with toWorker := w }
  | .runPut i => (d.toWorker.runPut i).map fun w => { d with toWorker := w }
  | .removeCall k netlink =>
    if d.removers k = .idle ∧ d.status ≠ .init then
      if netlink then
        if d.listed ∧ d.netlink = none then some { d.setRemover k .called with netlink := some k } else none
      else some (d.setRemover k .called)
    else none
  | .removeStore k =>
    if d.removers k = .called ∧ d.intrans = false then
      some { d.setRemover k (.stored (d.status = .running)) with
        status := .removing
        deleter := if d.status = .running then some k else d.deleter }
    else none
  | .removeSkip k => if d.removers k = .stored false then some (d.finish k) else none
  | .delGendisk k =>
    if d.removers k = .stored true then
      some { d.setRemover k .deleting with dels := d.dels + 1, nullDel := d.nullDel || !d.disk }
    else none
  | .delReturn k =>
    if d.removers k = .deleting then some { d.finish k with delReturned := true } else none
  | .removeDev =>
    if d.listed ∧ d.netlink = none ∧ d.intrans = false then
      if d.status ≠ .removing ∧ d.status ≠ .prepared then some d
      else some { d with listed := false, disk := false, frees := d.frees + 1 }
    else none

def lts : Lts DiskDev Label where
  init d := d = initDiskDev
  step := step

/-! ## What is to hold -/

/-- INIT, PREPARED, RUNNING, REMOVING, or from PREPARED to REMOVING at once. -/
def Forward (st st' : DevStatus) : Prop :=
  st' = st ∨ (st = .init ∧ st' = .prepared) ∨ (st = .prepared ∧ st' = .running) ∨
    (st = .running ∧ st' = .removing) ∨ (st = .prepared ∧ st' = .removing)

/-- INTRANS is set for exactly one run of the worker, in status PREPARED;
`del_gendisk` is called at most once, and for a disk that was added; and once
the disk is added and a call has returned, `del_gendisk` was called, or
exactly one call is about to call it. -/
structure DiskOnce (d : DiskDev) : Prop where
  window : d.intrans = true → d.status = .prepared ∧ ∃! i, (d.runs i).inWindow = true
  intrans : ∀ i, (d.runs i).inWindow = true → d.intrans = true
  atMost : d.dels ≤ 1
  added : 0 < d.dels → d.added = true
  completed : d.added = true → (∃ k, d.removers k = .done) →
    (d.dels = 1 ∧ ∀ k, d.removers k ≠ .stored true) ∨
      (d.dels = 0 ∧ ∃! k, d.removers k = .stored true)

/-- `ubbd_free_disk` is called at most once, after the return of `del_gendisk`
if the disk was added, and `del_gendisk` is not called without a disk. -/
structure FreedAfter (d : DiskDev) : Prop where
  atMostFree : d.frees ≤ 1
  after : 0 < d.frees → d.added = true → d.delReturned = true
  nonNull : d.nullDel = false

/-- `ubbd_dev_remove_dev` is accepted only when no call of `ubbd_dev_remove_disk`
is between its section, in which it read RUNNING, and the return of
`del_gendisk`. -/
def NoneDeleting (d : DiskDev) (a : Label) : Prop :=
  a = .removeDev → ∀ k, d.removers k ≠ .stored true ∧ d.removers k ≠ .deleting

/-! ## What a step does -/

/-- What each step does, with what it has found. -/
inductive DiskStep (d : DiskDev) : Label → DiskDev → Prop
  | prepare (init : d.status = .init) :
    DiskStep d .prepare { d with status := .prepared, disk := true, listed := true }
  | queueRun {i : Nat} (new : d.runs i = .none) (prepared : d.status = .prepared) :
    DiskStep d (.queueRun i) ({ d with pending := some i }.setRun i .queued)
  | queuePending {i : Nat} : DiskStep d (.queueRun i) d
  | runStart {i : Nat} (pending : d.pending = some i) :
    DiskStep d .runStart { d with pending := none, current := some i }
  | enter {i : Nat} (queued : d.runs i = .queued) (quiet : d.intrans = false) (prepared : d.status = .prepared) :
    DiskStep d (.runTest i) ({ d with intrans := true }.setRun i .adding)
  | refuse {i : Nat} (queued : d.runs i = .queued) (quiet : d.intrans = false) (other : d.status ≠ .prepared) :
    DiskStep d (.runTest i) (d.setRun i .refused)
  | runAdd {i : Nat} {ok : Bool} (adding : d.runs i = .adding) (disk : d.disk = true) :
    DiskStep d (.runAdd i ok) ({ d with added := d.added || ok }.setRun i (.added ok))
  | outAdded {i : Nat} {ok : Bool} (added : d.runs i = .added ok) :
    DiskStep d (.runOut i)
      ({ d with intrans := false, status := if ok then .running else d.status }.setRun i .putting)
  | outRefused {i : Nat} (refused : d.runs i = .refused) :
    DiskStep d (.runOut i) ({ d with intrans := false }.setRun i .putting)
  | runPut {i : Nat} (putting : d.runs i = .putting) :
    DiskStep d (.runPut i) ({ d with current := none }.setRun i .none)
  | call {k : Nat} {byNetlink : Bool} (n : Option Nat) (idle : d.removers k = .idle) (built : d.status ≠ .init) :
    DiskStep d (.removeCall k byNetlink) { d.setRemover k .called with netlink := n }
  | store {k : Nat} (called : d.removers k = .called) (quiet : d.intrans = false) :
    DiskStep d (.removeStore k)
      { d.setRemover k (.stored (d.status = .running)) with
        status := .removing
        deleter := if d.status = .running then some k else d.deleter }
  | skip {k : Nat} (stored : d.removers k = .stored false) : DiskStep d (.removeSkip k) (d.finish k)
  | delGendisk {k : Nat} (stored : d.removers k = .stored true) :
    DiskStep d (.delGendisk k)
      { d.setRemover k .deleting with dels := d.dels + 1, nullDel := d.nullDel || !d.disk }
  | delReturn {k : Nat} (deleting : d.removers k = .deleting) :
    DiskStep d (.delReturn k) { d.finish k with delReturned := true }
  | removeDevRefused (refused : d.status ≠ .removing ∧ d.status ≠ .prepared) : DiskStep d .removeDev d
  | removeDev (listed : d.listed = true) (quiet : d.intrans = false)
      (allowed : d.status = .removing ∨ d.status = .prepared) :
    DiskStep d .removeDev { d with listed := false, disk := false, frees := d.frees + 1 }

theorem step_cases {d d' : DiskDev} {a : Label} (hs : step d a = some d') : DiskStep d a d' := by
  cases a with
  | prepare =>
    simp only [step, Option.ite_none_right_eq_some, Option.some.injEq] at hs
    obtain ⟨hi, rfl⟩ := hs
    exact .prepare hi
  | queueRun i =>
    simp only [step, Option.ite_none_right_eq_some, Option.map_eq_some_iff] at hs
    obtain ⟨⟨hp, -⟩, w, hw, rfl⟩ := hs
    rcases Worker.queueWork_cases hw with ⟨j, -, rfl⟩ | ⟨-, hi, rfl⟩
    · exact .queuePending
    · exact .queueRun hi hp
  | runStart =>
    simp only [step, Option.map_eq_some_iff] at hs
    obtain ⟨w, hw, rfl⟩ := hs
    obtain ⟨i, hp, -, rfl⟩ := Worker.start_cases hw
    exact .runStart hp
  | runTest i =>
    simp only [step, Option.map_eq_some_iff] at hs
    obtain ⟨w, hw, rfl⟩ := hs
    obtain ⟨-, hq, hi, ⟨hp, rfl⟩ | ⟨hp, rfl⟩⟩ := Worker.runTest_cases hw
    · exact .enter hq hi hp
    · exact .refuse hq hi hp
  | runAdd i ok =>
    simp only [step, Option.ite_none_right_eq_some, Option.map_eq_some_iff] at hs
    obtain ⟨hd, w, hw, rfl⟩ := hs
    obtain ⟨-, hq, rfl⟩ := Worker.runAdd_cases hw
    exact .runAdd hq hd
  | runOut i =>
    simp only [step, Option.map_eq_some_iff] at hs
    obtain ⟨w, hw, rfl⟩ := hs
    obtain ⟨-, ⟨ok, hq, rfl⟩ | ⟨hq, rfl⟩⟩ := Worker.runOut_cases hw
    · exact .outAdded hq
    · exact .outRefused hq
  | runPut i =>
    simp only [step, Option.map_eq_some_iff] at hs
    obtain ⟨w, hw, rfl⟩ := hs
    obtain ⟨-, hq, rfl⟩ := Worker.runPut_cases hw
    exact .runPut hq
  | removeCall k netlink =>
    simp only [step, Option.ite_none_right_eq_some] at hs
    obtain ⟨⟨hk, hn⟩, hs⟩ := hs
    split at hs
    · simp only [Option.ite_none_right_eq_some, Option.some.injEq] at hs
      obtain ⟨-, rfl⟩ := hs
      exact .call (some k) hk hn
    · cases hs
      exact .call d.netlink hk hn
  | removeStore k =>
    simp only [step, Option.ite_none_right_eq_some, Option.some.injEq] at hs
    obtain ⟨⟨hk, hi⟩, rfl⟩ := hs
    exact .store hk hi
  | removeSkip k =>
    simp only [step, Option.ite_none_right_eq_some, Option.some.injEq] at hs
    obtain ⟨hk, rfl⟩ := hs
    exact .skip hk
  | delGendisk k =>
    simp only [step, Option.ite_none_right_eq_some, Option.some.injEq] at hs
    obtain ⟨hk, rfl⟩ := hs
    exact .delGendisk hk
  | delReturn k =>
    simp only [step, Option.ite_none_right_eq_some, Option.some.injEq] at hs
    obtain ⟨hk, rfl⟩ := hs
    exact .delReturn hk
  | removeDev =>
    simp only [step, Option.ite_none_right_eq_some] at hs
    obtain ⟨⟨hl, -, hi⟩, hs⟩ := hs
    split at hs <;> cases hs
    · exact .removeDevRefused ‹_›
    · rename_i hst
      refine .removeDev hl hi ?_
      by_contra hn
      exact hst (not_or.mp hn)

/-! ## The invariant -/

theorem DiskDev.setRun_runs (d : DiskDev) (i : Nat) (r : Run) (j : Nat) :
    (d.setRun i r).runs j = if j = i then r else d.runs j :=
  Worker.setRun_runs d.toWorker i j r

theorem DiskDev.setRemover_removers (d : DiskDev) (k : Nat) (r : Remover) (l : Nat) :
    (d.setRemover k r).removers l = if l = k then r else d.removers l := by
  simp [DiskDev.setRemover, Function.update_apply]

/-- What holds of status, INTRANS and the runs of the worker. -/
structure RunInv (d : DiskDev) : Prop where
  window : ∀ i, (d.runs i).inWindow = true → d.intrans = true ∧ d.status = .prepared
  unique : ∀ i j, (d.runs i).inWindow = true → (d.runs j).inWindow = true → i = j
  holder : d.intrans = true → ∃ i, (d.runs i).inWindow = true
  refused : ∀ i, d.runs i = .refused → d.status = .running ∨ d.status = .removing
  early : d.status = .init → ∀ i, d.runs i = .none
  ran : ∀ i, d.runs i = .added true → d.added = true
  shown : d.added = true → d.status = .running ∨ d.status = .removing ∨ ∃ i, d.runs i = .added true
  running : d.status = .running → d.added = true

/-- No run is in its window while INTRANS is clear. -/
theorem RunInv.none_inWindow {d : DiskDev} (h : RunInv d) (hi : d.intrans = false) (i : Nat) :
    (d.runs i).inWindow = false := by
  by_contra hw
  rw [(h.window i (by simpa using hw)).1] at hi
  cases hi

/-- A step that leaves the worker and the status alone. -/
theorem RunInv.of_eq {d d' : DiskDev} (h : RunInv d) (hr : d'.runs = d.runs) (hi : d'.intrans = d.intrans)
    (hs : d'.status = d.status) (ha : d'.added = d.added) : RunInv d' := by
  obtain ⟨h1, h2, h3, h4, h5, h6, h7, h8⟩ := h
  constructor <;> simpa only [hr, hi, hs, ha]

/-- Run `i` moves on outside its window. -/
theorem RunInv.of_run {d : DiskDev} (h : RunInv d) {i : Nat} {r : Run} (hw : (d.runs i).inWindow = false)
    (hr : r.inWindow = false) (hf : r = .refused → d.status = .running ∨ d.status = .removing)
    (hn : d.status ≠ .init) : RunInv (d.setRun i r) := by
  have win : ∀ j, ((d.setRun i r).runs j).inWindow = (d.runs j).inWindow := fun j => by
    rw [DiskDev.setRun_runs]
    split
    · rename_i e
      rw [hr, e, hw]
    · rfl
  have added : ∀ j, (d.setRun i r).runs j = .added true ↔ d.runs j = .added true := fun j => by
    have := win j
    rw [DiskDev.setRun_runs] at this ⊢
    split
    · rename_i e
      subst e
      constructor
      · rintro rfl
        cases hr
      · intro e
        rw [e] at hw
        cases hw
    · rfl
  refine ⟨fun j hj => h.window j (win j ▸ hj), fun j k hj hk => h.unique j k (win j ▸ hj) (win k ▸ hk),
    fun hi => ?_, fun j hj => ?_, fun e => absurd e hn, fun j hj => h.ran j ((added j).mp hj), fun ha => ?_,
    h.running⟩
  · obtain ⟨j, hj⟩ := h.holder hi
    exact ⟨j, (win j).trans hj⟩
  · rw [DiskDev.setRun_runs] at hj
    split at hj
    · exact hf hj
    · exact h.refused j hj
  · exact (h.shown ha).imp_right fun h => h.imp_right fun ⟨j, hj⟩ => ⟨j, (added j).mpr hj⟩

/-- Run `i` enters its window. -/
theorem RunInv.enter {d : DiskDev} (h : RunInv d) {i : Nat} (hi : d.intrans = false)
    (hp : d.status = .prepared) : RunInv ({ d with intrans := true }.setRun i .adding) := by
  have hno := h.none_inWindow hi
  have win : ∀ j, (({ d with intrans := true }.setRun i .adding).runs j).inWindow = true → j = i := fun j hj => by
    rw [DiskDev.setRun_runs] at hj
    split at hj
    · assumption
    · rw [show (d.runs j).inWindow = false from hno j] at hj
      cases hj
  refine ⟨fun j _ => ⟨rfl, hp⟩, fun j k hj hk => (win j hj).trans (win k hk).symm, fun _ => ⟨i, ?_⟩,
    fun j hj => ?_, fun e => ?_, fun j hj => ?_, fun ha => ?_, h.running⟩
  · rw [DiskDev.setRun_runs, if_pos rfl]
    rfl
  · rw [DiskDev.setRun_runs] at hj
    split at hj
    · cases hj
    · exact h.refused j hj
  · rw [show d.status = _ from e] at hp
    cases hp
  · rw [DiskDev.setRun_runs] at hj
    split at hj
    · cases hj
    · exact h.ran j hj
  · rcases h.shown ha with e | e | ⟨j, hj⟩
    · exact .inl e
    · exact .inr (.inl e)
    · have := hno j
      rw [hj] at this
      cases this

/-- `add_disk` returns. -/
theorem RunInv.add {d : DiskDev} (h : RunInv d) {i : Nat} (hq : d.runs i = .adding) (ok : Bool) :
    RunInv ({ d with added := d.added || ok }.setRun i (.added ok)) := by
  have hwi : (d.runs i).inWindow = true := by rw [hq]; rfl
  have hst := (h.window i hwi).2
  have win : ∀ j, (({ d with added := d.added || ok }.setRun i (.added ok)).runs j).inWindow =
      (d.runs j).inWindow := fun j => by
    rw [DiskDev.setRun_runs]
    split
    · rename_i e
      rw [e, hwi]
      rfl
    · rfl
  refine ⟨fun j hj => h.window j (win j ▸ hj), fun j k hj hk => h.unique j k (win j ▸ hj) (win k ▸ hk),
    fun hi => ?_, fun j hj => ?_, fun e => ?_, fun j hj => ?_, fun ha => ?_, fun e => ?_⟩
  · obtain ⟨j, hj⟩ := h.holder hi
    exact ⟨j, (win j).trans hj⟩
  · rw [DiskDev.setRun_runs] at hj
    split at hj
    · cases hj
    · exact h.refused j hj
  · rw [show d.status = _ from e] at hst
    cases hst
  · show (d.added || ok) = true
    rw [DiskDev.setRun_runs] at hj
    split at hj
    · cases hj
      exact Bool.or_true _
    · rw [h.ran j hj]
      rfl
  · cases ok with
    | true => exact .inr (.inr ⟨i, by rw [DiskDev.setRun_runs, if_pos rfl]⟩)
    | false =>
      have ha : d.added = true := by simpa [DiskDev.setRun] using ha
      refine (h.shown ha).imp_right fun h => h.imp_right fun ⟨j, hj⟩ => ⟨j, ?_⟩
      rw [DiskDev.setRun_runs, if_neg fun e => by rw [e, hq] at hj; cases hj]
      exact hj
  · rw [show d.status = _ from e] at hst
    cases hst

/-- Run `i` clears INTRANS, with no other run in its window. -/
theorem RunInv.of_clear {d : DiskDev} {i : Nat} {st : DevStatus}
    (hno : ∀ j, j ≠ i → (d.runs j).inWindow = false) (hn : st ≠ .init)
    (hrf : ∀ j, d.runs j = .refused → st = .running ∨ st = .removing)
    (hsh : d.added = true → st = .running ∨ st = .removing) (hrn : st = .running → d.added = true) :
    RunInv ({ d with intrans := false, status := st }.setRun i .putting) := by
  have runs : ∀ {j r}, ({ d with intrans := false, status := st }.setRun i .putting).runs j = r →
      r ≠ .putting → j ≠ i ∧ d.runs j = r := by
    intro j r hj hr
    rw [DiskDev.setRun_runs] at hj
    split at hj
    · exact absurd hj.symm hr
    · exact ⟨‹_›, hj⟩
  have win : ∀ j, (({ d with intrans := false, status := st }.setRun i .putting).runs j).inWindow = false := by
    intro j
    rw [DiskDev.setRun_runs]
    split
    · rfl
    · exact hno j ‹_›
  refine ⟨fun j hj => ?_, fun j k hj _ => ?_, nofun, fun j hj => hrf j (runs hj nofun).2, fun e => absurd e hn,
    fun j hj => ?_, fun ha => (hsh ha).imp_right .inl, hrn⟩
  · rw [win j] at hj
    cases hj
  · rw [win j] at hj
    cases hj
  · obtain ⟨hne, hj⟩ := runs hj nofun
    have := hno j hne
    rw [hj] at this
    cases this

/-- The section at `out`, after `ubbd_add_disk`. -/
theorem RunInv.outAdded {d : DiskDev} (h : RunInv d) {i : Nat} {ok : Bool} (hq : d.runs i = .added ok) :
    RunInv ({ d with intrans := false, status := if ok then .running else d.status }.setRun i .putting) := by
  have hwi : (d.runs i).inWindow = true := by rw [hq]; rfl
  have hst := (h.window i hwi).2
  have hpast : d.status ≠ .running ∧ d.status ≠ .removing := by rw [hst]; decide
  refine RunInv.of_clear (fun j hj => ?_) ?_ (fun j hj => ?_) (fun ha => ?_) fun e => ?_
  · by_contra hw
    exact hj (h.unique j i (by simpa using hw) hwi)
  · cases ok with
    | true => simp
    | false => simp [hst]
  · rcases h.refused j hj with e | e
    · exact absurd e hpast.1
    · exact absurd e hpast.2
  · cases ok with
    | true => exact .inl rfl
    | false =>
      rcases h.shown ha with e | e | ⟨j, hj⟩
      · exact absurd e hpast.1
      · exact absurd e hpast.2
      · rw [h.unique j i (by rw [hj]; rfl) hwi, hq] at hj
        cases hj
  · cases ok with
    | true => exact h.ran i hq
    | false => exact h.running e

/-- The section at `out`, of a run that was refused. -/
theorem RunInv.outRefused {d : DiskDev} (h : RunInv d) {i : Nat} (hq : d.runs i = .refused) :
    RunInv ({ d with intrans := false }.setRun i .putting) := by
  have hst := h.refused i hq
  refine RunInv.of_clear (fun j _ => ?_) (fun e => ?_) h.refused (fun _ => hst) h.running
  · by_contra hw
    have := (h.window j (by simpa using hw)).2
    rcases hst with e | e <;> rw [e] at this <;> cases this
  · rcases hst with e' | e' <;> rw [e] at e' <;> cases e'

/-- A call of `ubbd_dev_remove_disk` stores REMOVING. -/
theorem RunInv.store {d d' : DiskDev} (h : RunInv d) (hi : d.intrans = false) (hr : d'.runs = d.runs)
    (hi' : d'.intrans = d.intrans) (hs : d'.status = .removing) (ha : d'.added = d.added) : RunInv d' := by
  have hno : ∀ i, (d'.runs i).inWindow ≠ true := fun i => by
    rw [hr, h.none_inWindow hi i]
    decide
  refine ⟨fun i hw => absurd hw (hno i), fun i _ hw => absurd hw (hno i), fun e => ?_, fun _ _ => .inr hs,
    fun e => ?_, fun i hr' => ha.trans (h.ran i (hr ▸ hr')), fun _ => .inr (.inl hs), fun e => ?_⟩
  · rw [hi', hi] at e
    cases e
  · rw [hs] at e
    cases e
  · rw [hs] at e
    cases e

theorem RunInv.prepare {d : DiskDev} (h : RunInv d) (hi : d.status = .init) :
    RunInv { d with status := .prepared, disk := true, listed := true } := by
  have hr := h.early hi
  have hintrans : d.intrans = false := by
    by_contra hn
    obtain ⟨i, hw⟩ := h.holder (by simpa using hn)
    rw [hr i] at hw
    cases hw
  have hadded : d.added = false := by
    by_contra hn
    rcases h.shown (by simpa using hn) with e | e | ⟨i, e⟩
    · rw [hi] at e
      cases e
    · rw [hi] at e
      cases e
    · rw [hr i] at e
      cases e
  constructor <;> simp_all [Run.inWindow]

theorem step_runInv {d d' : DiskDev} {a : Label} (h : RunInv d) (hs : step d a = some d') : RunInv d' := by
  cases step_cases hs with
  | prepare hi => exact h.prepare hi
  | queueRun hr hp =>
    exact (h.of_run (r := .queued) (by rw [hr]; rfl) rfl nofun (by simp [hp])).of_eq rfl rfl rfl rfl
  | runPut hq =>
    have hn : d.status ≠ .init := fun e => by
      rw [h.early e _] at hq
      cases hq
    exact (h.of_run (r := .none) (by rw [hq]; rfl) rfl nofun hn).of_eq rfl rfl rfl rfl
  | enter hq hi hp => exact h.enter hi hp
  | refuse hq hi hp =>
    have hn : d.status ≠ .init := fun e => by
      rw [h.early e _] at hq
      cases hq
    exact h.of_run (by rw [hq]; rfl) rfl (fun _ => by cases e : d.status <;> simp_all) hn
  | runAdd hq hd => exact h.add hq _
  | outAdded hq => exact h.outAdded hq
  | outRefused hq => exact h.outRefused hq
  | store hk hi => exact h.store hi rfl rfl rfl rfl
  | queuePending | removeDevRefused => exact h
  | runStart | call | skip | delGendisk | delReturn | removeDev => exact h.of_eq rfl rfl rfl rfl

/-- The call that read RUNNING, and what has become of its `del_gendisk`. -/
def Deleting (d : DiskDev) (k : Nat) : Prop :=
  (d.removers k = .stored true ∧ d.dels = 0 ∧ d.delReturned = false) ∨
    (d.removers k = .deleting ∧ d.dels = 1 ∧ d.delReturned = false) ∨
    (d.removers k = .done ∧ d.dels = 1 ∧ d.delReturned = true)

theorem Deleting.of_stored {d : DiskDev} {k : Nat} (h : Deleting d k) (hk : d.removers k = .stored true) :
    d.dels = 0 ∧ d.delReturned = false := by
  rcases h with ⟨-, h⟩ | ⟨e, -⟩ | ⟨e, -⟩
  · exact h
  · simp [hk] at e
  · simp [hk] at e

theorem Deleting.of_deleting {d : DiskDev} {k : Nat} (h : Deleting d k) (hk : d.removers k = .deleting) :
    d.dels = 1 := by
  rcases h with ⟨e, -⟩ | ⟨-, h, -⟩ | ⟨e, -⟩
  · simp [hk] at e
  · exact h
  · simp [hk] at e

/-- What holds of the calls of `ubbd_dev_remove_disk`. -/
structure RemoveInv (d : DiskDev) : Prop where
  early : d.status = .init → (∀ k, d.removers k = .idle) ∧ d.frees = 0
  removing : ∀ k, d.removers k = .idle ∨ d.removers k = .called ∨ d.status = .removing
  running : d.status = .running → d.deleter = none
  reader : ∀ k, d.removers k = .stored true ∨ d.removers k = .deleting → d.deleter = some k
  deleter : ∀ k, d.deleter = some k → d.status = .removing ∧ d.added = true ∧ Deleting d k
  unread : d.deleter = none → d.dels = 0 ∧ d.delReturned = false
  read : d.added = true → d.status = .removing → d.deleter ≠ none

/-- A call past its section has stored REMOVING. -/
theorem RemoveInv.past {d : DiskDev} (h : RemoveInv d) (k : Nat)
    (hk : ¬ (d.removers k = .idle ∨ d.removers k = .called)) : d.status = .removing := by
  have := h.removing k
  rw [← or_assoc] at this
  exact this.resolve_left hk

/-- A step that leaves the calls and the status alone. -/
theorem RemoveInv.of_eq {d d' : DiskDev} (h : RemoveInv d) (hr : d'.removers = d.removers)
    (hs : d'.status = d.status) (ha : d'.added = d.added) (hd : d'.deleter = d.deleter)
    (hn : d'.dels = d.dels) (ht : d'.delReturned = d.delReturned) (hf : d.status = .init → d'.frees = d.frees) :
    RemoveInv d' := by
  obtain ⟨h1, h2, h3, h4, h5, h6, h7⟩ := h
  constructor <;> simp only [Deleting, hr, hs, ha, hd, hn, ht]
  · exact fun e => ⟨(h1 e).1, (hf e).trans (h1 e).2⟩
  all_goals assumption

/-- A call that does not delete moves on. -/
theorem RemoveInv.of_remover {d d' : DiskDev} (h : RemoveInv d) {k : Nat} {r : Remover}
    (hk : d.removers k = .idle ∨ d.removers k = .called ∨ d.removers k = .stored false)
    (hr : r ≠ .stored true ∧ r ≠ .deleting) (hq : r = .called ∨ d.status = .removing)
    (hrem : ∀ l, d'.removers l = if l = k then r else d.removers l) (hn : d.status ≠ .init)
    (hs : d'.status = d.status) (ha : d'.added = d.added) (hd : d'.deleter = d.deleter)
    (hdel : d'.dels = d.dels) (ht : d'.delReturned = d.delReturned) : RemoveInv d' := by
  have hne : ∀ l, d.deleter = some l → l ≠ k := by
    rintro l hl rfl
    rcases (h.deleter l hl).2.2 with ⟨e, -⟩ | ⟨e, -⟩ | ⟨e, -⟩ <;> rw [e] at hk <;> simp at hk
  refine ⟨fun e => absurd (hs ▸ e) hn, fun l => ?_, fun e => ?_, fun l hl => ?_, fun l hl => ?_, fun e => ?_,
    fun e e' => ?_⟩
  · rw [hrem, hs]
    split
    · rcases hq with e | e
      · exact .inr (.inl e)
      · exact .inr (.inr e)
    · exact h.removing l
  · rw [hd]
    exact h.running (hs ▸ e)
  · rw [hrem] at hl
    rw [hd]
    split at hl
    · exact absurd hl (not_or.mpr hr)
    · exact h.reader l hl
  · rw [hd] at hl
    obtain ⟨h1, h2, h3⟩ := h.deleter l hl
    refine ⟨hs.trans h1, ha.trans h2, ?_⟩
    unfold Deleting
    rw [hrem, if_neg (hne l hl), hdel, ht]
    exact h3
  · rw [hdel, ht]
    exact h.unread (hd ▸ e)
  · rw [hd]
    exact h.read (ha ▸ e) (hs ▸ e')

/-- The call that read RUNNING moves on. -/
theorem RemoveInv.of_deleter {d d' : DiskDev} (h : RemoveInv d) {k : Nat} {r : Remover}
    (hk : d.deleter = some k) (hrem : ∀ l, d'.removers l = if l = k then r else d.removers l)
    (hs : d'.status = d.status) (ha : d'.added = d.added) (hd : d'.deleter = d.deleter)
    (hdel : Deleting d' k) : RemoveInv d' := by
  obtain ⟨hst, hadd, -⟩ := h.deleter k hk
  refine ⟨fun e => ?_, fun l => .inr (.inr (hs.trans hst)), fun e => ?_, fun l hl => ?_, fun l hl => ?_, fun e => ?_,
    fun _ _ => ?_⟩
  · rw [hs, hst] at e
    cases e
  · rw [hs, hst] at e
    cases e
  · rw [hrem] at hl
    rw [hd]
    split at hl
    · rename_i e
      rw [e, hk]
    · exact h.reader l hl
  · obtain rfl : k = l := Option.some.inj (hk.symm.trans (hd ▸ hl))
    exact ⟨hs.trans hst, ha.trans hadd, hdel⟩
  · rw [hd, hk] at e
    cases e
  · rw [hd, hk]
    exact nofun

/-- The section of a call: it reads the status, and stores REMOVING. -/
theorem RemoveInv.store {d d' : DiskDev} (hrun : RunInv d) (h : RemoveInv d) {k : Nat}
    (hk : d.removers k = .called) (hi : d.intrans = false)
    (hrem : ∀ l, d'.removers l = if l = k then .stored (d.status = .running) else d.removers l)
    (hs : d'.status = .removing) (ha : d'.added = d.added)
    (hd : d'.deleter = if d.status = .running then some k else d.deleter)
    (hdel : d'.dels = d.dels) (ht : d'.delReturned = d.delReturned) : RemoveInv d' := by
  have hearly : d'.status = .init → (∀ k, d'.removers k = .idle) ∧ d'.frees = 0 := fun e => by
    rw [hs] at e
    cases e
  have hrunning : d'.status = .running → d'.deleter = none := fun e => by
    rw [hs] at e
    cases e
  by_cases hrun' : d.status = .running
  · have hnone := h.running hrun'
    obtain ⟨h0, hret⟩ := h.unread hnone
    rw [if_pos hrun'] at hd
    refine ⟨hearly, fun _ => .inr (.inr hs), hrunning, fun l hl => ?_, fun l hl => ?_, fun e => ?_, fun _ _ => ?_⟩
    · rw [hrem] at hl
      split at hl
      · rename_i e
        rw [hd, e]
      · have := h.reader l hl
        rw [hnone] at this
        cases this
    · obtain rfl : k = l := Option.some.inj (hd.symm.trans hl)
      refine ⟨hs, ha.trans (hrun.running hrun'), .inl ⟨?_, hdel.trans h0, ht.trans hret⟩⟩
      rw [hrem, if_pos rfl, hrun']
      rfl
    · rw [hd] at e
      cases e
    · rw [hd]
      exact nofun
  · rw [if_neg hrun'] at hd
    have hstored : (Remover.stored (decide (d.status = .running))) = .stored false := by simp [hrun']
    have hne : ∀ l, d.deleter = some l → l ≠ k := by
      rintro l hl rfl
      rcases (h.deleter l hl).2.2 with ⟨e, -⟩ | ⟨e, -⟩ | ⟨e, -⟩ <;> rw [hk] at e <;> cases e
    refine ⟨hearly, fun _ => .inr (.inr hs), hrunning, fun l hl => ?_, fun l hl => ?_, fun e => ?_, fun e _ => ?_⟩
    · rw [hrem, hstored] at hl
      rw [hd]
      split at hl
      · simp at hl
      · exact h.reader l hl
    · rw [hd] at hl
      obtain ⟨-, h2, h3⟩ := h.deleter l hl
      refine ⟨hs, ha.trans h2, ?_⟩
      unfold Deleting
      rw [hrem, if_neg (hne l hl), hdel, ht]
      exact h3
    · rw [hdel, ht]
      exact h.unread (hd ▸ e)
    · rw [hd]
      have hadd : d.added = true := ha ▸ e
      rcases hrun.shown hadd with e | e | ⟨i, e⟩
      · exact absurd e hrun'
      · exact h.read hadd e
      · have := hrun.none_inWindow hi i
        rw [e] at this
        cases this

/-- A step before REMOVING is stored leaves the calls alone. -/
theorem RemoveInv.of_status {d d' : DiskDev} (h : RemoveInv d) (hp : d.status ≠ .removing)
    (hp' : d'.status ≠ .removing) (hn : d'.status ≠ .init) (hr : d'.removers = d.removers)
    (hd : d'.deleter = d.deleter) (hdel : d'.dels = d.dels) (ht : d'.delReturned = d.delReturned) :
    RemoveInv d' := by
  have hnone : d.deleter = none := by
    by_contra e
    obtain ⟨k, hk⟩ := Option.ne_none_iff_exists'.mp e
    exact hp (h.deleter k hk).1
  have hcall : ∀ k, d.removers k = .idle ∨ d.removers k = .called := fun k =>
    (h.removing k).imp_right fun e => e.resolve_right hp
  refine ⟨fun e => absurd e hn, fun k => ?_, fun _ => hd.trans hnone, fun k hk => ?_, fun k hk => ?_, fun _ => ?_,
    fun _ e => absurd e hp'⟩
  · rw [hr]
    exact (hcall k).imp_right .inl
  · rw [hr] at hk
    rcases hcall k with e | e <;> rw [e] at hk <;> simp at hk
  · rw [hd, hnone] at hk
    cases hk
  · rw [hdel, ht]
    exact h.unread hnone

theorem step_removeInv {d d' : DiskDev} {a : Label} (hrun : RunInv d) (h : RemoveInv d)
    (hs : step d a = some d') : RemoveInv d' := by
  cases step_cases hs with
  | prepare hi => exact h.of_status (by simp [hi]) nofun nofun rfl rfl rfl rfl
  | queueRun | queuePending | runStart | enter | refuse | outRefused | runPut | removeDevRefused =>
    exact h.of_eq rfl rfl rfl rfl rfl rfl fun _ => rfl
  | removeDev hl hi hst =>
    refine h.of_eq rfl rfl rfl rfl rfl rfl fun e => ?_
    simp [e] at hst
  | @runAdd i ok hq hd =>
    have hp : d.status = .prepared := (hrun.window i (by rw [hq]; rfl)).2
    refine h.of_status ?_ ?_ ?_ rfl rfl rfl rfl <;> simp [DiskDev.setRun, hp]
  | @outAdded i ok hq =>
    have hp : d.status = .prepared := (hrun.window i (by rw [hq]; rfl)).2
    refine h.of_status ?_ ?_ ?_ rfl rfl rfl rfl <;> cases ok <;> simp [DiskDev.setRun, hp]
  | @call k _ n hk hn =>
    exact h.of_remover (r := .called) (.inl hk) ⟨nofun, nofun⟩ (.inl rfl) (DiskDev.setRemover_removers d k _) hn
      rfl rfl rfl rfl rfl
  | @store k hk hi => exact .store hrun h hk hi (DiskDev.setRemover_removers d k _) rfl rfl rfl rfl rfl
  | @skip k hk =>
    have hst : d.status = .removing := h.past k (by simp [hk])
    exact h.of_remover (r := .done) (.inr (.inr hk)) ⟨nofun, nofun⟩ (.inr hst) (DiskDev.setRemover_removers d k _)
      (by simp [hst]) rfl rfl rfl rfl rfl
  | @delGendisk k hk =>
    have hd := h.reader k (.inl hk)
    refine h.of_deleter hd (DiskDev.setRemover_removers d k _) rfl rfl rfl (.inr (.inl ?_))
    obtain ⟨h0, hret⟩ := (h.deleter k hd).2.2.of_stored hk
    refine ⟨(DiskDev.setRemover_removers d k _ k).trans (if_pos rfl), ?_, hret⟩
    show d.dels + 1 = 1
    omega
  | @delReturn k hk =>
    have hd := h.reader k (.inr hk)
    refine h.of_deleter hd (DiskDev.setRemover_removers d k _) rfl rfl rfl (.inr (.inr ?_))
    have h1 := (h.deleter k hd).2.2.of_deleting hk
    exact ⟨(DiskDev.setRemover_removers d k _ k).trans (if_pos rfl), h1, rfl⟩

theorem initDiskDev_runInv : RunInv initDiskDev := by
  constructor <;> simp [initDiskDev, initWorker, Run.inWindow]

theorem initDiskDev_removeInv : RemoveInv initDiskDev := by
  constructor <;> simp [initDiskDev, initWorker]

/-! ## The status moves forward, and the disk is deleted once -/

theorem step_forward {d d' : DiskDev} {a : Label} (hrun : RunInv d) (h : RemoveInv d)
    (hs : step d a = some d') : Forward d.status d'.status := by
  cases step_cases hs with
  | prepare hi => exact .inr (.inl ⟨hi, rfl⟩)
  | @outAdded i ok hq =>
    have hp : d.status = .prepared := (hrun.window i (by rw [hq]; rfl)).2
    cases ok with
    | true => exact .inr (.inr (.inl ⟨hp, rfl⟩))
    | false => exact .inl rfl
  | @store k hk hi =>
    show Forward d.status .removing
    cases hst : d.status with
    | init =>
      have := (h.early hst).1 k
      rw [hk] at this
      cases this
    | prepared => exact .inr (.inr (.inr (.inr ⟨rfl, rfl⟩)))
    | running => exact .inr (.inr (.inr (.inl ⟨rfl, rfl⟩)))
    | removing => exact .inl rfl
  | _ => exact .inl rfl

/-- The deletion, by the call that read RUNNING. -/
theorem RemoveInv.dels {d : DiskDev} (h : RemoveInv d) : d.dels ≤ 1 ∧ (0 < d.dels → d.added = true) := by
  by_cases hd : d.deleter = none
  · rw [(h.unread hd).1]
    exact ⟨by omega, fun e => absurd e (by omega)⟩
  · obtain ⟨k, hk⟩ := Option.ne_none_iff_exists'.mp hd
    obtain ⟨-, hadd, hdel⟩ := h.deleter k hk
    refine ⟨?_, fun _ => hadd⟩
    rcases hdel with ⟨-, e, -⟩ | ⟨-, e, -⟩ | ⟨-, e, -⟩ <;> omega

theorem RemoveInv.diskOnceAt {d : DiskDev} (hrun : RunInv d) (h : RemoveInv d) : DiskOnce d := by
  refine ⟨fun hi => ?_, fun i hw => (hrun.window i hw).1, h.dels.1, h.dels.2, fun hadd ⟨k, hk⟩ => ?_⟩
  · obtain ⟨i, hw⟩ := hrun.holder hi
    exact ⟨(hrun.window i hw).2, i, hw, fun j hj => hrun.unique j i hj hw⟩
  · have hst : d.status = .removing := h.past k (by simp [hk])
    obtain ⟨l, hl⟩ := Option.ne_none_iff_exists'.mp (h.read hadd hst)
    -- only the call that read RUNNING can be about to delete
    have only : ∀ m, d.removers m = .stored true → m = l := fun m hm =>
      Option.some.inj ((h.reader m (.inl hm)).symm.trans hl)
    rcases (h.deleter l hl).2.2 with ⟨e, h0, -⟩ | ⟨e, h1, -⟩ | ⟨e, h1, -⟩
    · exact .inr ⟨h0, l, e, only⟩
    · refine .inl ⟨h1, fun m hm => ?_⟩
      rw [only m hm, e] at hm
      cases hm
    · refine .inl ⟨h1, fun m hm => ?_⟩
      rw [only m hm, e] at hm
      cases hm

/-- In every run the status only moves forward, one run of the worker has
INTRANS, and the disk is deleted at most once, and if it was added. -/
theorem diskOnce (as : List Label) :
    lts.Steps (fun d _ d' => Forward d.status d'.status) initDiskDev as ∧
      lts.States DiskOnce initDiskDev as := by
  have hinit : RunInv initDiskDev ∧ RemoveInv initDiskDev := ⟨initDiskDev_runInv, initDiskDev_removeInv⟩
  have hstep : ∀ d a d', RunInv d ∧ RemoveInv d → step d a = some d' → RunInv d' ∧ RemoveInv d' :=
    fun _ _ _ h hs => ⟨step_runInv h.1 hs, step_removeInv h.1 h.2 hs⟩
  constructor
  · exact Lts.steps_of_steps (I := fun d => RunInv d ∧ RemoveInv d)
      (fun d a d' h hs _ => ⟨hstep d a d' h hs, step_forward h.1 h.2 hs⟩) hinit (Lts.steps_true _ as)
  · exact (Lts.states_of_steps (I := fun d => RunInv d ∧ RemoveInv d)
      (fun d a d' h hs _ => hstep d a d' h hs) hinit (Lts.steps_true _ as)).mono fun _ h => RemoveInv.diskOnceAt h.1 h.2

/-- Two calls of `ubbd_dev_remove_disk` on a running disk: the one that reads
REMOVING returns while the other is still to call `del_gendisk`. -/
theorem returned_before_del_gendisk :
    ∃ d, lts.exec initDiskDev [.prepare, .queueRun 0, .runStart, .runTest 0, .runAdd 0 true, .runOut 0,
        .removeCall 0 false, .removeCall 1 true, .removeStore 0, .removeStore 1, .removeSkip 1] = some d ∧
      d.added = true ∧ d.removers 1 = .done ∧ d.dels = 0 :=
  ⟨_, rfl, rfl, rfl, rfl⟩

/-! ## The disk is freed after its deletion -/

/-- What holds once the disk is freed: no run of the worker and no call of
`ubbd_dev_remove_disk` uses it any more. -/
structure Freed (d : DiskDev) : Prop where
  unlisted : d.listed = false
  noDisk : d.disk = false
  notRunning : d.status ≠ .running
  noneStored : ∀ k, d.removers k ≠ .stored true
  noneAdded : ∀ i ok, d.runs i ≠ .added ok
  deleted : d.added = true → d.delReturned = true

structure FreeInv (d : DiskDev) : Prop where
  early : d.status = .init → d.frees = 0
  kept : d.status ≠ .init → d.frees = 0 → d.disk = true
  listed : d.listed = true → d.frees = 0
  once : d.frees ≤ 1
  freed : 0 < d.frees → Freed d
  notNull : d.nullDel = false

theorem FreeInv.freedAfter {d : DiskDev} (h : FreeInv d) : FreedAfter d :=
  ⟨h.once, fun hf => (h.freed hf).deleted, h.notNull⟩

/-- The disk is there while something is about to use it. -/
theorem FreeInv.disk_of_not_freed {d : DiskDev} (h : FreeInv d) (hn : d.status ≠ .init) (hf : ¬ Freed d) :
    d.disk = true := by
  apply h.kept hn
  by_contra h0
  exact hf (h.freed (by omega))

/-- A step that does not free the disk. -/
theorem FreeInv.of_frees {d d' : DiskDev} (h : FreeInv d) (hi : d'.status = .init ↔ d.status = .init)
    (hl : d'.listed = d.listed) (hd : d'.disk = d.disk) (hf : d'.frees = d.frees) (hn : d'.nullDel = d.nullDel)
    (hfreed : Freed d → Freed d') : FreeInv d' := by
  refine ⟨fun e => ?_, fun e h0 => ?_, fun e => ?_, ?_, fun e => ?_, hn.trans h.notNull⟩
  · rw [hf]
    exact h.early (hi.mp e)
  · rw [hd]
    exact h.kept (mt hi.mpr e) (hf ▸ h0)
  · rw [hf]
    exact h.listed (hl ▸ e)
  · rw [hf]
    exact h.once
  · exact hfreed (h.freed (hf ▸ e))

/-- A call of `ubbd_dev_remove_disk` moves on. -/
theorem Freed.of_remover {d d' : DiskDev} (h : Freed d) {k : Nat} {r : Remover} (hr : r ≠ .stored true)
    (hrem : ∀ l, d'.removers l = if l = k then r else d.removers l) (hl : d'.listed = d.listed)
    (hd : d'.disk = d.disk) (hs : d'.status = .running → d.status = .running) (hruns : d'.runs = d.runs)
    (ha : d'.added = d.added) (ht : d.delReturned = true → d'.delReturned = true) : Freed d' := by
  refine ⟨hl.trans h.unlisted, hd.trans h.noDisk, mt hs h.notRunning, fun l => ?_, hruns ▸ h.noneAdded, fun e => ?_⟩
  · rw [hrem]
    split
    · exact hr
    · exact h.noneStored l
  · exact ht (h.deleted (ha ▸ e))

/-- A run of the worker moves on. -/
theorem Freed.of_run {d d' : DiskDev} (h : Freed d) {i : Nat} {r : Run} (hr : ∀ ok, r ≠ .added ok)
    (hruns : ∀ j, d'.runs j = if j = i then r else d.runs j) (hl : d'.listed = d.listed) (hd : d'.disk = d.disk)
    (hs : d'.status = d.status) (hrem : d'.removers = d.removers) (ha : d'.added = d.added)
    (ht : d'.delReturned = d.delReturned) : Freed d' := by
  refine ⟨hl.trans h.unlisted, hd.trans h.noDisk, hs ▸ h.notRunning, hrem ▸ h.noneStored, fun j ok => ?_, fun e => ?_⟩
  · rw [hruns]
    split
    · exact hr ok
    · exact h.noneAdded j ok
  · exact ht.trans (h.deleted (ha ▸ e))

/-- `ubbd_dev_remove_dev` frees the disk while no call is about to delete it,
or deleting it. -/
theorem FreeInv.removeDev {d : DiskDev} (hrun : RunInv d) (hrem : RemoveInv d) (h : FreeInv d)
    (hl : d.listed = true) (hi : d.intrans = false) (hst : d.status = .removing ∨ d.status = .prepared)
    (hnone : ∀ k, d.removers k ≠ .stored true ∧ d.removers k ≠ .deleting) :
    FreeInv { d with listed := false, disk := false, frees := d.frees + 1 } := by
  have h0 := h.listed hl
  have hn : d.status ≠ .init := by rcases hst with e | e <;> simp [e]
  have hr : d.status ≠ .running := by rcases hst with e | e <;> simp [e]
  have hadded : ∀ i ok, d.runs i ≠ .added ok := fun i ok e => by
    have := hrun.none_inWindow hi i
    rw [e] at this
    cases this
  refine ⟨fun e => absurd e hn, fun _ e => absurd e (by simp), nofun, ?_, fun _ => ?_, h.notNull⟩
  · show d.frees + 1 ≤ 1
    omega
  · refine ⟨rfl, rfl, hr, fun k => (hnone k).1, hadded, fun ha => ?_⟩
    have hst : d.status = .removing := by
      rcases hrun.shown ha with e | e | ⟨i, e⟩
      · exact absurd e hr
      · exact e
      · exact absurd e (hadded i true)
    obtain ⟨k, hk⟩ := Option.ne_none_iff_exists'.mp (hrem.read ha hst)
    rcases (hrem.deleter k hk).2.2 with ⟨e, -⟩ | ⟨e, -⟩ | ⟨-, -, e⟩
    · exact absurd e (hnone k).1
    · exact absurd e (hnone k).2
    · exact e

theorem FreeInv.prepare {d : DiskDev} (h : FreeInv d) (hi : d.status = .init) :
    FreeInv { d with status := .prepared, disk := true, listed := true } := by
  have h0 := h.early hi
  refine ⟨nofun, fun _ _ => rfl, fun _ => h0, h.once, fun e => ?_, h.notNull⟩
  have : 0 < d.frees := e
  omega

theorem step_freeInv {d d' : DiskDev} {a : Label} (hrun : RunInv d) (hrem : RemoveInv d) (h : FreeInv d)
    (hs : step d a = some d') (ha : NoneDeleting d a) : FreeInv d' := by
  cases step_cases hs with
  | prepare hi => exact h.prepare hi
  | @queueRun i =>
    exact h.of_frees Iff.rfl rfl rfl rfl rfl fun hf =>
      hf.of_run (r := .queued) nofun (DiskDev.setRun_runs d i _) rfl rfl rfl rfl rfl rfl
  | queuePending => exact h
  | runStart => exact h.of_frees Iff.rfl rfl rfl rfl rfl fun hf => ⟨hf.1, hf.2, hf.3, hf.4, hf.5, hf.6⟩
  | @runPut i =>
    exact h.of_frees Iff.rfl rfl rfl rfl rfl fun hf =>
      hf.of_run (r := .none) nofun (DiskDev.setRun_runs d i _) rfl rfl rfl rfl rfl rfl
  | @enter i =>
    exact h.of_frees Iff.rfl rfl rfl rfl rfl fun hf =>
      hf.of_run (r := .adding) nofun (DiskDev.setRun_runs _ i _) rfl rfl rfl rfl rfl rfl
  | @refuse i =>
    exact h.of_frees Iff.rfl rfl rfl rfl rfl fun hf =>
      hf.of_run (r := .refused) nofun (DiskDev.setRun_runs d i _) rfl rfl rfl rfl rfl rfl
  | runAdd hq hd =>
    refine h.of_frees Iff.rfl rfl rfl rfl rfl fun hf => ?_
    rw [hf.noDisk] at hd
    cases hd
  | @outAdded i ok hq =>
    have hp : d.status = .prepared := (hrun.window i (by rw [hq]; rfl)).2
    refine h.of_frees ?_ rfl rfl rfl rfl fun hf => absurd hq (hf.noneAdded i ok)
    cases ok <;> simp [DiskDev.setRun, hp]
  | @outRefused i =>
    exact h.of_frees Iff.rfl rfl rfl rfl rfl fun hf =>
      hf.of_run (r := .putting) nofun (DiskDev.setRun_runs _ i _) rfl rfl rfl rfl rfl rfl
  | @call k =>
    exact h.of_frees Iff.rfl rfl rfl rfl rfl fun hf =>
      hf.of_remover (r := .called) nofun (DiskDev.setRemover_removers d k _) rfl rfl id rfl rfl id
  | @store k hk =>
    have hn : d.status ≠ .init := fun e => by
      have := (hrem.early e).1 k
      rw [hk] at this
      cases this
    refine h.of_frees ⟨nofun, fun e => absurd e hn⟩ rfl rfl rfl rfl fun hf => ?_
    exact hf.of_remover (by simp [hf.notRunning]) (DiskDev.setRemover_removers d k _) rfl rfl nofun rfl rfl id
  | @skip k =>
    exact h.of_frees Iff.rfl rfl rfl rfl rfl fun hf =>
      hf.of_remover (r := .done) nofun (DiskDev.setRemover_removers d k _) rfl rfl id rfl rfl id
  | @delGendisk k hk =>
    have hst : d.status = .removing := hrem.past k (by simp [hk])
    have hd : d.disk = true := h.disk_of_not_freed (by simp [hst]) fun hf => hf.noneStored k hk
    exact h.of_frees Iff.rfl rfl rfl rfl (by simp [hd]) fun hf => absurd hk (hf.noneStored k)
  | @delReturn k =>
    exact h.of_frees Iff.rfl rfl rfl rfl rfl fun hf =>
      hf.of_remover (r := .done) nofun (DiskDev.setRemover_removers d k _) rfl rfl id rfl rfl fun _ => rfl
  | removeDevRefused => exact h
  | removeDev hl hi hst => exact .removeDev hrun hrem h hl hi hst (ha rfl)

/-- `ubbd_dev_remove_dev` frees an added disk that is not deleted yet. -/
theorem removeDev_not_freedAfter {d d' : DiskDev} {a : Label} (hrem : RemoveInv d) (hs : step d a = some d')
    (ha : ¬ NoneDeleting d a) : ¬ FreedAfter d' := by
  simp only [NoneDeleting, Classical.not_imp, not_forall] at ha
  obtain ⟨rfl, k, hk⟩ := ha
  rw [not_and_or, not_not, not_not] at hk
  obtain ⟨hst, hadd, hdel⟩ := hrem.deleter k (hrem.reader k hk)
  have hret : d.delReturned = false := by
    rcases hdel with ⟨-, -, e⟩ | ⟨-, -, e⟩ | ⟨e, -⟩
    · exact e
    · exact e
    · simp [e] at hk
  intro h
  cases step_cases hs with
  | removeDevRefused hno => exact hno.1 hst
  | removeDev =>
    have : d.delReturned = true := h.after (Nat.succ_pos _) hadd
    rw [this] at hret
    cases hret

theorem initDiskDev_freeInv : FreeInv initDiskDev := by
  constructor <;> simp [initDiskDev, initWorker]

/-- The disk is freed at most once and after its deletion exactly when
`ubbd_dev_remove_dev` finds no call between its reading of RUNNING and the
return of `del_gendisk`. -/
theorem freedAfter_iff (as : List Label) :
    lts.States FreedAfter initDiskDev as ↔ lts.Steps (fun d a _ => NoneDeleting d a) initDiskDev as :=
  Lts.states_iff_steps (I := fun d => RunInv d ∧ RemoveInv d ∧ FreeInv d) (fun _ h => h.2.2.freedAfter)
    (fun _ _ _ h hs ha => ⟨step_runInv h.1 hs, step_removeInv h.1 h.2.1 hs, step_freeInv h.1 h.2.1 h.2.2 hs ha⟩)
    (fun _ _ _ h hs ha => removeDev_not_freedAfter h.2.1 hs ha)
    ⟨initDiskDev_runInv, initDiskDev_removeInv, initDiskDev_freeInv⟩ as

/-- A timed-out request has stored REMOVING when the netlink command frees the
disk; then it calls `del_gendisk` on NULL. -/
theorem freed_before_del_gendisk :
    ∃ d, lts.exec initDiskDev [.prepare, .queueRun 0, .runStart, .runTest 0, .runAdd 0 true, .runOut 0,
        .removeCall 0 false, .removeStore 0, .removeDev, .delGendisk 0] = some d ∧
      d.frees = 1 ∧ d.added = true ∧ d.delReturned = false ∧ d.nullDel = true ∧ ¬ FreedAfter d := by
  refine ⟨_, rfl, rfl, rfl, rfl, rfl, fun h => ?_⟩
  cases h.nonNull

end Ubbd.Disk
