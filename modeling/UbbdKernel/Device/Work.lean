import Mathlib.Tactic.Common
import UbbdKernel.Device.Worker
import UbbdKernel.Framework.Lts

/-!
# The work item of `ubbd_dev_add_disk`

`ubbd_dev_add_disk` initialises the one work item of the device and queues it
for every command that reads status PREPARED, without a lock; a run of
`ubbd_add_disk_fn` changes the status at its end only, and only if `add_disk`
succeeded. Here the command's steps are apart, and the calls of `INIT_WORK`,
`ubbd_dev_get` and `ubbd_dev_put` counted: `INIT_WORK` on a pending item is an
error.

`oneRunEach_iff`: every accepted command gets one run, which drops the
command's reference, exactly when no command gets to `INIT_WORK` before the
runs of the commands accepted before it have ended.
-/

namespace Ubbd.Work

/-- Where `handle_cmd_add_disk` is. -/
inductive Handler
  | idle
  /-- `find_ubbd_dev` found the device. -/
  | found
  /-- `ubbd_dev_add_disk` read PREPARED. -/
  | tested
  /-- It has taken the reference for the worker. -/
  | got
  /-- It has initialised the work item. -/
  | inited
  deriving DecidableEq

structure WorkDev extends Device.Worker where
  /-- The device is on `ubbd_dev_list`. -/
  listed : Bool
  handler : Handler
  /-- `INIT_WORK` was called while the item was queued or running. -/
  reinit : Bool
  /-- The commands that returned 0, and the runs that started. -/
  accepted : Nat
  started : Nat
  /-- The calls of `ubbd_dev_get` in `ubbd_dev_add_disk`, and of `ubbd_dev_put`
  at the end of a run. -/
  gets : Nat
  puts : Nat

def initWorkDev : WorkDev where
  toWorker := Device.initWorker
  listed := false
  handler := .idle
  reinit := false
  accepted := 0
  started := 0
  gets := 0
  puts := 0

def WorkDev.queued (d : WorkDev) : Bool := d.pending.isSome

def WorkDev.running (d : WorkDev) : Bool := d.current.isSome

inductive Label
  /-- `ubbd_dev_add_dev`. -/
  | prepare
  /-- `handle_cmd_add_disk` finds the device. -/
  | find
  /-- `ubbd_dev_add_disk`: the unlocked test of the status; `-EINVAL` if it is
  not PREPARED. -/
  | test
  | get
  | initWork
  /-- As run `i`. -/
  | queueWork (i : Nat)
  /-- The worker. -/
  | start
  | runTest (i : Nat)
  | runAdd (i : Nat) (ok : Bool)
  | runOut (i : Nat)
  | runPut (i : Nat)
  /-- `ubbd_dev_remove_disk`, by netlink or by a timeout: its section. -/
  | removeDisk
  /-- `ubbd_dev_remove_dev`: its section. -/
  | removeDev

def step (d : WorkDev) : Label → Option WorkDev
  | .prepare =>
    if d.status = .init then some { d with status := .prepared, listed := true } else none
  | .find => if d.handler = .idle ∧ d.listed then some { d with handler := .found } else none
  | .test =>
    if d.handler = .found then
      if d.status ≠ .prepared then some { d with handler := .idle } else some { d with handler := .tested }
    else none
  | .get => if d.handler = .tested then some { d with handler := .got, gets := d.gets + 1 } else none
  | .initWork =>
    if d.handler = .got then
      some { d with handler := .inited, reinit := d.reinit || d.queued || d.running }
    else none
  | .queueWork i =>
    if d.handler = .inited then
      (d.toWorker.queueWork i).map fun w => { d with toWorker := w, handler := .idle, accepted := d.accepted + 1 }
    else none
  | .start => d.toWorker.start.map fun w => { d with toWorker := w, started := d.started + 1 }
  | .runTest i => (d.toWorker.runTest i).map fun w => { d with toWorker := w }
  | .runAdd i ok => (d.toWorker.runAdd i ok).map fun w => { d with toWorker := w }
  | .runOut i => (d.toWorker.runOut i).map fun w => { d with toWorker := w }
  | .runPut i => (d.toWorker.runPut i).map fun w => { d with toWorker := w, puts := d.puts + 1 }
  | .removeDisk =>
    if d.status ≠ .init ∧ d.intrans = false then some { d with status := .removing } else none
  | .removeDev =>
    if d.handler = .idle ∧ d.listed ∧ d.intrans = false then
      if d.status ≠ .removing ∧ d.status ≠ .prepared then some d else some { d with listed := false }
    else none

def lts : Lts WorkDev Label where
  init d := d = initWorkDev
  step := step

/-- The runs that are still to end: the pending one and the one that runs. -/
def WorkDev.unfinished (d : WorkDev) : Nat := d.queued.toNat + d.running.toNat

/-- The command holds the worker's reference, and has not queued the item yet. -/
def WorkDev.queueing (d : WorkDev) : Nat := if d.handler = .got ∨ d.handler = .inited then 1 else 0

/-- The item is never initialised while it is queued or running; the commands
that returned 0 are the runs that started and the one that is queued; and the
references taken for the worker are those that were dropped, those of the runs
that are still to end, and the one of the command that is about to queue. -/
structure OneRunEach (d : WorkDev) : Prop where
  fresh : d.reinit = false
  runs : d.accepted = d.started + d.queued.toNat
  refs : d.gets = d.puts + d.unfinished + d.queueing

/-- A command gets to `INIT_WORK` only when every command accepted before it
has had its run. -/
def Spaced (d : WorkDev) (a : Label) : Prop := a = .initWork → d.puts = d.accepted

/-! ## The invariant -/

structure WorkInv (d : WorkDev) : Prop where
  fresh : d.reinit = false
  accepted : d.accepted = d.puts + d.unfinished
  started : d.started = d.puts + d.running.toNat
  gets : d.gets = d.accepted + d.queueing
  /-- Nothing is pending when the command queues the item. -/
  clear : d.handler = .inited → d.unfinished = 0

theorem WorkInv.oneRunEach {d : WorkDev} (h : WorkInv d) : OneRunEach d := by
  obtain ⟨hf, ha, hs, hg, -⟩ := h
  unfold WorkDev.unfinished at ha
  refine ⟨hf, ?_, ?_⟩
  · omega
  · unfold WorkDev.unfinished
    omega

/-- A step that leaves the item and the command's place alone. -/
theorem WorkInv.of_eq {d d' : WorkDev} (h : WorkInv d) (hr : d'.reinit = d.reinit) (hq : d'.queued = d.queued)
    (hrun : d'.running = d.running) (hh : d'.queueing = d.queueing)
    (hi : d'.handler = .inited → d.handler = .inited) (ha : d'.accepted = d.accepted)
    (hs : d'.started = d.started) (hg : d'.gets = d.gets) (hp : d'.puts = d.puts) : WorkInv d' := by
  have hu : d'.unfinished = d.unfinished := by
    unfold WorkDev.unfinished
    rw [hq, hrun]
  refine ⟨hr.trans h.fresh, ?_, ?_, ?_, fun e => hu.trans (h.clear (hi e))⟩
  · rw [ha, hp, hu]
    exact h.accepted
  · rw [hs, hp, hrun]
    exact h.started
  · rw [hg, ha, hh]
    exact h.gets

/-- The item is idle exactly when every accepted command has had its run. -/
theorem WorkInv.spaced_iff {d : WorkDev} (h : WorkInv d) :
    d.puts = d.accepted ↔ d.queued = false ∧ d.running = false := by
  have ha := h.accepted
  unfold WorkDev.unfinished at ha
  constructor
  · intro e
    rw [e] at ha
    refine ⟨?_, ?_⟩
    · cases hq : d.queued with
      | false => rfl
      | true => simp [hq] at ha
    · cases hr : d.running with
      | false => rfl
      | true => simp [hr] at ha
  · rintro ⟨hq, hr⟩
    simpa [hq, hr] using ha.symm

theorem step_workInv {d d' : WorkDev} {a : Label} (h : WorkInv d) (hs : step d a = some d') (hc : Spaced d a) :
    WorkInv d' := by
  obtain ⟨hf, ha, hst, hg, hcl⟩ := id h
  cases a with
  | prepare | removeDisk =>
    simp only [step, Option.ite_none_right_eq_some, Option.some.injEq] at hs
    obtain ⟨-, rfl⟩ := hs
    exact h.of_eq rfl rfl rfl rfl id rfl rfl rfl rfl
  | find =>
    simp only [step, Option.ite_none_right_eq_some, Option.some.injEq] at hs
    obtain ⟨⟨hh, -⟩, rfl⟩ := hs
    exact h.of_eq rfl rfl rfl (by simp [WorkDev.queueing, hh]) nofun rfl rfl rfl rfl
  | test =>
    simp only [step, Option.ite_none_right_eq_some] at hs
    obtain ⟨hh, hs⟩ := hs
    split at hs <;> cases hs <;>
      exact h.of_eq rfl rfl rfl (by simp [WorkDev.queueing, hh]) nofun rfl rfl rfl rfl
  | get =>
    simp only [step, Option.ite_none_right_eq_some, Option.some.injEq] at hs
    obtain ⟨hh, rfl⟩ := hs
    refine ⟨hf, ha, hst, ?_, nofun⟩
    simpa [WorkDev.queueing, hh] using hg
  | initWork =>
    simp only [step, Option.ite_none_right_eq_some, Option.some.injEq] at hs
    obtain ⟨hh, rfl⟩ := hs
    obtain ⟨hq, hr⟩ := h.spaced_iff.mp (hc rfl)
    refine ⟨?_, ha, hst, ?_, fun _ => ?_⟩
    · simp [hf, hq, hr]
    · simpa [WorkDev.queueing, hh] using hg
    · show d.queued.toNat + d.running.toNat = 0
      simp [hq, hr]
  | queueWork i =>
    simp only [step, Option.ite_none_right_eq_some, Option.map_eq_some_iff] at hs
    obtain ⟨hh, w, hw, rfl⟩ := hs
    -- nothing is queued or running since `INIT_WORK`, so `queue_work` queues the item
    have h0 := hcl hh
    simp only [WorkDev.unfinished, WorkDev.queued, WorkDev.running, Nat.add_eq_zero_iff] at h0
    rcases Device.Worker.queueWork_cases hw with ⟨j, hp, -⟩ | ⟨-, -, rfl⟩
    · simp [hp] at h0
    · refine ⟨hf, ?_, hst, ?_, nofun⟩
      · have : d.accepted = d.puts + 0 := (hcl hh) ▸ ha
        show d.accepted + 1 = d.puts + (1 + d.current.isSome.toNat)
        omega
      · simpa [WorkDev.queueing, hh] using hg
  | start =>
    simp only [step, Option.map_eq_some_iff] at hs
    obtain ⟨w, hw, rfl⟩ := hs
    obtain ⟨i, hp, hc, rfl⟩ := Device.Worker.start_cases hw
    refine ⟨hf, ?_, ?_, hg, fun e => ?_⟩
    · simpa [WorkDev.unfinished, WorkDev.queued, WorkDev.running, hp, hc] using ha
    · simpa [WorkDev.running, hc] using hst
    · have := hcl e
      simp [WorkDev.unfinished, WorkDev.queued, hp] at this
  | runTest i =>
    simp only [step, Option.map_eq_some_iff] at hs
    obtain ⟨w, hw, rfl⟩ := hs
    obtain ⟨-, -, -, ⟨-, rfl⟩ | ⟨-, rfl⟩⟩ := Device.Worker.runTest_cases hw
    · exact h.of_eq rfl rfl rfl rfl id rfl rfl rfl rfl
    · exact h.of_eq rfl rfl rfl rfl id rfl rfl rfl rfl
  | runAdd i ok =>
    simp only [step, Option.map_eq_some_iff] at hs
    obtain ⟨w, hw, rfl⟩ := hs
    obtain ⟨-, -, rfl⟩ := Device.Worker.runAdd_cases hw
    exact h.of_eq rfl rfl rfl rfl id rfl rfl rfl rfl
  | runOut i =>
    simp only [step, Option.map_eq_some_iff] at hs
    obtain ⟨w, hw, rfl⟩ := hs
    obtain ⟨-, ⟨ok, -, rfl⟩ | ⟨-, rfl⟩⟩ := Device.Worker.runOut_cases hw
    · exact h.of_eq rfl rfl rfl rfl id rfl rfl rfl rfl
    · exact h.of_eq rfl rfl rfl rfl id rfl rfl rfl rfl
  | runPut i =>
    simp only [step, Option.map_eq_some_iff] at hs
    obtain ⟨w, hw, rfl⟩ := hs
    obtain ⟨hc, -, rfl⟩ := Device.Worker.runPut_cases hw
    simp only [WorkDev.unfinished, WorkDev.running, hc, Option.isSome_some, Bool.toNat_true] at ha hst hcl
    refine ⟨hf, ?_, ?_, hg, fun e => ?_⟩
    · show d.accepted = d.puts + 1 + (d.queued.toNat + 0)
      omega
    · show d.started = d.puts + 1 + 0
      omega
    · have := hcl e
      omega
  | removeDev =>
    simp only [step, Option.ite_none_right_eq_some] at hs
    obtain ⟨-, hs⟩ := hs
    split at hs <;> cases hs
    · exact h
    · exact h.of_eq rfl rfl rfl rfl id rfl rfl rfl rfl

/-- A command that gets to `INIT_WORK` earlier initialises an item in use. -/
theorem initWork_in_use {d d' : WorkDev} {a : Label} (h : WorkInv d) (hs : step d a = some d')
    (hc : ¬ Spaced d a) : d'.reinit = true := by
  simp only [Spaced, Classical.not_imp, h.spaced_iff] at hc
  obtain ⟨rfl, hc⟩ := hc
  simp only [step, Option.ite_none_right_eq_some, Option.some.injEq] at hs
  obtain ⟨-, rfl⟩ := hs
  cases hq : d.queued with
  | true => simp
  | false =>
    cases hr : d.running with
    | false => exact absurd ⟨hq, hr⟩ hc
    | true => simp

theorem initWorkDev_workInv : WorkInv initWorkDev := by
  constructor <;> simp [initWorkDev, Device.initWorker, WorkDev.unfinished, WorkDev.queued, WorkDev.running,
    WorkDev.queueing]

/-- Every accepted command gets one run of its own exactly when each command
gets to `INIT_WORK` after the runs of the commands before it have ended. -/
theorem oneRunEach_iff (as : List Label) :
    lts.States OneRunEach initWorkDev as ↔ lts.Steps (fun d a _ => Spaced d a) initWorkDev as := by
  refine Lts.states_iff_steps (I := WorkInv) (fun _ h => h.oneRunEach) (fun _ _ _ h hs hc => step_workInv h hs hc)
    (fun _ _ _ h hs hc hp => ?_) initWorkDev_workInv as
  have := hp.fresh
  rw [initWork_in_use h hs hc] at this
  cases this

/-- Two commands before the worker starts: both return 0, one run follows, and
one of the two references is never dropped. -/
theorem two_commands_one_run :
    ∃ d, lts.exec initWorkDev [.prepare, .find, .test, .get, .initWork, .queueWork 0, .find, .test, .get, .initWork,
        .queueWork 1, .start, .runTest 0, .runAdd 0 true, .runOut 0, .runPut 0] = some d ∧
      d.reinit = true ∧ d.queued = false ∧ d.running = false ∧ d.accepted = 2 ∧ d.started = 1 ∧ d.gets = 2 ∧
      d.puts = 1 ∧ ¬ OneRunEach d := by
  refine ⟨_, rfl, rfl, rfl, rfl, rfl, rfl, rfl, rfl, fun h => ?_⟩
  cases h.fresh

end Ubbd.Work
