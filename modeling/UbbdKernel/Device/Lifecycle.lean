import UbbdKernel.Device.Worker
import UbbdKernel.Framework.Lts

/-!
# The life of a device: netlink commands and the add-disk worker

One device from `ubbd_dev_add_dev` to its last reference, as the netlink
handlers (serialised with each other by generic netlink) and the add-disk
worker (interleaved in any way) change it. A section under
`ubbd_dev->state_lock` is one step; `ubbd_dev_state_get_lock` is not enabled
while `UBBD_DEV_STATUS_FLAG_INTRANS` is set, where the code spins.

`DiskKept` says what the worker relies on: in status PREPARED or RUNNING, and
from the worker's status check to its clearing of INTRANS, the device has a
disk. `ubbd_dev_remove_dev` accepts status PREPARED, frees the disk and
leaves the status as it is, so a run of the worker that is still queued then
passes its check without a disk (`remove_dev_before_worker`). A run of
commands keeps `DiskKept` exactly when no removal is accepted in status
PREPARED (`diskKept_iff`).
-/

namespace Ubbd.Device

/-- The netlink commands that look a device up. -/
inductive NlCmd
  | addDisk | removeDisk | removeDev
  deriving DecidableEq

/-- Where the netlink handler that runs has got to; `idle` if none runs. -/
inductive Handler
  | idle
  /-- `ubbd_dev_add_dev`: the device exists, in status INIT. -/
  | created
  /-- `ubbd_dev_add_dev`: `ubbd_dev_device_setup` returned 0. -/
  | setUp
  /-- `ubbd_dev_add_dev`: the status is PREPARED, the device not yet listed. -/
  | prepared
  /-- `handle_cmd_add_dev`: the device is listed, the reply to be sent. -/
  | replying
  /-- A command found the device and holds a reference. -/
  | found (cmd : NlCmd)
  /-- `ubbd_dev_add_disk` read status PREPARED. -/
  | queueing
  /-- `ubbd_dev_remove_disk` stored REMOVING; `diskIsRunning` is what it read. -/
  | deleting (diskIsRunning : Bool)
  /-- `ubbd_dev_remove_dev` runs; `held`: for a command that holds a reference
  of its own, rather than for the cleanup of `handle_cmd_add_dev`. -/
  | removing (held : Bool)
  /-- `ubbd_dev_remove_dev` freed the disk and is to drop the list's reference. -/
  | freed (held : Bool)
  /-- The command is to drop its own reference. -/
  | putting
  deriving DecidableEq

/-- The part of `struct ubbd_device` its life is about. -/
structure Dev extends Worker where
  /-- `ubbd_dev->disk != NULL`. -/
  disk : Bool
  /-- The device is on `ubbd_dev_list`. -/
  listed : Bool
  kref : Nat
  handler : Handler

/-- Before `ubbd_dev_add_dev`. -/
def initDev : Dev where
  toWorker := initWorker
  disk := false
  listed := false
  kref := 0
  handler := .idle

def Dev.setRun (d : Dev) (i : Nat) (r : Run) : Dev := { d with toWorker := d.toWorker.setRun i r }

inductive Label
  /-- `ubbd_dev_create`: an object of its own, made once. -/
  | create
  /-- `ubbd_dev_device_setup`; `disk`: whether `ubbd_init_disk` had set the
  disk when it failed. -/
  | setup (ok disk : Bool)
  | setPrepared
  | list
  /-- `ubbd_nl_reply_add_dev_done`. -/
  | reply (ok : Bool)
  /-- `find_ubbd_dev`. -/
  | find (cmd : NlCmd)
  /-- `ubbd_dev_add_disk`: the unlocked test of the status. -/
  | addDiskTest
  /-- `ubbd_dev_add_disk`: the reference and `queue_work`, as run `i`. -/
  | addDiskQueue (i : Nat)
  /-- `handle_cmd_remove_disk` found the device open and gives up. -/
  | removeDiskBusy
  /-- `ubbd_dev_remove_disk`: the section that stores REMOVING. -/
  | removeDiskStore
  /-- `del_gendisk`, if the disk ran. -/
  | delGendisk
  | removeDevCall
  /-- `ubbd_dev_remove_dev`: its section under `state_lock`. -/
  | removeDevSection
  | removeDevPut
  | put
  /-- The worker. -/
  | runStart
  | runTest (i : Nat)
  | runAdd (i : Nat) (ok : Bool)
  | runOut (i : Nat)
  | runPut (i : Nat)

def step (d : Dev) : Label → Option Dev
  | .create =>
    if d.handler = .idle ∧ d.kref = 0 ∧ d.status = .init ∧ d.disk = false then
      some { d with kref := 1, handler := .created }
    else none
  | .setup ok disk =>
    if d.handler = .created then
      if ok then some { d with disk := true, handler := .setUp }
      else some { d with disk := disk, kref := d.kref - 1, handler := .idle }
    else none
  | .setPrepared =>
    if d.handler = .setUp then some { d with status := .prepared, handler := .prepared } else none
  | .list =>
    if d.handler = .prepared then some { d with listed := true, handler := .replying } else none
  | .reply ok =>
    if d.handler = .replying then
      some { d with handler := if ok then .idle else .removing false }
    else none
  | .find cmd =>
    if d.handler = .idle ∧ d.listed then some { d with kref := d.kref + 1, handler := .found cmd }
    else none
  | .addDiskTest =>
    if d.handler = .found .addDisk then
      some { d with handler := if d.status = .prepared then .queueing else .putting }
    else none
  | .addDiskQueue i =>
    if d.handler = .queueing then
      (d.queueWork i).map fun w => { d with toWorker := w, kref := d.kref + 1, handler := .putting }
    else none
  | .removeDiskBusy =>
    if d.handler = .found .removeDisk then some { d with handler := .putting } else none
  | .removeDiskStore =>
    if d.handler = .found .removeDisk ∧ d.intrans = false then
      some { d with status := .removing, handler := .deleting (d.status = .running) }
    else none
  | .delGendisk =>
    match d.handler with
    | .deleting _ => some { d with handler := .putting }
    | _ => none
  | .removeDevCall =>
    if d.handler = .found .removeDev then some { d with handler := .removing true } else none
  | .removeDevSection =>
    match d.handler with
    | .removing held =>
      if d.intrans then none
      else if d.status ≠ .removing ∧ d.status ≠ .prepared then
        some { d with handler := if held then .putting else .idle }
      else some { d with listed := false, disk := false, handler := .freed held }
    | _ => none
  | .removeDevPut =>
    match d.handler with
    | .freed held =>
      some { d with kref := d.kref - 1, handler := if held then .putting else .idle }
    | _ => none
  | .put =>
    if d.handler = .putting then some { d with kref := d.kref - 1, handler := .idle } else none
  | .runStart => d.start.map fun w => { d with toWorker := w }
  | .runTest i => (d.toWorker.runTest i).map fun w => { d with toWorker := w }
  | .runAdd i ok => (d.toWorker.runAdd i ok).map fun w => { d with toWorker := w }
  | .runOut i => (d.toWorker.runOut i).map fun w => { d with toWorker := w }
  | .runPut i => (d.toWorker.runPut i).map fun w => { d with toWorker := w, kref := d.kref - 1 }

def lts : Lts Dev Label where
  init d := d = initDev
  step := step

/-- The worker's disk: no run between its check and its clearing of INTRANS
is without one. -/
def WorkerDisk (d : Dev) : Prop := ∀ i, (d.runs i).inWindow = true → d.disk = true

/-- The worker has its disk, and status PREPARED or RUNNING comes with one. -/
def DiskKept (d : Dev) : Prop :=
  (d.status = .prepared ∨ d.status = .running → d.disk = true) ∧ WorkerDisk d

/-- The section of `ubbd_dev_remove_dev` is not taken in status PREPARED. -/
def NotPrepared (d : Dev) (a : Label) : Prop := a = .removeDevSection → d.status ≠ .prepared

/-- The section of `ubbd_dev_remove_dev` is not taken in status PREPARED
while a run of the worker is queued, or short of its first section. -/
def NoneQueued (d : Dev) (a : Label) : Prop :=
  a = .removeDevSection → d.status = .prepared → ∀ i, d.runs i ≠ .queued

/-! ## What a step can do -/

/-- The steps, each with its guard. -/
inductive DevStep (d : Dev) : Label → Dev → Prop
  | create (idle : d.handler = .idle) (zero : d.kref = 0) (init : d.status = .init) :
    DevStep d .create { d with kref := 1, handler := .created }
  | setup {disk : Bool} (created : d.handler = .created) :
    DevStep d (.setup true disk) { d with disk := true, handler := .setUp }
  | setupFailed {disk : Bool} (created : d.handler = .created) :
    DevStep d (.setup false disk) { d with disk := disk, kref := d.kref - 1, handler := .idle }
  | setPrepared (setUp : d.handler = .setUp) :
    DevStep d .setPrepared { d with status := .prepared, handler := .prepared }
  | list (prepared : d.handler = .prepared) : DevStep d .list { d with listed := true, handler := .replying }
  | reply (replying : d.handler = .replying) : DevStep d (.reply true) { d with handler := .idle }
  | replyFailed (replying : d.handler = .replying) :
    DevStep d (.reply false) { d with handler := .removing false }
  | find {cmd : NlCmd} (idle : d.handler = .idle) (listed : d.listed = true) :
    DevStep d (.find cmd) { d with kref := d.kref + 1, handler := .found cmd }
  | addDiskTest (found : d.handler = .found .addDisk) (prepared : d.status = .prepared) :
    DevStep d .addDiskTest { d with handler := .queueing }
  | addDiskRefused (found : d.handler = .found .addDisk) (other : d.status ≠ .prepared) :
    DevStep d .addDiskTest { d with handler := .putting }
  | addDiskQueue {i : Nat} (queueing : d.handler = .queueing) (new : d.runs i = .none) (free : d.pending = .none) :
    DevStep d (.addDiskQueue i)
      ({ d with kref := d.kref + 1, handler := .putting, pending := some i }.setRun i .queued)
  | addDiskPending {i j : Nat} (queueing : d.handler = .queueing) (pending : d.pending = some j) :
    DevStep d (.addDiskQueue i) { d with kref := d.kref + 1, handler := .putting }
  | removeDiskBusy (found : d.handler = .found .removeDisk) :
    DevStep d .removeDiskBusy { d with handler := .putting }
  | removeDiskStore (found : d.handler = .found .removeDisk) (quiet : d.intrans = false) :
    DevStep d .removeDiskStore { d with status := .removing, handler := .deleting (d.status = .running) }
  | delGendisk {b : Bool} (deleting : d.handler = .deleting b) :
    DevStep d .delGendisk { d with handler := .putting }
  | removeDevCall (found : d.handler = .found .removeDev) :
    DevStep d .removeDevCall { d with handler := .removing true }
  | removeDevRefused {held : Bool} (removing : d.handler = .removing held)
      (other : d.status ≠ .removing ∧ d.status ≠ .prepared) :
    DevStep d .removeDevSection { d with handler := if held then .putting else .idle }
  | removeDevSection {held : Bool} (removing : d.handler = .removing held) (quiet : d.intrans = false)
      (allowed : d.status = .removing ∨ d.status = .prepared) :
    DevStep d .removeDevSection { d with listed := false, disk := false, handler := .freed held }
  | removeDevPut {held : Bool} (freed : d.handler = .freed held) :
    DevStep d .removeDevPut { d with kref := d.kref - 1, handler := if held then .putting else .idle }
  | put (putting : d.handler = .putting) : DevStep d .put { d with kref := d.kref - 1, handler := .idle }
  | runStart {i : Nat} (pending : d.pending = some i) (idle : d.current = .none) :
    DevStep d .runStart { d with pending := .none, current := some i }
  | enter {i : Nat} (queued : d.runs i = .queued) (quiet : d.intrans = false) (prepared : d.status = .prepared)
      (current : d.current = some i) : DevStep d (.runTest i) ({ d with intrans := true }.setRun i .adding)
  | refuse {i : Nat} (queued : d.runs i = .queued) (other : d.status ≠ .prepared) (current : d.current = some i) :
    DevStep d (.runTest i) (d.setRun i .refused)
  | runAdd {i : Nat} {ok : Bool} (adding : d.runs i = .adding) : DevStep d (.runAdd i ok) (d.setRun i (.added ok))
  | outAdded {i : Nat} {ok : Bool} (added : d.runs i = .added ok) :
    DevStep d (.runOut i)
      ({ d with intrans := false, status := if ok then .running else d.status }.setRun i .putting)
  | outRefused {i : Nat} (refused : d.runs i = .refused) :
    DevStep d (.runOut i) ({ d with intrans := false }.setRun i .putting)
  | runPut {i : Nat} (putting : d.runs i = .putting) (current : d.current = some i) :
    DevStep d (.runPut i) ({ d with kref := d.kref - 1, current := .none }.setRun i .none)

theorem step_cases {d d' : Dev} {a : Label} (hs : step d a = some d') : DevStep d a d' := by
  cases a with
  | create =>
    simp only [step, Option.ite_none_right_eq_some, Option.some.injEq] at hs
    obtain ⟨⟨hh, hk, hi, -⟩, rfl⟩ := hs
    exact .create hh hk hi
  | setup ok disk =>
    simp only [step, Option.ite_none_right_eq_some] at hs
    obtain ⟨hh, hs⟩ := hs
    cases ok with
    | true =>
      cases hs
      exact .setup hh
    | false =>
      cases hs
      exact .setupFailed hh
  | setPrepared =>
    simp only [step, Option.ite_none_right_eq_some, Option.some.injEq] at hs
    obtain ⟨hh, rfl⟩ := hs
    exact .setPrepared hh
  | list =>
    simp only [step, Option.ite_none_right_eq_some, Option.some.injEq] at hs
    obtain ⟨hh, rfl⟩ := hs
    exact .list hh
  | reply ok =>
    simp only [step, Option.ite_none_right_eq_some, Option.some.injEq] at hs
    obtain ⟨hh, rfl⟩ := hs
    cases ok with
    | true => exact .reply hh
    | false => exact .replyFailed hh
  | find cmd =>
    simp only [step, Option.ite_none_right_eq_some, Option.some.injEq] at hs
    obtain ⟨⟨hh, hl⟩, rfl⟩ := hs
    exact .find hh hl
  | addDiskTest =>
    simp only [step, Option.ite_none_right_eq_some, Option.some.injEq] at hs
    obtain ⟨hh, rfl⟩ := hs
    by_cases hp : d.status = .prepared
    · rw [if_pos hp]
      exact .addDiskTest hh hp
    · rw [if_neg hp]
      exact .addDiskRefused hh hp
  | addDiskQueue i =>
    simp only [step, Option.ite_none_right_eq_some, Option.map_eq_some_iff] at hs
    obtain ⟨hh, w, hw, rfl⟩ := hs
    rcases Worker.queueWork_cases hw with ⟨j, hp, rfl⟩ | ⟨hp, hi, rfl⟩
    · exact .addDiskPending hh hp
    · exact .addDiskQueue hh hi hp
  | removeDiskBusy =>
    simp only [step, Option.ite_none_right_eq_some, Option.some.injEq] at hs
    obtain ⟨hh, rfl⟩ := hs
    exact .removeDiskBusy hh
  | removeDiskStore =>
    simp only [step, Option.ite_none_right_eq_some, Option.some.injEq] at hs
    obtain ⟨⟨hh, hi⟩, rfl⟩ := hs
    exact .removeDiskStore hh hi
  | delGendisk =>
    simp only [step] at hs
    split at hs <;> cases hs
    exact .delGendisk ‹_›
  | removeDevCall =>
    simp only [step, Option.ite_none_right_eq_some, Option.some.injEq] at hs
    obtain ⟨hh, rfl⟩ := hs
    exact .removeDevCall hh
  | removeDevSection =>
    simp only [step] at hs
    split at hs <;> [skip; cases hs]
    rename_i held hh
    split at hs <;> [cases hs; skip]
    rename_i hi
    split at hs <;> cases hs
    · exact .removeDevRefused hh ‹_›
    · rename_i hst
      refine .removeDevSection hh (by simpa using hi) ?_
      by_contra hn
      exact hst (not_or.mp hn)
  | removeDevPut =>
    simp only [step] at hs
    split at hs <;> cases hs
    exact .removeDevPut ‹_›
  | put =>
    simp only [step, Option.ite_none_right_eq_some, Option.some.injEq] at hs
    obtain ⟨hh, rfl⟩ := hs
    exact .put hh
  | runStart =>
    simp only [step, Option.map_eq_some_iff] at hs
    obtain ⟨w, hw, rfl⟩ := hs
    obtain ⟨i, hp, hc, rfl⟩ := Worker.start_cases hw
    exact .runStart hp hc
  | runTest i =>
    simp only [step, Option.map_eq_some_iff] at hs
    obtain ⟨w, hw, rfl⟩ := hs
    obtain ⟨hc, hq, hi, ⟨hp, rfl⟩ | ⟨hp, rfl⟩⟩ := Worker.runTest_cases hw
    · exact .enter hq hi hp hc
    · exact .refuse hq hp hc
  | runAdd i ok =>
    simp only [step, Option.map_eq_some_iff] at hs
    obtain ⟨w, hw, rfl⟩ := hs
    obtain ⟨-, hq, rfl⟩ := Worker.runAdd_cases hw
    exact .runAdd hq
  | runOut i =>
    simp only [step, Option.map_eq_some_iff] at hs
    obtain ⟨w, hw, rfl⟩ := hs
    obtain ⟨-, ⟨ok, hq, rfl⟩ | ⟨hq, rfl⟩⟩ := Worker.runOut_cases hw
    · exact .outAdded hq
    · exact .outRefused hq
  | runPut i =>
    simp only [step, Option.map_eq_some_iff] at hs
    obtain ⟨w, hw, rfl⟩ := hs
    obtain ⟨hc, hq, rfl⟩ := Worker.runPut_cases hw
    exact .runPut hq hc

theorem Dev.setRun_runs (d : Dev) (i : Nat) (r : Run) (j : Nat) :
    (d.setRun i r).runs j = if j = i then r else d.runs j :=
  Worker.setRun_runs d.toWorker i j r

/-- A step of run `i` puts no other run in the window. -/
theorem Dev.setRun_inWindow {d : Dev} {i j : Nat} {r : Run} (hw : r.inWindow = true → (d.runs i).inWindow = true)
    (hj : ((d.setRun i r).runs j).inWindow = true) : (d.runs j).inWindow = true := by
  rw [Dev.setRun_runs] at hj
  split at hj
  · rename_i e
    exact e ▸ hw hj
  · exact hj

theorem Dev.setRun_past {d : Dev} {i j : Nat} {r : Run} (hr : r.inWindow = false)
    (hj : ((d.setRun i r).runs j).inWindow = true) : (d.runs j).inWindow = true :=
  Dev.setRun_inWindow (fun e => by rw [hr] at e; cases e) hj

/-- A step of run `i` queues no other run. -/
theorem Dev.setRun_ne {d : Dev} {i j : Nat} {r x : Run} (hr : r ≠ x) (hj : d.runs j ≠ x) :
    (d.setRun i r).runs j ≠ x := by
  rw [Dev.setRun_runs]
  split
  · exact hr
  · exact hj

theorem step_item {d d' : Dev} {a : Label} (h : d.toWorker.Ok) (hs : step d a = some d') : d'.toWorker.Ok := by
  cases a
  case addDiskQueue i =>
    simp only [step, Option.ite_none_right_eq_some, Option.map_eq_some_iff] at hs
    obtain ⟨-, w, hw, rfl⟩ := hs
    exact h.queueWork hw
  case runStart =>
    simp only [step, Option.map_eq_some_iff] at hs
    obtain ⟨w, hw, rfl⟩ := hs
    exact h.start hw
  case runTest i =>
    simp only [step, Option.map_eq_some_iff] at hs
    obtain ⟨w, hw, rfl⟩ := hs
    exact h.runTest hw
  case runAdd i ok =>
    simp only [step, Option.map_eq_some_iff] at hs
    obtain ⟨w, hw, rfl⟩ := hs
    exact h.runAdd hw
  case runOut i =>
    simp only [step, Option.map_eq_some_iff] at hs
    obtain ⟨w, hw, rfl⟩ := hs
    exact h.runOut hw
  case runPut i =>
    simp only [step, Option.map_eq_some_iff] at hs
    obtain ⟨w, hw, rfl⟩ := hs
    exact h.runPut hw
  -- the handlers leave the item alone
  all_goals cases step_cases hs <;> exact h.congr rfl rfl rfl

/-! ## What every run keeps -/

/-- What holds of status, INTRANS, handler and runs whatever is removed when:
at most one run is in its window, with INTRANS set and the status PREPARED;
a run that was refused saw the status past PREPARED; and in status INIT there
is no run and the device is not to be found. -/
structure Core (d : Dev) : Prop where
  window : ∀ i, (d.runs i).inWindow = true → d.intrans = true ∧ d.status = .prepared
  unique : ∀ i j, (d.runs i).inWindow = true → (d.runs j).inWindow = true → i = j
  refused : ∀ i, d.runs i = .refused → d.status = .running ∨ d.status = .removing
  early : d.handler = .created ∨ d.handler = .setUp → d.status = .init
  noRun : d.status = .init → ∀ i, d.runs i = .none
  noCmd : d.status = .init → d.listed = false ∧
    (d.handler = .idle ∨ d.handler = .created ∨ d.handler = .setUp)

theorem initDev_core : Core initDev where
  window := fun _ h => by cases h
  unique := fun _ _ h => by cases h
  refused := fun _ h => by cases h
  early := fun _ => rfl
  noRun := fun _ _ => rfl
  noCmd := fun _ => ⟨rfl, .inl rfl⟩

/-- A step that changes no run keeps `Core` if it keeps what `Core` says of
status, INTRANS and handler. -/
theorem Core.of_runs {d d' : Dev} (h : Core d) (hr : d'.runs = d.runs)
    (hst : ∀ i, (d.runs i).inWindow = true → d'.intrans = true ∧ d'.status = .prepared)
    (hrf : ∀ i, d.runs i = .refused → d'.status = .running ∨ d'.status = .removing)
    (he : d'.handler = .created ∨ d'.handler = .setUp → d'.status = .init)
    (hi : d'.status = .init → d.status = .init)
    (hc : d'.status = .init → d'.listed = false ∧
      (d'.handler = .idle ∨ d'.handler = .created ∨ d'.handler = .setUp)) : Core d' where
  window := fun i hw => hst i (hr ▸ hw)
  unique := fun i j hi hj => h.unique i j (hr ▸ hi) (hr ▸ hj)
  refused := fun i hw => hrf i (hr ▸ hw)
  early := he
  noRun := fun e i => by rw [hr]; exact h.noRun (hi e) i
  noCmd := hc

/-- A handler step that leaves status, INTRANS and runs alone. -/
theorem Core.of_handler {d d' : Dev} (h : Core d) (hr : d'.runs = d.runs)
    (hi : d'.intrans = d.intrans) (hs : d'.status = d.status)
    (he : d'.handler = .created ∨ d'.handler = .setUp → d.status = .init)
    (hc : d.status = .init → d'.listed = false ∧
      (d'.handler = .idle ∨ d'.handler = .created ∨ d'.handler = .setUp)) : Core d' :=
  h.of_runs hr (fun i hw => by rw [hi, hs]; exact h.window i hw)
    (fun i hw => by rw [hs]; exact h.refused i hw) (fun e => hs ▸ he e) (fun e => hs ▸ e)
    (fun e => hc (hs ▸ e))

/-- A step of run `i` that leaves status, INTRANS and handler alone, and does
not enter the window. -/
theorem Core.of_run {d : Dev} (h : Core d) {i : Nat} {r : Run} (hn : d.runs i ≠ .none)
    (hw : r.inWindow = true → (d.runs i).inWindow = true)
    (hf : r = .refused → d.status = .running ∨ d.status = .removing) : Core (d.setRun i r) where
  window := fun j hj => h.window j (Dev.setRun_inWindow hw hj)
  unique := fun j k hj hk => h.unique j k (Dev.setRun_inWindow hw hj) (Dev.setRun_inWindow hw hk)
  refused := fun j hj => by
    rw [Dev.setRun_runs] at hj
    split at hj
    · exact hf hj
    · exact h.refused j hj
  early := h.early
  noRun := fun e => absurd (h.noRun e i) hn
  noCmd := h.noCmd

/-- Queueing run `i`, of a device past INIT. -/
theorem Core.of_queue {d : Dev} (h : Core d) (hn : d.status ≠ .init) (i k : Nat) :
    Core ({ d with kref := k, handler := .putting, pending := some i }.setRun i .queued) where
  window := fun j hj => h.window j (Dev.setRun_past rfl hj)
  unique := fun j l hj hl => h.unique j l (Dev.setRun_past rfl hj) (Dev.setRun_past rfl hl)
  refused := fun j hj => h.refused j (by
    rw [Dev.setRun_runs] at hj
    split at hj
    · cases hj
    · exact hj)
  early := fun e => by simp [Dev.setRun] at e
  noRun := fun e => absurd e hn
  noCmd := fun e => absurd e hn

/-- The clearing of INTRANS at `out`, by the one run that is in the window or
by one that was refused. -/
theorem Core.of_out {d : Dev} (h : Core d) {i : Nat} {st : DevStatus}
    (hi : (d.runs i).inWindow = true ∨ d.runs i = .refused)
    (hst : st = d.status ∨ st = .running) :
    Core ({ d with intrans := false, status := st }.setRun i .putting) := by
  have hni : d.status ≠ .init := fun e => by
    have := h.noRun e i
    rcases hi with hi | hi <;> rw [this] at hi <;> cases hi
  have hnst : st ≠ .init := by
    rcases hst with rfl | rfl
    · exact hni
    · decide
  have none : ∀ j, j ≠ i → (d.runs j).inWindow = true → False := by
    intro j hj hw
    rcases hi with hi | hi
    · exact hj (h.unique j i hw hi)
    · have := (h.window j hw).2
      rcases h.refused i hi with e | e <;> rw [e] at this <;> cases this
  have out : ∀ j, (({ d with intrans := false, status := st }.setRun i .putting).runs j).inWindow = true →
      False := by
    intro j hj
    rw [Dev.setRun_runs] at hj
    split at hj
    · cases hj
    · rename_i e
      exact none j e hj
  exact {
    window := fun j hj => (out j hj).elim
    unique := fun j _ hj => (out j hj).elim
    refused := fun j hj => by
      rw [Dev.setRun_runs] at hj
      split at hj
      · cases hj
      · rcases hst with rfl | rfl
        · exact h.refused j hj
        · exact .inl rfl
    early := fun e => absurd (h.early e) hni
    noRun := fun e => absurd e hnst
    noCmd := fun e => absurd e hnst }

/-- The first section of a run that finds PREPARED. -/
theorem Core.of_enter {d : Dev} (h : Core d) {i : Nat} (hi : d.intrans = false)
    (hs : d.status = .prepared) : Core ({ d with intrans := true }.setRun i .adding) := by
  have only : ∀ j, (({ d with intrans := true }.setRun i .adding).runs j).inWindow = true → j = i := by
    intro j hj
    rw [Dev.setRun_runs] at hj
    split at hj
    · assumption
    · have := (h.window j hj).1
      rw [hi] at this
      cases this
  exact {
    window := fun _ _ => ⟨rfl, hs⟩
    unique := fun j k hj hk => (only j hj).trans (only k hk).symm
    refused := fun j hj => by
      rw [Dev.setRun_runs] at hj
      split at hj
      · cases hj
      · exact h.refused j hj
    early := h.early
    noRun := fun e => absurd (hs.symm.trans e) (by decide)
    noCmd := h.noCmd }

/-- A handler past the setup has a device past INIT. -/
theorem Core.past {d : Dev} (h : Core d) {x : Handler} (hx : d.handler = x)
    (hn : x ≠ .idle ∧ x ≠ .created ∧ x ≠ .setUp) : d.status ≠ .init := by
  intro e
  rcases (h.noCmd e).2 with e' | e' | e'
  · exact hn.1 (hx.symm.trans e')
  · exact hn.2.1 (hx.symm.trans e')
  · exact hn.2.2 (hx.symm.trans e')

theorem step_core {d d' : Dev} {a : Label} (h : Core d) (hs : step d a = some d') : Core d' := by
  cases step_cases hs with
  | create _ _ init => exact h.of_handler rfl rfl rfl (fun _ => init) (fun e => ⟨(h.noCmd e).1, .inr (.inl rfl)⟩)
  | setup created =>
    exact h.of_handler rfl rfl rfl (fun _ => h.early (.inl created))
      (fun e => ⟨(h.noCmd e).1, .inr (.inr rfl)⟩)
  | setupFailed created =>
    exact h.of_handler rfl rfl rfl (fun _ => h.early (.inl created)) (fun e => ⟨(h.noCmd e).1, .inl rfl⟩)
  | setPrepared setUp =>
    have hn := h.noRun (h.early (.inr setUp))
    exact h.of_runs rfl (fun i hw => by rw [hn i] at hw; cases hw)
      (fun i hw => by rw [hn i] at hw; cases hw) (fun e => by simp at e) nofun nofun
  | find _ listed =>
    exact h.of_handler rfl rfl rfl (fun e => by simp at e)
      (fun e => by rw [(h.noCmd e).1] at listed; cases listed)
  | addDiskQueue queueing new => exact h.of_queue (h.past queueing (by simp)) _ _
  | removeDiskStore _ quiet =>
    exact h.of_runs rfl (fun i hw => by rw [(h.window i hw).1] at quiet; cases quiet)
      (fun _ _ => .inr rfl) (fun e => by simp at e) nofun nofun
  | list hh | reply hh | replyFailed hh | addDiskTest hh _ | addDiskRefused hh _ | addDiskPending hh _
  | removeDiskBusy hh | delGendisk hh | removeDevCall hh | removeDevSection hh _ _ | put hh =>
    have hn := h.past hh (by simp)
    exact h.of_handler rfl rfl rfl (fun e => by simp at e) (fun e => absurd e hn)
  | @removeDevRefused held hh _ | @removeDevPut held hh =>
    have hn := h.past hh (by simp)
    exact h.of_handler rfl rfl rfl (fun e => by cases held <;> simp at e) (fun e => absurd e hn)
  | runStart _ _ => exact h.of_handler rfl rfl rfl h.early h.noCmd
  | enter _ quiet prepared _ => exact h.of_enter quiet prepared
  | @refuse i queued other _ =>
    refine h.of_run (by simp [queued]) (fun e => by cases e) fun _ => ?_
    have hn : d.status ≠ .init := fun e => by rw [h.noRun e i] at queued; cases queued
    cases hst : d.status <;> simp_all
  | runAdd adding => exact h.of_run (by simp [adding]) (fun _ => by rw [adding]; rfl) nofun
  | @outAdded i ok added => exact h.of_out (.inl (by rw [added]; rfl)) (by cases ok <;> simp)
  | outRefused refused => exact h.of_out (.inr refused) (.inl rfl)
  | runPut putting _ =>
    exact (h.of_run (r := .none) (by simp [putting]) (fun e => by cases e) nofun).of_handler rfl rfl rfl h.early h.noCmd

/-! ## The disk -/

/-- What a step does to disk, status and windows: it keeps the disk, enters a
window or RUNNING only from PREPARED or a window, and PREPARED only with a
disk, but for the two steps that set the disk and free it. -/
theorem step_disk {d d' : Dev} {a : Label} (hs : step d a = some d') :
    (∃ ok disk, a = .setup ok disk ∧ d.handler = .created ∧ d'.status = d.status ∧ d'.runs = d.runs) ∨
    (a = .removeDevSection ∧ d.intrans = false ∧ d'.status = d.status ∧ d'.runs = d.runs ∧
      (d.status = .removing ∨ d.status = .prepared) ∧ d'.disk = false) ∨
    (d'.disk = d.disk ∧
      (d'.status = .prepared → d.status = .prepared ∨ d.handler = .setUp) ∧
      (d'.status = .running → d.status = .running ∨ ∃ i, (d.runs i).inWindow = true) ∧
      ∀ i, (d'.runs i).inWindow = true →
        (d.runs i).inWindow = true ∨ (d.status = .prepared ∧ d.runs i = .queued)) := by
  cases step_cases hs with
  | setup created | setupFailed created => exact .inl ⟨_, _, rfl, created, rfl, rfl⟩
  | removeDevSection _ quiet allowed => exact .inr (.inl ⟨rfl, quiet, rfl, rfl, allowed, rfl⟩)
  | setPrepared setUp => exact .inr (.inr ⟨rfl, fun _ => .inr setUp, nofun, fun _ h => .inl h⟩)
  | removeDiskStore _ _ => exact .inr (.inr ⟨rfl, nofun, nofun, fun _ h => .inl h⟩)
  | enter queued _ prepared _ =>
    refine .inr (.inr ⟨rfl, .inl, .inl, fun j hj => ?_⟩)
    rw [Dev.setRun_runs] at hj
    split at hj
    · rename_i e
      exact .inr ⟨prepared, e ▸ queued⟩
    · exact .inl hj
  | @outAdded i ok added =>
    refine .inr (.inr ⟨rfl, fun e => .inl ?_, fun _ => .inr ⟨i, by rw [added]; rfl⟩,
      fun j hj => .inl (Dev.setRun_past rfl hj)⟩)
    cases ok with
    | false => exact e
    | true => cases e
  | runAdd adding =>
    exact .inr (.inr ⟨rfl, .inl, .inl, fun j hj => .inl (Dev.setRun_inWindow (fun _ => by rw [adding]; rfl) hj)⟩)
  | refuse _ _ _ | outRefused _ | runPut _ _ | addDiskQueue _ _ _ =>
    exact .inr (.inr ⟨rfl, .inl, .inl, fun j hj => .inl (Dev.setRun_past rfl hj)⟩)
  | create _ _ _ | list _ | reply _ | replyFailed _ | find _ _ | addDiskTest _ _ | addDiskRefused _ _
  | addDiskPending _ _ | runStart _ _ | removeDiskBusy _ | delGendisk _ | removeDevCall _ | removeDevRefused _ _
  | removeDevPut _ | put _ =>
    exact .inr (.inr ⟨rfl, .inl, .inl, fun _ h => .inl h⟩)

/-- `ubbd_dev_device_setup` returned 0 with the disk set. -/
theorem step_setUp {d d' : Dev} {a : Label} (hu : d.handler = .setUp → d.disk = true)
    (hs : step d a = some d') : d'.handler = .setUp → d'.disk = true := by
  intro hh
  cases step_cases hs with
  | setup _ => rfl
  | runStart _ _ | enter _ _ _ _ | refuse _ _ _ | runAdd _ | outAdded _ | outRefused _ | runPut _ _ => exact hu hh
  | @removeDevRefused held _ _ | @removeDevPut held _ => cases held <;> cases hh
  | create _ _ _ | setupFailed _ | setPrepared _ | list _ | reply _ | replyFailed _ | find _ _
  | addDiskTest _ _ | addDiskRefused _ _ | addDiskQueue _ _ _ | addDiskPending _ _ | removeDiskBusy _
  | removeDiskStore _ _ | delGendisk _ | removeDevCall _ | removeDevSection _ _ _ | put _ => cases hh

theorem step_diskKept {d d' : Dev} {a : Label} (hc : Core d) (hk : DiskKept d)
    (hu : d.handler = .setUp → d.disk = true) (hs : step d a = some d') (hn : NotPrepared d a) :
    DiskKept d' := by
  obtain ⟨_, _, _, hh, hst, hr⟩ | ⟨ha, hi, hst, hr, hp, _⟩ | ⟨hd, h1, h2, h3⟩ := step_disk hs
  · have hinit := hc.early (.inl hh)
    constructor
    · intro h
      rw [hst, hinit] at h
      rcases h with h | h <;> cases h
    · intro i hw
      rw [hr, hc.noRun hinit i] at hw
      cases hw
  · have hrem : d.status = .removing := hp.resolve_right (hn ha)
    constructor
    · intro h
      rw [hst, hrem] at h
      rcases h with h | h <;> cases h
    · intro i hw
      rw [hr] at hw
      rw [(hc.window i hw).1] at hi
      cases hi
  · rw [DiskKept, WorkerDisk, hd]
    constructor
    · rintro (h | h)
      · exact (h1 h).elim (fun h => hk.1 (.inl h)) hu
      · exact (h2 h).elim (fun h => hk.1 (.inr h)) fun ⟨i, hw⟩ => hk.2 i hw
    · intro i hw
      exact (h3 i hw).elim (hk.2 i) fun h => hk.1 (.inl h.1)

/-- A removal that is accepted in status PREPARED leaves the status without a
disk. -/
theorem step_prepared {d d' : Dev} {a : Label} (hs : step d a = some d') (hn : ¬ NotPrepared d a) :
    ¬ DiskKept d' := by
  simp only [NotPrepared, Classical.not_imp, not_not] at hn
  obtain ⟨rfl, hp⟩ := hn
  intro hk
  cases step_cases hs with
  | removeDevRefused _ other => exact other.2 hp
  | removeDevSection _ _ _ =>
    have := hk.1 (.inl hp)
    cases this

/-- Once the disk of a PREPARED device is gone, nothing leads to a run of the
worker any more: none is queued, and the device cannot be found. -/
def Gone (d : Dev) : Prop :=
  d.status = .prepared → d.disk = false →
    d.listed = false ∧ (∀ i, d.runs i ≠ .queued) ∧
      (d.handler = .idle ∨ d.handler = .putting ∨ ∃ held, d.handler = .freed held)

theorem step_gone {d d' : Dev} {a : Label} (hc : Core d) (hg : Gone d)
    (hu : d.handler = .setUp → d.disk = true) (hs : step d a = some d') (hn : NoneQueued d a) :
    Gone d' := by
  intro hp hd
  by_cases hrem : a = .removeDevSection
  · subst hrem
    cases step_cases hs with
    | removeDevRefused _ other => exact absurd hp other.2
    | @removeDevSection held _ _ _ => exact ⟨rfl, hn rfl hp, .inr (.inr ⟨held, rfl⟩)⟩
  -- no other step frees the disk, so it was gone before this one
  have before : d.status = .prepared ∧ d.disk = false := by
    obtain ⟨_, _, _, hh, hst, _⟩ | ⟨ha, _⟩ | ⟨hd', h1, -, -⟩ := step_disk hs
    · rw [hst, hc.early (.inl hh)] at hp
      cases hp
    · exact absurd ha hrem
    · refine ⟨(h1 hp).resolve_right fun h => ?_, hd' ▸ hd⟩
      rw [hd', hu h] at hd
      cases hd
  obtain ⟨hl, hq, hh⟩ := hg before.1 before.2
  have other : ∀ {x}, d.handler = x → x = .idle ∨ x = .putting ∨ ∃ held, x = .freed held := fun hx => hx ▸ hh
  cases step_cases hs with
  | removeDevRefused _ _ | removeDevSection _ _ _ => exact absurd rfl hrem
  | create _ _ init => rw [before.1] at init; cases init
  | find _ listed => rw [hl] at listed; cases listed
  | setup hx | setupFailed hx | setPrepared hx | list hx | reply hx | replyFailed hx | addDiskTest hx _
  | addDiskRefused hx _ | addDiskQueue hx _ _ | addDiskPending hx _ | removeDiskBusy hx | removeDiskStore hx _
  | delGendisk hx | removeDevCall hx => simpa using other hx
  | @removeDevPut held _ => exact ⟨hl, hq, by cases held <;> simp⟩
  | put _ => exact ⟨hl, hq, .inl rfl⟩
  | runStart _ _ => exact ⟨hl, hq, hh⟩
  | @enter i queued _ _ _ | @refuse i queued _ _ => exact absurd queued (hq i)
  | runAdd _ | outAdded _ | outRefused _ | runPut _ _ =>
    exact ⟨hl, fun j => Dev.setRun_ne (by simp) (hq j), hh⟩

theorem step_workerDisk {d d' : Dev} {a : Label} (hc : Core d) (hw : WorkerDisk d) (hg : Gone d)
    (hs : step d a = some d') : WorkerDisk d' := by
  intro i hi
  obtain ⟨_, _, _, hh, _, hr⟩ | ⟨_, hin, _, hr, _⟩ | ⟨hd, -, -, h3⟩ := step_disk hs
  · rw [hr, hc.noRun (hc.early (.inl hh)) i] at hi
    cases hi
  · rw [hr] at hi
    rw [(hc.window i hi).1] at hin
    cases hin
  · rw [hd]
    rcases h3 i hi with h | ⟨hp, hq⟩
    · exact hw i h
    · by_contra hdisk
      exact (hg hp (by simpa using hdisk)).2.1 i hq

/-- Along every run of commands and worker steps, the worker has its disk and
status PREPARED or RUNNING comes with one, exactly when no removal of the
device is accepted in status PREPARED. For the worker alone it is enough that
none is accepted while a run of the worker is queued or about to start. -/
theorem diskKept_iff (as : List Label) :
    (lts.States DiskKept initDev as ↔ lts.Steps (fun d a _ => NotPrepared d a) initDev as) ∧
      (lts.Steps (fun d a _ => NoneQueued d a) initDev as → lts.States WorkerDisk initDev as) := by
  constructor
  · refine Lts.states_iff_steps (I := fun d => Core d ∧ DiskKept d ∧ (d.handler = .setUp → d.disk = true))
      (fun d h => h.2.1) (fun d a d' h hs hn => ?_) (fun d a d' h hs hn => step_prepared hs hn) ?_ as
    · exact ⟨step_core h.1 hs, step_diskKept h.1 h.2.1 h.2.2 hs hn, step_setUp h.2.2 hs⟩
    · refine ⟨initDev_core, ⟨fun h => ?_, fun i h => ?_⟩, fun h => ?_⟩
      · rcases h with h | h <;> cases h
      · cases h
      · cases h
  · intro h
    refine (Lts.states_of_steps (I := fun d => Core d ∧ WorkerDisk d ∧ Gone d ∧
      (d.handler = .setUp → d.disk = true)) (fun d a d' h hs hn => ?_) ?_ h).mono fun d h => h.2.1
    · exact ⟨step_core h.1 hs, step_workerDisk h.1 h.2.1 h.2.2.1 hs,
        step_gone h.1 h.2.2.1 h.2.2.2 hs hn, step_setUp h.2.2.2 hs⟩
    · refine ⟨initDev_core, fun i h => ?_, fun h => ?_, fun h => ?_⟩
      · cases h
      · cases h
      · cases h

/-- `add_disk` fails in the one run of the worker, and the device is removed in
status PREPARED when the run has ended. -/
def removeFailed : List Label :=
  [.create, .setup true true, .setPrepared, .list, .reply true, .find .addDisk, .addDiskTest, .addDiskQueue 0, .put,
    .runStart, .runTest 0, .runAdd 0 false, .runOut 0, .runPut 0,
    .find .removeDev, .removeDevCall, .removeDevSection, .removeDevPut, .put]

/-- The worker had its disk, though status PREPARED is left without one. -/
theorem diskKept_iff_removeFailed :
    lts.States WorkerDisk initDev removeFailed ∧
      (lts.exec initDev removeFailed).map (fun d => (d.status, d.disk, d.kref)) = some (.prepared, false, 0) := by
  refine ⟨(diskKept_iff removeFailed).2 ?_, rfl⟩
  unfold removeFailed
  iterate 16 refine Lts.Steps.cons rfl (fun he => by cases he) ?_
  refine Lts.Steps.cons rfl (fun _ _ i => ?_) ?_
  · by_cases hi : i = 0
    · subst hi
      decide
    · simp [Worker.setRun, initDev, initWorker]
  · iterate 2 refine Lts.Steps.cons rfl (fun he => by cases he) ?_
    trivial

/-- add_dev, add_disk and remove_dev, before the queued run of the worker
starts: the run then passes its status check on a device without a disk. -/
theorem remove_dev_before_worker :
    ∃ d, lts.exec initDev [.create, .setup true true, .setPrepared, .list, .reply true,
        .find .addDisk, .addDiskTest, .addDiskQueue 0, .put,
        .find .removeDev, .removeDevCall, .removeDevSection, .removeDevPut, .put,
        .runStart, .runTest 0] = some d ∧
      d.status = .prepared ∧ d.intrans = true ∧ d.runs 0 = .adding ∧ d.disk = false ∧
      0 < d.kref ∧ ¬ DiskKept d := by
  refine ⟨_, rfl, rfl, rfl, rfl, rfl, by decide, fun h => ?_⟩
  exact absurd (h.2 0 rfl) (by decide)

end Ubbd.Device
