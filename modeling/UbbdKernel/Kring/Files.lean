import Mathlib.Logic.Function.Basic
import Mathlib.Tactic.Common
import UbbdKernel.Basic
import UbbdKernel.Framework.Lts

/-!
# Kring files and the life of their queue

One queue, from the registration of its kring within `ubbd_queue_create` to
the end of `ubbd_queue_destroy`, and any number of operations on its files
and attributes. The operations reach the queue through `idev->info`: open,
mmap, release and the two attributes look at it, and use it, under
`info_lock`; read only looks at it; poll does not; write uses it without a
look and without the lock.

`UsedAlive` says that the queue is used only while it is usable. It is
published before `ubbd_queue_create` has initialised it, its name is freed
before `info` is cleared, and `ubbd_kring_write` does not care for `info` at
all; a registration that fails leaves `info` set for good. A run keeps
`UsedAlive` exactly when these windows are not hit (`usedAlive_iff`).
-/

namespace Ubbd.Kring

/-- How far `ubbd_queue_create` and `ubbd_queue_destroy` have got. -/
inductive Life
  | unborn
  /-- The minor is allocated and `idev->info` set; the locks, the list and the
  status of the queue are not initialised. -/
  | published
  /-- `ubbd_queue_create` returned 0. -/
  | initialised
  /-- `device_add` failed, and the minor is free again. -/
  | failed
  /-- `ubbd_queue_kring_destroy` has freed the name. -/
  | nameFreed
  | infoCleared
  /-- `ubbd_kring_unregister_device` returned. -/
  | unregistered
  /-- `ubbd_queue_sb_destroy` has freed superblock and rings. -/
  | sbFreed
  | pagesFreed
  deriving DecidableEq

/-- `ubbd_kring_unregister_device` has returned. -/
def Life.over : Life → Bool
  | .unregistered | .sbFreed | .pagesFreed => true
  | _ => false

/-- The operations on kring files, and the reads of the attributes. -/
inductive FileOp
  | openFile | read | write | poll | mmap | release | name | version
  deriving DecidableEq

/-- The operation looks at `info` under `info_lock`, and uses it there. -/
def FileOp.locks : FileOp → Bool
  | .openFile | .mmap | .release | .name | .version => true
  | .read | .write | .poll => false

/-- What an operation returns. -/
inductive FileResult
  | done | enodev | einval | eio
  deriving DecidableEq

/-- Where an operation is; `late`: it was started after
`ubbd_kring_unregister_device` had returned. -/
inductive OpState
  | idle
  | started (op : FileOp) (late : Bool)
  /-- It has found `info` set and uses it. -/
  | inside (op : FileOp) (late : Bool)
  deriving DecidableEq

/-- An operation that has returned. -/
structure Return where
  op : FileOp
  late : Bool
  result : FileResult

/-- The queue's `idev`, the operations on it, and what they returned. -/
structure KringDev where
  life : Life
  /-- `idev->info != NULL`. -/
  info : Bool
  /-- `info->ubbd_kring_dev` is set: the registration succeeded. -/
  kringDev : Bool
  /-- The operation that holds `info_lock`. -/
  infoLock : Option Nat
  ops : Nat → OpState
  returned : List Return
  /-- A NULL `info` was dereferenced. -/
  oops : Bool

def initKringDev : KringDev where
  life := .unborn
  info := false
  kringDev := false
  infoLock := none
  ops := fun _ => .idle
  returned := []
  oops := false

inductive FileLabel
  /-- `__ubbd_kring_register_device`, to the allocation of the minor. -/
  | publish
  /-- `device_add` fails. -/
  | addFails
  /-- The rest of `ubbd_queue_create`. -/
  | initialise
  /-- `ubbd_queue_destroy` starts: `kfree(info->name)`. -/
  | freeName
  /-- `ubbd_kring_unregister_device`: `idev->info = NULL`, under `info_lock`. -/
  | clearInfo
  /-- `device_unregister` and `ubbd_kring_free_minor`. -/
  | unregister
  | freeSb
  | freePages
  /-- Operation `i` starts. -/
  | start (i : Nat) (op : FileOp)
  /-- Operation `i` looks at `info`, or goes on without. -/
  | check (i : Nat)
  /-- Operation `i` is done with `info`. -/
  | leave (i : Nat)

namespace KringDev

def setOp (d : KringDev) (i : Nat) (o : OpState) : KringDev := { d with ops := Function.update d.ops i o }

/-- Operation `i` returns. -/
def ret (d : KringDev) (i : Nat) (op : FileOp) (late : Bool) (res : FileResult) : KringDev :=
  { d.setOp i .idle with returned := ⟨op, late, res⟩ :: d.returned }

/-- Operation `i` goes on past its start. -/
def checkInfo (d : KringDev) (i : Nat) (late : Bool) : FileOp → Option KringDev
  | .poll => some (d.ret i .poll late .done)
  | .read =>
    if d.infoLock = none then some (d.ret i .read late (if d.info then .done else .eio)) else none
  | .write =>
    if d.info then some (d.setOp i (.inside .write late)) else some { d.setOp i .idle with oops := true }
  | op =>
    if d.infoLock = none then
      if d.info then some { d.setOp i (.inside op late) with infoLock := some i }
      else some (d.ret i op late (if op = .release then .done else .einval))
    else none

end KringDev

def fileStep (d : KringDev) : FileLabel → Option KringDev
  | .publish => if d.life = .unborn then some { d with life := .published, info := true } else none
  | .addFails => if d.life = .published then some { d with life := .failed } else none
  | .initialise =>
    if d.life = .published then some { d with life := .initialised, kringDev := true } else none
  | .freeName =>
    if d.life = .initialised ∨ d.life = .failed then some { d with life := .nameFreed } else none
  | .clearInfo =>
    if d.life = .nameFreed then
      if d.kringDev then
        if d.infoLock = none then some { d with life := .infoCleared, info := false } else none
      else some { d with life := .unregistered }
    else none
  | .unregister => if d.life = .infoCleared then some { d with life := .unregistered } else none
  | .freeSb => if d.life = .unregistered then some { d with life := .sbFreed } else none
  | .freePages => if d.life = .sbFreed then some { d with life := .pagesFreed } else none
  | .start i op =>
    if d.ops i = .idle ∧ d.life ≠ .unborn then
      -- the minor is looked up first; the other operations have an open file
      if op = .openFile ∧ (d.life = .failed ∨ d.life.over) then
        some (d.ret i .openFile d.life.over .enodev)
      else some (d.setOp i (.started op d.life.over))
    else none
  | .check i =>
    match d.ops i with
    | .started op late => d.checkInfo i late op
    | _ => none
  | .leave i =>
    match d.ops i with
    | .inside op late =>
      some { d.ret i op late .done with infoLock := if op.locks then none else d.infoLock }
    | _ => none

def fileLts : Lts KringDev FileLabel where
  init d := d = initKringDev
  step := fileStep

/-! ## What is to hold -/

/-- An error, or what poll and release return without the queue. -/
def Return.ended (r : Return) : Prop := r.result ≠ .done ∨ r.op = .poll ∨ r.op = .release

/-- The queue is used only between its initialisation and the freeing of its
name, with `info` set; and an operation started after
`ubbd_kring_unregister_device` returned does not use it and returns an
error. -/
structure UsedAlive (d : KringDev) : Prop where
  inside : ∀ i op late, d.ops i = .inside op late → d.life = .initialised ∧ d.info = true ∧ late = false
  nonNull : d.oops = false
  ended : ∀ r ∈ d.returned, r.late = true → r.ended

/-- The windows: no operation but read and poll finds `info` set while the
queue is not yet or no longer usable, no write comes once `info` is cleared,
and no operation uses the queue when `ubbd_queue_destroy` is called. -/
structure InTime (d : KringDev) (a : FileLabel) : Prop where
  check : ∀ i op late, a = .check i → d.ops i = .started op late → op ≠ .read → op ≠ .poll →
    d.info = true → d.life = .initialised
  write : ∀ i late, a = .check i → d.ops i = .started .write late → d.info = true
  read : ∀ i, a = .check i → d.ops i = .started .read true → d.info = false
  destroy : a = .freeName → ∀ i op late, d.ops i ≠ .inside op late

/-! ## The invariant -/

theorem KringDev.setOp_ops (d : KringDev) (i : Nat) (o : OpState) (j : Nat) :
    (d.setOp i o).ops j = if j = i then o else d.ops j := by
  simp [KringDev.setOp, Function.update_apply]

theorem KringDev.ret_ops (d : KringDev) (i : Nat) (op : FileOp) (late : Bool) (res : FileResult) (j : Nat) :
    (d.ret i op late res).ops j = if j = i then .idle else d.ops j :=
  d.setOp_ops i .idle j

structure FileInv (d : KringDev) : Prop where
  used : UsedAlive d
  late : ∀ i op, d.ops i = .started op true → d.life.over = true

theorem initKringDev_inv : FileInv initKringDev where
  used := ⟨nofun, rfl, nofun⟩
  late := nofun

/-- An operation returns without having used the queue. -/
theorem FileInv.ret {d : KringDev} (h : FileInv d) {i : Nat} {op : FileOp} {late : Bool} {res : FileResult}
    (hr : late = true → Return.ended ⟨op, late, res⟩) : FileInv (d.ret i op late res) where
  used := by
    refine ⟨fun j o l hj => ?_, h.used.nonNull, fun r hmem hl => ?_⟩
    · rw [KringDev.ret_ops] at hj
      split at hj
      · cases hj
      · exact h.used.inside j o l hj
    · rcases List.mem_cons.mp hmem with rfl | hmem
      · exact hr hl
      · exact h.used.ended r hmem hl
  late j o hj := by
    rw [KringDev.ret_ops] at hj
    split at hj
    · cases hj
    · exact h.late j o hj

/-- An operation finds `info` set, in time. -/
theorem FileInv.enter {d : KringDev} (h : FileInv d) {i : Nat} {op : FileOp} {late : Bool}
    (hi : d.ops i = .started op late) (hinfo : d.info = true) (hlife : d.life = .initialised) :
    FileInv (d.setOp i (.inside op late)) where
  used := by
    refine ⟨fun j o l hj => ?_, h.used.nonNull, h.used.ended⟩
    rw [KringDev.setOp_ops] at hj
    split at hj
    · cases hj
      refine ⟨hlife, hinfo, Bool.eq_false_iff.mpr fun hl => ?_⟩
      have := h.late i op (hl ▸ hi)
      rw [hlife] at this
      cases this
    · exact h.used.inside j o l hj
  late j o hj := by
    rw [KringDev.setOp_ops] at hj
    split at hj
    · cases hj
    · exact h.late j o hj

/-- `ubbd_queue_create` and `ubbd_queue_destroy` go on while nobody uses the
queue. -/
theorem FileInv.of_life {d d' : KringDev} (h : FileInv d) (hops : d'.ops = d.ops)
    (hret : d'.returned = d.returned) (hoops : d'.oops = d.oops)
    (hover : d.life.over = true → d'.life.over = true) (hno : ∀ i op late, d.ops i ≠ .inside op late) :
    FileInv d' where
  used := ⟨fun i op late hi => absurd (hops ▸ hi) (hno i op late), hoops.trans h.used.nonNull,
    fun r hr => h.used.ended r (hret ▸ hr)⟩
  late i op hi := hover (h.late i op (hops ▸ hi))

theorem FileInv.none_inside {d : KringDev} (h : FileInv d) (hl : d.life ≠ .initialised) (i : Nat)
    (op : FileOp) (late : Bool) : d.ops i ≠ .inside op late :=
  fun hi => hl (h.used.inside i op late hi).1

theorem checkInfo_inv {d d' : KringDev} {i : Nat} {op : FileOp} {late : Bool} (h : FileInv d)
    (hi : d.ops i = .started op late) (hs : d.checkInfo i late op = some d') (ht : InTime d (.check i)) :
    FileInv d' := by
  have hcheck := ht.check i op late rfl hi
  cases op with
  | poll =>
    cases hs
    exact h.ret fun _ => .inr (.inl rfl)
  | read =>
    simp only [KringDev.checkInfo, Option.ite_none_right_eq_some, Option.some.injEq] at hs
    obtain ⟨-, rfl⟩ := hs
    refine h.ret fun hl => .inl ?_
    subst hl
    rw [ht.read i rfl hi]
    decide
  | write =>
    have hinfo := ht.write i late rfl hi
    simp only [KringDev.checkInfo, hinfo, if_true, Option.some.injEq] at hs
    subst hs
    exact h.enter hi hinfo (hcheck (by decide) (by decide) hinfo)
  | openFile | mmap | release | name | version =>
    simp only [KringDev.checkInfo, Option.ite_none_right_eq_some] at hs
    obtain ⟨-, hs⟩ := hs
    split at hs <;> cases hs
    · rename_i hinfo
      have := h.enter hi hinfo (hcheck (by decide) (by decide) hinfo)
      exact ⟨⟨this.used.inside, this.used.nonNull, this.used.ended⟩, this.late⟩
    · exact h.ret fun _ => by simp [Return.ended]

theorem fileStep_inv {d d' : KringDev} {a : FileLabel} (h : FileInv d) (hs : fileStep d a = some d')
    (ht : InTime d a) : FileInv d' := by
  cases a with
  | publish | addFails | initialise | unregister | freeSb | freePages =>
    simp only [fileStep, Option.ite_none_right_eq_some, Option.some.injEq] at hs
    obtain ⟨hl, rfl⟩ := hs
    exact h.of_life rfl rfl rfl (by simp [hl, Life.over]) (h.none_inside (by simp [hl]))
  | freeName =>
    simp only [fileStep, Option.ite_none_right_eq_some, Option.some.injEq] at hs
    obtain ⟨hl, rfl⟩ := hs
    exact h.of_life rfl rfl rfl (by rcases hl with hl | hl <;> simp [hl, Life.over]) (ht.destroy rfl)
  | clearInfo =>
    simp only [fileStep, Option.ite_none_right_eq_some] at hs
    obtain ⟨hl, hs⟩ := hs
    have hno := h.none_inside (by simp [hl])
    split at hs
    · simp only [Option.ite_none_right_eq_some, Option.some.injEq] at hs
      obtain ⟨-, rfl⟩ := hs
      exact h.of_life rfl rfl rfl (by simp [hl, Life.over]) hno
    · cases hs
      exact h.of_life rfl rfl rfl (by simp [hl, Life.over]) hno
  | start i op =>
    simp only [fileStep, Option.ite_none_right_eq_some] at hs
    obtain ⟨-, hs⟩ := hs
    split at hs <;> cases hs
    · exact h.ret fun _ => by simp [Return.ended]
    · refine ⟨⟨fun j o l hj => ?_, h.used.nonNull, h.used.ended⟩, fun j o hj => ?_⟩
      · rw [KringDev.setOp_ops] at hj
        split at hj
        · cases hj
        · exact h.used.inside j o l hj
      · rw [KringDev.setOp_ops] at hj
        split at hj
        · injection hj
        · exact h.late j o hj
  | check i =>
    simp only [fileStep] at hs
    split at hs <;> [skip; cases hs]
    rename_i op late hi
    exact checkInfo_inv h hi hs ht
  | leave i =>
    simp only [fileStep] at hs
    split at hs <;> cases hs
    rename_i op late hi
    have hlate := (h.used.inside i op late hi).2.2
    have : FileInv (d.ret i op late .done) := h.ret fun hl => by rw [hlate] at hl; cases hl
    exact ⟨⟨this.used.inside, this.used.nonNull, this.used.ended⟩, this.late⟩

/-- A step in one of the windows. -/
theorem fileStep_unalive {d d' : KringDev} {a : FileLabel} (hs : fileStep d a = some d') (ht : ¬ InTime d a) :
    ¬ UsedAlive d' := by
  intro hu
  refine ht ⟨?_, ?_, ?_, ?_⟩
  · rintro i op late rfl hi hread hpoll hinfo
    simp only [fileStep, hi] at hs
    have hin : d'.ops i = .inside op late ∧ d'.life = d.life := by
      cases op
      case read => exact absurd rfl hread
      case poll => exact absurd rfl hpoll
      case write =>
        simp only [KringDev.checkInfo, hinfo, if_true, Option.some.injEq] at hs
        subst hs
        exact ⟨by rw [KringDev.setOp_ops, if_pos rfl], rfl⟩
      all_goals
        simp only [KringDev.checkInfo, hinfo, if_true, Option.ite_none_right_eq_some, Option.some.injEq] at hs
        obtain ⟨-, rfl⟩ := hs
        refine ⟨?_, rfl⟩
        show (d.setOp i _).ops i = _
        rw [KringDev.setOp_ops, if_pos rfl]
    exact hin.2 ▸ (hu.inside i op late hin.1).1
  · rintro i late rfl hi
    by_contra hinfo
    simp only [fileStep, hi, KringDev.checkInfo, if_neg hinfo, Option.some.injEq] at hs
    subst hs
    cases hu.nonNull
  · rintro i rfl hi
    by_contra hinfo
    simp only [fileStep, hi, KringDev.checkInfo, Option.ite_none_right_eq_some, Option.some.injEq] at hs
    obtain ⟨-, rfl⟩ := hs
    have hend := hu.ended _ (List.mem_cons_self ..) rfl
    simp [Return.ended, hinfo] at hend
  · rintro rfl i op late hi
    simp only [fileStep, Option.ite_none_right_eq_some, Option.some.injEq] at hs
    obtain ⟨-, rfl⟩ := hs
    cases (hu.inside i op late hi).1

/-- Along every run of `ubbd_queue_create`, `ubbd_queue_destroy` and the
operations on the files and attributes of the queue, the queue is used only
while it is usable, exactly when no operation hits one of the windows. -/
theorem usedAlive_iff (as : List FileLabel) :
    fileLts.States UsedAlive initKringDev as ↔ fileLts.Steps (fun d a _ => InTime d a) initKringDev as :=
  Lts.states_iff_steps (I := FileInv) (fun _ h => h.used) (fun _ _ _ h hs ht => fileStep_inv h hs ht)
    (fun _ _ _ _ hs ht => fileStep_unalive hs ht) initKringDev_inv as

/-- A write on a file that is still open when the queue is gone dereferences
NULL. -/
theorem write_after_unregister :
    ∃ d, fileLts.exec initKringDev [.publish, .initialise, .start 0 .openFile, .check 0, .leave 0,
        .freeName, .clearInfo, .unregister, .start 1 .write, .check 1] = some d ∧
      d.oops = true ∧ ¬ UsedAlive d := by
  refine ⟨_, rfl, rfl, fun h => ?_⟩
  cases h.nonNull

/-- The name of the queue is read after `ubbd_queue_kring_destroy` freed it, and
the queue is mapped before it is initialised. -/
example :
    (∃ d, fileLts.exec initKringDev [.publish, .initialise, .freeName, .start 0 .name, .check 0] = some d ∧
      d.ops 0 = .inside .name false ∧ d.life = .nameFreed) ∧
    (∃ d, fileLts.exec initKringDev [.publish, .start 0 .mmap, .check 0] = some d ∧
      d.ops 0 = .inside .mmap false ∧ d.life = .published) :=
  ⟨⟨_, rfl, rfl, rfl⟩, _, rfl, rfl, rfl⟩

end Ubbd.Kring
