import Mathlib.Logic.Function.Basic
import Mathlib.Tactic.Common
import UbbdKernel.Framework.Lts

/-!
# Minors and the references to kring devices

`ubbd_kring_idr` maps a minor to its `idev`. An open looks the minor up under
`minor_lock` and takes its reference after it has dropped the lock; the
registration enters an `idev` before `device_initialize` has set its count,
and the unregistration drops the first reference before it removes the minor.

`MinorsAlive` says that each minor maps to a device with references, and that
`get_device` is only called on one. With the count set after the minor is
allocated it cannot hold once a device is registered; of the devices past
`device_initialize` it holds when no open finds a device that is not, and the
last reference of a device is dropped only when no minor maps to it and no
open is about to take one (`minorsAlive_iff`).
-/

namespace Ubbd.Kring

/-- How far the registration and unregistration of an `idev` have got. -/
inductive RegState
  | none
  /-- `ubbd_kring_get_minor` returned 0; `device_initialize` is to come. -/
  | gotMinor
  | initialised
  | registered
  /-- `device_add` failed, the minor is to be freed. -/
  | addFailed
  /-- The minor is free, and the reference to be dropped. -/
  | dropping
  /-- `device_unregister` returned, the minor is to be freed. -/
  | unregistering
  | done
  deriving DecidableEq

/-- `struct ubbd_kring_device`. -/
structure Idev where
  reg : RegState
  minor : Nat
  /-- The reference count of `idev->dev`. -/
  ref : Nat
  /-- `ubbd_kring_device_release` has freed it. -/
  freed : Bool

/-- Where an open is: `found`, between the lookup and `get_device`; `holding`,
to `ubbd_kring_release`, or to the error exits of `ubbd_kring_open`. -/
inductive OpenState
  | idle
  | found (d : Nat)
  | holding (d : Nat)
  deriving DecidableEq

structure Minors where
  /-- `ubbd_kring_idr`. -/
  idr : Nat → Option Nat
  idevs : Nat → Idev
  opens : Nat → OpenState
  /-- `get_device` was called on a device without references. -/
  badGet : Bool

def initMinors : Minors where
  idr := fun _ => none
  idevs := fun _ => ⟨.none, 0, 0, false⟩
  opens := fun _ => .idle
  badGet := false

namespace Minors

def setIdev (s : Minors) (d : Nat) (v : Idev) : Minors := { s with idevs := Function.update s.idevs d v }

def setReg (s : Minors) (d : Nat) (r : RegState) : Minors := s.setIdev d { s.idevs d with reg := r }

def setOpen (s : Minors) (i : Nat) (o : OpenState) : Minors := { s with opens := Function.update s.opens i o }

/-- `get_device`. -/
def getDevice (s : Minors) (d : Nat) : Minors :=
  { s.setIdev d { s.idevs d with ref := (s.idevs d).ref + 1 } with
    badGet := s.badGet || (s.idevs d).ref = 0 || (s.idevs d).freed }

/-- `put_device`; the last one calls `ubbd_kring_device_release`. -/
def putDevice (s : Minors) (d : Nat) : Minors :=
  s.setIdev d { s.idevs d with
    ref := (s.idevs d).ref - 1
    freed := (s.idevs d).freed || (s.idevs d).ref - 1 = 0 }

/-- `ubbd_kring_free_minor`. -/
def freeMinor (s : Minors) (m : Nat) : Minors := { s with idr := Function.update s.idr m .none }

end Minors

inductive MinorLabel
  /-- `ubbd_kring_get_minor` for device `d`: `idr_alloc` gives minor `m`, or
  fails and the device is freed. -/
  | getMinor (d m : Nat)
  | getMinorFails (d : Nat)
  | deviceInitialize (d : Nat)
  /-- `dev_set_name` and `device_add`. -/
  | addDevice (d : Nat) (ok : Bool)
  /-- At `err_device_create`. -/
  | freeMinorFailed (d : Nat)
  | putFailed (d : Nat)
  /-- `device_unregister`. -/
  | unregister (d : Nat)
  | freeMinor (d : Nat)
  /-- Open `i` looks minor `m` up. -/
  | lookup (i m : Nat)
  | getDevice (i : Nat)
  /-- `put_device`, in `ubbd_kring_release` or at an error exit of the open. -/
  | putDevice (i : Nat)

def minorStep (s : Minors) : MinorLabel → Option Minors
  | .getMinor d m =>
    if (s.idevs d).reg = .none ∧ s.idr m = none then
      some ({ s with idr := Function.update s.idr m (some d) }.setIdev d ⟨.gotMinor, m, 0, false⟩)
    else none
  | .getMinorFails d =>
    if (s.idevs d).reg = .none then some (s.setIdev d ⟨.done, 0, 0, true⟩) else none
  | .deviceInitialize d =>
    if (s.idevs d).reg = .gotMinor then
      some (s.setIdev d { s.idevs d with reg := .initialised, ref := 1 })
    else none
  | .addDevice d ok =>
    if (s.idevs d).reg = .initialised then some (s.setReg d (if ok then .registered else .addFailed)) else none
  | .freeMinorFailed d =>
    if (s.idevs d).reg = .addFailed then
      some ((s.freeMinor (s.idevs d).minor).setReg d .dropping)
    else none
  | .putFailed d =>
    if (s.idevs d).reg = .dropping then some ((s.putDevice d).setReg d .done) else none
  | .unregister d =>
    if (s.idevs d).reg = .registered then some ((s.putDevice d).setReg d .unregistering) else none
  | .freeMinor d =>
    if (s.idevs d).reg = .unregistering then
      some ((s.freeMinor (s.idevs d).minor).setReg d .done)
    else none
  | .lookup i m =>
    if s.opens i = .idle then
      match s.idr m with
      | some d => some (s.setOpen i (.found d))
      -- `-ENODEV`
      | none => some s
    else none
  | .getDevice i =>
    match s.opens i with
    | .found d => some ((s.getDevice d).setOpen i (.holding d))
    | _ => none
  | .putDevice i =>
    match s.opens i with
    | .holding d => some ((s.putDevice d).setOpen i .idle)
    | _ => none

def minorLts : Lts Minors MinorLabel where
  init s := s = initMinors
  step := minorStep

/-! ## What is to hold -/

/-- Each minor maps to a device with references, and `get_device` was called
on such devices only. -/
def MinorsAlive (s : Minors) : Prop :=
  (∀ m d, s.idr m = some d → 0 < (s.idevs d).ref ∧ (s.idevs d).freed = false) ∧ s.badGet = false

/-- The same, but for the devices that are not past `device_initialize`. -/
def InitialisedAlive (s : Minors) : Prop :=
  (∀ m d, s.idr m = some d → (s.idevs d).reg ≠ .gotMinor →
    0 < (s.idevs d).ref ∧ (s.idevs d).freed = false) ∧ s.badGet = false

/-- No device gets a minor. -/
def NoMinor (a : MinorLabel) : Prop := ∀ d m, a ≠ .getMinor d m

/-- The device of the reference that a step drops. -/
def MinorLabel.drops (s : Minors) : MinorLabel → Option Nat
  | .putFailed d => some d
  | .unregister d => some d
  | .putDevice i =>
    match s.opens i with
    | .holding d => some d
    | _ => none
  | _ => none

/-- An open finds no device that is not past `device_initialize`, and the last
reference of a device is dropped only when no minor maps to it and no open
has found it and not taken its reference. -/
structure Ordered (s : Minors) (a : MinorLabel) : Prop where
  lookup : ∀ i m d, a = .lookup i m → s.idr m = some d → (s.idevs d).reg ≠ .gotMinor
  last : ∀ d, a.drops s = some d → (s.idevs d).ref ≤ 1 →
    (∀ m, s.idr m ≠ some d) ∧ ∀ i, s.opens i ≠ .found d

/-! ## Runs that register nothing -/

structure Empty (s : Minors) : Prop where
  idr : ∀ m, s.idr m = none
  opens : ∀ i, s.opens i = .idle
  badGet : s.badGet = false

theorem Empty.minorsAlive {s : Minors} (h : Empty s) : MinorsAlive s := by
  refine ⟨fun m d hd => ?_, h.badGet⟩
  rw [h.idr m] at hd
  cases hd

theorem minorStep_empty {s s' : Minors} {a : MinorLabel} (h : Empty s) (hs : minorStep s a = some s')
    (ha : NoMinor a) : Empty s' := by
  have hidr := h.idr
  have hopens := h.opens
  have hbad := h.badGet
  cases a with
  | getMinor d m => exact absurd rfl (ha d m)
  | getMinorFails _ | deviceInitialize _ | addDevice _ _ | freeMinorFailed _ | putFailed _ | unregister _
  | freeMinor _ =>
    simp only [minorStep, Option.ite_none_right_eq_some, Option.some.injEq] at hs
    obtain ⟨-, rfl⟩ := hs
    refine ⟨fun m => ?_, hopens, hbad⟩
    simp [Minors.setReg, Minors.setIdev, Minors.freeMinor, Minors.putDevice, Function.update_apply, hidr]
  | lookup i m =>
    simp only [minorStep, hidr, Option.ite_none_right_eq_some, Option.some.injEq] at hs
    exact hs.2 ▸ h
  | getDevice i | putDevice i => simp [minorStep, hopens] at hs

/-- A device has its minor before it has its first reference. -/
theorem minorStep_getMinor {s s' : Minors} {d m : Nat} (hs : minorStep s (.getMinor d m) = some s') :
    ¬ MinorsAlive s' := by
  simp only [minorStep, Option.ite_none_right_eq_some, Option.some.injEq] at hs
  obtain ⟨-, rfl⟩ := hs
  intro h
  have := (h.1 m d (by simp [Minors.setIdev])).1
  simp [Minors.setIdev] at this

/-! ## Devices past `device_initialize` -/

/-- The minor of the device is in the idr. -/
def RegState.listed : RegState → Bool
  | .gotMinor | .initialised | .registered | .addFailed | .unregistering => true
  | _ => false

/-- The open has found the device. -/
def OpenState.device : OpenState → Option Nat
  | .idle => none
  | .found d | .holding d => some d

structure MinorInv (s : Minors) : Prop where
  listed : ∀ m d, s.idr m = some d → (s.idevs d).minor = m ∧ (s.idevs d).reg.listed = true
  fresh : ∀ d, (s.idevs d).reg = .gotMinor → (s.idevs d).freed = false
  alive : ∀ m d, s.idr m = some d → (s.idevs d).reg ≠ .gotMinor →
    0 < (s.idevs d).ref ∧ (s.idevs d).freed = false
  found : ∀ i d, s.opens i = .found d → 0 < (s.idevs d).ref ∧ (s.idevs d).freed = false
  past : ∀ i d, (s.opens i).device = some d → (s.idevs d).reg ≠ .gotMinor ∧ (s.idevs d).reg ≠ .none
  badGet : s.badGet = false

theorem MinorInv.initialisedAlive {s : Minors} (h : MinorInv s) : InitialisedAlive s := ⟨h.alive, h.badGet⟩

theorem initMinors_inv : MinorInv initMinors :=
  ⟨nofun, nofun, nofun, nofun, nofun, rfl⟩

/-- A step that changes one device. -/
theorem MinorInv.setIdev {s : Minors} (h : MinorInv s) {d : Nat} {v : Idev}
    (hm : ∀ m, s.idr m = some d → v.minor = m ∧ v.reg.listed = true ∧
      (v.reg ≠ .gotMinor → 0 < v.ref ∧ v.freed = false))
    (hf : v.reg = .gotMinor → v.freed = false)
    (ho : ∀ i, s.opens i = .found d → 0 < v.ref ∧ v.freed = false)
    (hp : ∀ i, (s.opens i).device = some d → v.reg ≠ .gotMinor ∧ v.reg ≠ .none) :
    MinorInv (s.setIdev d v) := by
  have idevs : ∀ e, (s.setIdev d v).idevs e = if e = d then v else s.idevs e := fun e => by
    simp [Minors.setIdev, Function.update_apply]
  refine ⟨fun m e he => ?_, fun e => ?_, fun m e he => ?_, fun i e he => ?_, fun i e he => ?_, h.badGet⟩ <;>
    rw [idevs] <;> split
  case refine_1.isTrue hd => exact ⟨(hm m (hd ▸ he)).1, (hm m (hd ▸ he)).2.1⟩
  case refine_1.isFalse => exact h.listed m e he
  case refine_2.isTrue => exact hf
  case refine_2.isFalse => exact h.fresh e
  case refine_3.isTrue hd => exact (hm m (hd ▸ he)).2.2
  case refine_3.isFalse => exact h.alive m e he
  case refine_4.isTrue hd => exact ho i (hd ▸ he)
  case refine_4.isFalse => exact h.found i e he
  case refine_5.isTrue hd => exact hp i (hd ▸ he)
  case refine_5.isFalse => exact h.past i e he

/-- A device goes on to another state of its registration; its minor stays in
the idr, or is not there. -/
theorem MinorInv.setReg {s : Minors} (h : MinorInv s) {d : Nat} {r : RegState}
    (hg : (s.idevs d).reg ≠ .gotMinor) (hr : r ≠ .gotMinor ∧ r ≠ .none)
    (hl : r.listed = true ∨ ∀ m, s.idr m ≠ some d) : MinorInv (s.setReg d r) := by
  refine h.setIdev (fun m hm => ?_) (fun e => absurd e hr.1) (h.found · d) (fun _ _ => hr)
  exact ⟨(h.listed m d hm).1, hl.resolve_right fun hn => hn m hm, fun _ => h.alive m d hm hg⟩

/-- A reference is dropped, in order. -/
theorem MinorInv.putDevice {s : Minors} (h : MinorInv s) {d : Nat}
    (hlast : (s.idevs d).ref ≤ 1 → (∀ m, s.idr m ≠ some d) ∧ ∀ i, s.opens i ≠ .found d)
    (hg : (s.idevs d).reg ≠ .gotMinor) : MinorInv (s.putDevice d) := by
  -- whoever relies on the device keeps it from being its last reference
  have keeps : (¬ ∀ m, s.idr m ≠ some d) ∨ (¬ ∀ i, s.opens i ≠ .found d) → (s.idevs d).freed = false →
      0 < (s.idevs d).ref - 1 ∧ ((s.idevs d).freed || decide ((s.idevs d).ref - 1 = 0)) = false := by
    intro hk hfreed
    have hgt : 1 < (s.idevs d).ref := by
      by_contra hle
      obtain ⟨h1, h2⟩ := hlast (by omega)
      rcases hk with hk | hk
      · exact hk h1
      · exact hk h2
    refine ⟨by omega, ?_⟩
    rw [hfreed, Bool.false_or, decide_eq_false_iff_not]
    omega
  refine h.setIdev (fun m hm => ?_) (fun e => absurd e hg) (fun i hi => ?_) (h.past · d)
  · obtain ⟨h1, h2⟩ := h.listed m d hm
    exact ⟨h1, h2, fun _ => keeps (.inl fun hn => hn m hm) (h.alive m d hm hg).2⟩
  · exact keeps (.inr fun hn => hn i hi) (h.found i d hi).2

/-- The minor of a device is removed from the idr. -/
theorem MinorInv.freeMinor {s : Minors} (h : MinorInv s) (m : Nat) : MinorInv (s.freeMinor m) := by
  have idr : ∀ m' d, (s.freeMinor m).idr m' = some d → s.idr m' = some d := fun m' d hd => by
    simp only [Minors.freeMinor, Function.update_apply] at hd
    split at hd
    · cases hd
    · exact hd
  exact ⟨fun m' d hd => h.listed m' d (idr m' d hd), h.fresh, fun m' d hd => h.alive m' d (idr m' d hd),
    h.found, h.past, h.badGet⟩

theorem freeMinor_idr {s : Minors} (h : MinorInv s) {d : Nat} (m : Nat) :
    (s.freeMinor (s.idevs d).minor).idr m ≠ some d := by
  intro hd
  simp only [Minors.freeMinor, Function.update_apply] at hd
  split at hd
  · cases hd
  · rename_i hne
    exact hne (h.listed m d hd).1.symm

/-- An open moves on. -/
theorem MinorInv.setOpen {s : Minors} (h : MinorInv s) {i : Nat} {o : OpenState}
    (ho : ∀ d, o = .found d → 0 < (s.idevs d).ref ∧ (s.idevs d).freed = false)
    (hp : ∀ d, o.device = some d → (s.idevs d).reg ≠ .gotMinor ∧ (s.idevs d).reg ≠ .none) :
    MinorInv (s.setOpen i o) := by
  refine ⟨h.listed, h.fresh, h.alive, fun j d hj => ?_, fun j d hj => ?_, h.badGet⟩ <;>
    simp only [Minors.setOpen, Function.update_apply] at hj <;> split at hj
  · exact ho d hj
  · exact h.found j d hj
  · exact hp d hj
  · exact h.past j d hj

/-- The registration has not begun, so nothing refers to the device. -/
theorem MinorInv.unreferenced {s : Minors} (h : MinorInv s) {d : Nat} (hr : (s.idevs d).reg = .none) :
    (∀ m, s.idr m ≠ some d) ∧ ∀ i, (s.opens i).device ≠ some d := by
  refine ⟨fun m hm => ?_, fun i hi => (h.past i d hi).2 hr⟩
  have := (h.listed m d hm).2
  rw [hr] at this
  cases this

theorem OpenState.device_of_found {o : OpenState} {d : Nat} (h : o = .found d) : o.device = some d := by
  rw [h]
  rfl

/-- A device that has its minor and no reference is entered into the idr. -/
theorem MinorInv.setIdr {s : Minors} (h : MinorInv s) {d m : Nat} (hr : (s.idevs d).reg = .gotMinor)
    (hm : (s.idevs d).minor = m) : MinorInv { s with idr := Function.update s.idr m (some d) } := by
  have idr : ∀ {m' e}, Function.update s.idr m (some d) m' = some e → (m' = m ∧ e = d) ∨ s.idr m' = some e := by
    intro m' e he
    rw [Function.update_apply] at he
    split at he
    · rename_i hm'
      exact .inl ⟨hm', (Option.some.inj he).symm⟩
    · exact .inr he
  refine ⟨fun m' e he => ?_, h.fresh, fun m' e he hg => ?_, h.found, h.past, h.badGet⟩
  · rcases idr he with ⟨rfl, rfl⟩ | he
    · exact ⟨hm, by rw [hr]; rfl⟩
    · exact h.listed m' e he
  · rcases idr he with ⟨rfl, rfl⟩ | he
    · exact absurd hr hg
    · exact h.alive m' e he hg

/-- An open takes its reference. -/
theorem MinorInv.getDevice {s : Minors} (h : MinorInv s) {i d : Nat} (hi : s.opens i = .found d) :
    MinorInv (s.getDevice d) := by
  obtain ⟨href, hfreed⟩ := h.found i d hi
  obtain ⟨hg, hn⟩ := h.past i d (OpenState.device_of_found hi)
  have hset : MinorInv (s.setIdev d { s.idevs d with ref := (s.idevs d).ref + 1 }) := by
    refine h.setIdev (fun m hm => ?_) (fun e => absurd e hg) (fun _ _ => ⟨Nat.succ_pos _, hfreed⟩)
      (fun _ _ => ⟨hg, hn⟩)
    exact ⟨(h.listed m d hm).1, (h.listed m d hm).2, fun _ => ⟨Nat.succ_pos _, hfreed⟩⟩
  refine ⟨hset.listed, hset.fresh, hset.alive, hset.found, hset.past, ?_⟩
  have : (s.idevs d).ref ≠ 0 := by omega
  simp [Minors.getDevice, h.badGet, hfreed, this]

theorem minorStep_inv {s s' : Minors} {a : MinorLabel} (h : MinorInv s) (hs : minorStep s a = some s')
    (ha : Ordered s a) : MinorInv s' := by
  cases a with
  | getMinor d m =>
    simp only [minorStep, Option.ite_none_right_eq_some, Option.some.injEq] at hs
    obtain ⟨⟨hr, -⟩, rfl⟩ := hs
    obtain ⟨hidr, hopen⟩ := h.unreferenced hr
    have hset : MinorInv (s.setIdev d ⟨.gotMinor, m, 0, false⟩) :=
      h.setIdev (fun m hm => absurd hm (hidr m)) (fun _ => rfl)
        (fun i hi => absurd (OpenState.device_of_found hi) (hopen i)) (fun i hi => absurd hi (hopen i))
    exact hset.setIdr (by simp [Minors.setIdev]) (by simp [Minors.setIdev])
  | getMinorFails d =>
    simp only [minorStep, Option.ite_none_right_eq_some, Option.some.injEq] at hs
    obtain ⟨hr, rfl⟩ := hs
    obtain ⟨hidr, hopen⟩ := h.unreferenced hr
    exact h.setIdev (fun m hm => absurd hm (hidr m)) nofun
      (fun i hi => absurd (OpenState.device_of_found hi) (hopen i)) (fun i hi => absurd hi (hopen i))
  | deviceInitialize d =>
    simp only [minorStep, Option.ite_none_right_eq_some, Option.some.injEq] at hs
    obtain ⟨hr, rfl⟩ := hs
    have hopen : ∀ i, (s.opens i).device ≠ some d := fun i hi => (h.past i d hi).1 hr
    refine h.setIdev (fun m hm => ?_) nofun (fun i hi => absurd (OpenState.device_of_found hi) (hopen i))
      (fun i hi => absurd hi (hopen i))
    exact ⟨(h.listed m d hm).1, rfl, fun _ => ⟨Nat.zero_lt_one, h.fresh d hr⟩⟩
  | addDevice d ok =>
    simp only [minorStep, Option.ite_none_right_eq_some, Option.some.injEq] at hs
    obtain ⟨hr, rfl⟩ := hs
    exact h.setReg (by simp [hr]) (by cases ok <;> decide) (.inl (by cases ok <;> rfl))
  | freeMinorFailed d | freeMinor d =>
    simp only [minorStep, Option.ite_none_right_eq_some, Option.some.injEq] at hs
    obtain ⟨hr, rfl⟩ := hs
    exact (h.freeMinor _).setReg (by simp [Minors.freeMinor, hr]) (by decide) (.inr (freeMinor_idr h))
  | putFailed d =>
    simp only [minorStep, Option.ite_none_right_eq_some, Option.some.injEq] at hs
    obtain ⟨hr, rfl⟩ := hs
    refine (h.putDevice (ha.last d rfl) (by simp [hr])).setReg ?_ (by decide) (.inr fun m hm => ?_)
    · simp [Minors.putDevice, Minors.setIdev, hr]
    · have := (h.listed m d hm).2
      rw [hr] at this
      cases this
  | unregister d =>
    simp only [minorStep, Option.ite_none_right_eq_some, Option.some.injEq] at hs
    obtain ⟨hr, rfl⟩ := hs
    refine (h.putDevice (ha.last d rfl) (by simp [hr])).setReg ?_ (by decide) (.inl rfl)
    simp [Minors.putDevice, Minors.setIdev, hr]
  | lookup i m =>
    simp only [minorStep, Option.ite_none_right_eq_some] at hs
    obtain ⟨-, hs⟩ := hs
    split at hs <;> cases hs
    · rename_i d hd
      have hg := ha.lookup i m d rfl hd
      refine h.setOpen (fun e he => ?_) (fun e he => ?_) <;> cases he
      · exact h.alive m d hd hg
      · refine ⟨hg, fun hn => ?_⟩
        have := (h.listed m d hd).2
        rw [hn] at this
        cases this
    · exact h
  | getDevice i =>
    simp only [minorStep] at hs
    split at hs <;> cases hs
    rename_i d hd
    have hget := h.getDevice hd
    refine hget.setOpen nofun fun e he => ?_
    cases he
    exact hget.past i d (OpenState.device_of_found hd)
  | putDevice i =>
    simp only [minorStep] at hs
    split at hs <;> cases hs
    rename_i d hd
    have hg := (h.past i d (by rw [hd]; rfl)).1
    exact (h.putDevice (ha.last d (by simp [MinorLabel.drops, hd])) hg).setOpen nofun nofun

/-- As it is stated, the law holds of a run exactly when no device gets a minor
in it, for a device is in the idr before it has a reference. For the devices
past `device_initialize` it holds in every run whose opens find such devices
only, and in which the last reference of a device is dropped only when no
minor maps to it and no open is about to take one. -/
theorem minorsAlive_iff (as : List MinorLabel) :
    (minorLts.States MinorsAlive initMinors as ↔ minorLts.Steps (fun _ a _ => NoMinor a) initMinors as) ∧
      (minorLts.Steps (fun s a _ => Ordered s a) initMinors as →
        minorLts.States InitialisedAlive initMinors as) := by
  constructor
  · refine Lts.states_iff_steps (I := Empty) (fun _ h => h.minorsAlive)
      (fun _ _ _ h hs ha => minorStep_empty h hs ha) (fun _ _ _ _ hs ha => ?_) ⟨fun _ => rfl, fun _ => rfl, rfl⟩ as
    simp only [NoMinor, not_forall, not_not] at ha
    obtain ⟨d, m, rfl⟩ := ha
    exact minorStep_getMinor hs
  · intro h
    exact (Lts.states_of_steps (I := MinorInv) (fun _ _ _ hi hs ha => minorStep_inv hi hs ha) initMinors_inv h).mono
      fun _ hi => hi.initialisedAlive

/-- A step that neither looks a minor up nor drops a reference. -/
theorem ordered_of_quiet {s : Minors} {a : MinorLabel} (hl : ∀ i m, a ≠ .lookup i m) (hd : a.drops s = none) :
    Ordered s a := by
  refine ⟨fun i m d he _ => absurd he (hl i m), fun d he _ => ?_⟩
  rw [hd] at he
  cases he

/-- A device is unregistered while a file is open on it, and freed by the
`put_device` of that file, with its minor out of the idr. -/
def openAcross : List MinorLabel :=
  [.getMinor 0 5, .deviceInitialize 0, .addDevice 0 true, .lookup 0 5, .getDevice 0, .unregister 0, .freeMinor 0,
    .putDevice 0]

theorem minorsAlive_iff_openAcross :
    minorLts.Steps (fun s a _ => Ordered s a) initMinors openAcross ∧
      minorLts.States InitialisedAlive initMinors openAcross ∧
      (minorLts.exec initMinors openAcross).map (fun s => (s.idr 5, (s.idevs 0).ref, (s.idevs 0).freed)) =
        some (none, 0, true) := by
  have hordered : minorLts.Steps (fun s a _ => Ordered s a) initMinors openAcross := by
    unfold openAcross
    iterate 3 refine Lts.Steps.cons rfl (ordered_of_quiet (fun _ _ he => by cases he) rfl) ?_
    refine Lts.Steps.cons rfl ⟨fun i m d he hm => ?_, fun d he => by cases he⟩ ?_
    · cases he
      cases hm
      decide
    refine Lts.Steps.cons rfl (ordered_of_quiet (fun _ _ he => by cases he) rfl) ?_
    -- the open holds a reference of its own
    refine Lts.Steps.cons rfl ⟨fun i m d he => (by cases he), fun d he href => ?_⟩ ?_
    · cases he
      exact absurd href (by decide)
    refine Lts.Steps.cons rfl (ordered_of_quiet (fun _ _ he => by cases he) rfl) ?_
    refine Lts.Steps.cons rfl ⟨fun i m d he => (by cases he), fun d he _ => ⟨fun m hm => ?_, fun i hi => ?_⟩⟩ trivial
    · change Function.update (Function.update initMinors.idr 5 (some 0)) 5 none m = some d at hm
      simp only [Function.update_apply, initMinors] at hm
      split at hm <;> cases hm
    · change Function.update (Function.update initMinors.opens 0 (.found 0)) 0 (.holding 0) i = .found d at hi
      simp only [Function.update_apply, initMinors] at hi
      split at hi <;> cases hi
  exact ⟨hordered, (minorsAlive_iff openAcross).2 hordered, rfl⟩

/-- A device without open files is unregistered while an open has looked its
minor up: it is freed with its minor still in the idr, and `get_device` is
called on the freed device. -/
theorem get_after_unregister :
    ∃ s, minorLts.exec initMinors [.getMinor 0 5, .deviceInitialize 0, .addDevice 0 true, .lookup 0 5,
        .unregister 0, .getDevice 0] = some s ∧
      s.idr 5 = some 0 ∧ (s.idevs 0).freed = true ∧ s.badGet = true ∧ ¬ MinorsAlive s ∧
      ¬ InitialisedAlive s := by
  refine ⟨_, rfl, rfl, rfl, rfl, fun h => ?_, fun h => ?_⟩
  · cases h.2
  · cases h.2

end Ubbd.Kring
