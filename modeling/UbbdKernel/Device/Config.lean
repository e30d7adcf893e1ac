import UbbdKernel.Basic
import UbbdKernel.Framework.Lts
import UbbdKernel.Framework.Wrap

/-!
# The reserve of data pages

`ubbd_queue_create` sets `data_pages_reserved` to 75 percent of `data_pages`,
and `ubbd_dev_config` to another percentage. Both multiply first, in `u32`, so
they set the percentage exactly where the product does not wrap
(`reserved_iff`). `reserveLaw_iff`: this is so for every percentage and along
every run of configurations when 100 times `data_pages` fits a `u32`.
-/

namespace Ubbd.Config

/-- The pages of `struct ubbd_queue`. -/
structure Queue where
  dataPages : UInt32
  dataPagesReserved : UInt32
  deriving DecidableEq

structure Device where
  status : DevStatus
  queues : List Queue
  /-- The capacity of its disk, in sectors. -/
  capacity : UInt64

/-- `struct ubbd_dev_config_opts`; an option whose flag is not set is missing. -/
structure ConfigOpts where
  dpReservePercnt : Option UInt32
  devSize : Option UInt64

/-- `data_pages`, as `handle_cmd_add_dev` sets it. -/
def dataPages (attr : Option UInt32) : UInt32 :=
  match attr with
  | some n => n
  | none => 256 * 1024

/-- The pages of a queue, as `ubbd_queue_create` sets them. -/
def ubbdQueueCreate (dataPages : UInt32) : Queue where
  dataPages := dataPages
  dataPagesReserved := dataPages * 75 / 100

/-- What `ubbd_dev_config` does to each queue. -/
def setReserved (percnt : UInt32) (q : Queue) : Queue :=
  { q with dataPagesReserved := percnt * q.dataPages / 100 }

/-- `ubbd_dev_config`, with the error it returns. -/
def ubbdDevConfig (opts : ConfigOpts) (d : Device) : Option Errno × Device :=
  if d.status ≠ .running then (some .einval, d)
  else if opts.dpReservePercnt.any fun percnt => percnt > 100 then (some .einval, d)
  else
    let d := match opts.dpReservePercnt with
      | some percnt => { d with queues := d.queues.map (setReserved percnt) }
      | none => d
    let d := match opts.devSize with
      | some n => { d with capacity := n / 512 }
      | none => d
    (none, d)

/-! ## Runs -/

/-- A device, and the percentage that was last set. -/
structure State where
  dev : Device
  percnt : UInt32

inductive Label
  | config (opts : ConfigOpts)
  /-- The device comes up or is removed. -/
  | setStatus (status : DevStatus)

def step (s : State) : Label → Option State
  | .config opts =>
    let (err, d) := ubbdDevConfig opts s.dev
    some ⟨d, if err = none then opts.dpReservePercnt.getD s.percnt else s.percnt⟩
  | .setStatus status => some { s with dev := { s.dev with status := status } }

/-- A new device whose queues have `dataPages` pages each. -/
def initState (dataPages : UInt32) (numQueues : Nat) : State where
  dev := ⟨.init, List.replicate numQueues (ubbdQueueCreate dataPages), 0⟩
  percnt := 75

def lts : Lts State Label where
  init s := ∃ n k, s = initState n k
  step := step

/-- The reserve is the stated percentage of the pages. -/
structure ReserveLaw (dataPages : UInt32) : Prop where
  /-- Whatever is configured, for any number of queues. -/
  exact : ∀ numQueues as, lts.States
    (fun s => ∀ q ∈ s.dev.queues, q.dataPagesReserved.toNat = s.percnt.toNat * dataPages.toNat / 100)
    (initState dataPages numQueues) as
  le : ∀ numQueues as, lts.States (fun s => ∀ q ∈ s.dev.queues, q.dataPagesReserved ≤ dataPages)
    (initState dataPages numQueues) as
  mono : ∀ p p' : UInt32, p ≤ p' → p' ≤ 100 → ∀ q : Queue, q.dataPages = dataPages →
    (setReserved p q).dataPagesReserved ≤ (setReserved p' q).dataPagesReserved
  restores : ∀ q : Queue, q.dataPages = dataPages → setReserved 75 q = ubbdQueueCreate dataPages

/-! ## One percentage -/

variable {n p : UInt32}

theorem reserved_toNat (p n : UInt32) : (p * n / 100).toNat = p.toNat * n.toNat % 2 ^ 32 / 100 := by
  rw [UInt32.toNat_div, UInt32.toNat_mul]
  rfl

/-- The percentage is exact when the product does not wrap. -/
theorem reserved_iff (p n : UInt32) :
    (p * n / 100).toNat = p.toNat * n.toNat / 100 ↔ p.toNat * n.toNat < 2 ^ 32 := by
  rw [reserved_toNat]
  exact Wrap.mod_div_eq_iff (by decide) (by decide)

theorem reserved_le (hp : p ≤ 100) : p * n / 100 ≤ n := by
  have hp' : p.toNat ≤ 100 := UInt32.le_iff_toNat_le.mp hp
  rw [UInt32.le_iff_toNat_le, reserved_toNat]
  have hmul : p.toNat * n.toNat ≤ 100 * n.toNat := Nat.mul_le_mul_right _ hp'
  exact Nat.div_le_of_le_mul (Nat.le_trans (Nat.mod_le ..) hmul)

theorem setReserved_seventyFive {q : Queue} (h : q.dataPages = n) : setReserved 75 q = ubbdQueueCreate n := by
  subst h
  rw [setReserved, ubbdQueueCreate, UInt32.mul_comm]

/-! ## All runs -/

/-- Every queue has the last percentage, as `u32` arithmetic gives it. -/
structure Inv (n : UInt32) (s : State) : Prop where
  percnt : s.percnt ≤ 100
  queues : ∀ q ∈ s.dev.queues, q.dataPages = n ∧ q.dataPagesReserved = s.percnt * n / 100

/-- What `ubbd_dev_config` does, if it returns no error. -/
theorem ubbdDevConfig_cases (opts : ConfigOpts) (d : Device) :
    ubbdDevConfig opts d = (some .einval, d) ∨
      ∃ cap, (∀ p ∈ opts.dpReservePercnt, p ≤ 100) ∧ ubbdDevConfig opts d =
        (none, ⟨d.status, opts.dpReservePercnt.elim d.queues fun p => d.queues.map (setReserved p), cap⟩) := by
  obtain ⟨percnt, devSize⟩ := opts
  unfold ubbdDevConfig
  split
  · exact .inl rfl
  split
  · exact .inl rfl
  rename_i hvalid
  refine .inr ⟨(devSize.map (· / 512)).getD d.capacity, fun p hp => ?_, ?_⟩
  · cases hp
    simpa using hvalid
  · cases percnt <;> cases devSize <;> rfl

theorem initState_inv (n : UInt32) (numQueues : Nat) : Inv n (initState n numQueues) := by
  have hpercnt : (75 : UInt32) ≤ 100 := by decide
  refine ⟨hpercnt, fun q hq => ?_⟩
  rw [(List.mem_replicate.mp hq).2]
  exact ⟨rfl, by rw [ubbdQueueCreate, UInt32.mul_comm]; rfl⟩

theorem step_inv {s s' : State} {a : Label} (h : Inv n s) (hs : step s a = some s') : Inv n s' := by
  cases a with
  | setStatus status =>
    cases hs
    exact ⟨h.percnt, h.queues⟩
  | config opts =>
    rw [step] at hs
    obtain heq | ⟨cap, hle, heq⟩ := ubbdDevConfig_cases opts s.dev
    · rw [heq] at hs
      cases hs
      exact ⟨h.percnt, h.queues⟩
    · rw [heq] at hs
      cases hs
      cases hp : opts.dpReservePercnt with
      | none => exact ⟨h.percnt, h.queues⟩
      | some p =>
        refine ⟨hle p hp, fun q hq => ?_⟩
        obtain ⟨q, hmem, rfl⟩ := List.mem_map.mp hq
        have hpages := (h.queues q hmem).1
        refine ⟨hpages, ?_⟩
        show p * q.dataPages / 100 = p * n / 100
        rw [hpages]

theorem states_inv (n : UInt32) (numQueues : Nat) (as : List Label) :
    lts.States (Inv n) (initState n numQueues) as :=
  Lts.states_of_steps (M := lts) (fun _ _ _ hi hs _ => step_inv hi hs) (initState_inv n numQueues)
    (Lts.steps_true _ as)

/-- The device is started, and then 100 percent are configured. -/
def all : List Label := [.setStatus .running, .config ⟨some 100, none⟩]

theorem exec_all (n : UInt32) :
    lts.exec (initState n 1) all = some ⟨⟨.running, [⟨n, 100 * n / 100⟩], 0⟩, 100⟩ := rfl

theorem reserveLaw_of_le {dataPages : UInt32} (hle : dataPages.toNat ≤ 42949672) : ReserveLaw dataPages := by
  have hfit : ∀ p : UInt32, p ≤ 100 → p.toNat * dataPages.toNat < 2 ^ 32 := fun p hp => by
    have hp' : p.toNat ≤ 100 := UInt32.le_iff_toNat_le.mp hp
    have hmul := Nat.mul_le_mul hp' hle
    omega
  have heq : ∀ p : UInt32, p ≤ 100 → (p * dataPages / 100).toNat = p.toNat * dataPages.toNat / 100 := fun p hp =>
    (reserved_iff p dataPages).mpr (hfit p hp)
  refine ⟨fun k as => (states_inv dataPages k as).mono fun s hi q hq => ?_,
    fun k as => (states_inv dataPages k as).mono fun s hi q hq => ?_, fun p p' hpp hp' q hq => ?_,
    fun q hq => setReserved_seventyFive hq⟩
  · rw [(hi.queues q hq).2]
    exact heq _ hi.percnt
  · rw [(hi.queues q hq).2]
    exact reserved_le hi.percnt
  · rw [setReserved, setReserved, hq, UInt32.le_iff_toNat_le, heq p (UInt32.le_trans hpp hp'), heq p' hp']
    exact Nat.div_le_div_right (Nat.mul_le_mul_right _ (UInt32.le_iff_toNat_le.mp hpp))

/-- The default number of pages is far from where the product wraps. -/
theorem reserveLaw_default : ReserveLaw (dataPages none) := reserveLaw_of_le (by decide)

/-- The law holds for the numbers of pages of which 100 times fit a `u32`, and
one percentage is exact when that many times the pages do. -/
theorem reserveLaw_iff (dataPages : UInt32) :
    (ReserveLaw dataPages ↔ dataPages.toNat ≤ 42949672) ∧ ∀ p q, q.dataPages = dataPages →
      ((setReserved p q).dataPagesReserved.toNat = p.toNat * dataPages.toNat / 100 ↔
        p.toNat * dataPages.toNat < 2 ^ 32) := by
  refine ⟨⟨fun h => ?_, reserveLaw_of_le⟩, fun p q hq => ?_⟩
  · have hlast := (h.exact 1 all).last (exec_all dataPages) _ (List.mem_singleton_self _)
    have hfit : 100 * dataPages.toNat < 2 ^ 32 := (reserved_iff 100 dataPages).mp hlast
    omega
  · rw [setReserved, hq]
    exact reserved_iff p dataPages

/-- 75 times this number of pages is `2 ^ 32 + 29`, and nothing is reserved. -/
theorem reserve_wraps : (ubbdQueueCreate 57266231).dataPagesReserved = 0 ∧ ¬ ReserveLaw 57266231 := by
  refine ⟨by decide, fun h => ?_⟩
  have hfirst : (ubbdQueueCreate 57266231).dataPagesReserved.toNat = 75 * 57266231 / 100 :=
    h.exact 1 [] _ (List.mem_singleton_self _)
  revert hfirst
  decide

end Ubbd.Config
