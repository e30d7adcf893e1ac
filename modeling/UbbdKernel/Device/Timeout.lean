import Mathlib.Tactic.Common
import UbbdKernel.Basic

/-!
# The I/O timeout

`handle_cmd_add_dev` takes the `io_timeout` attribute in seconds, with
`UINT_MAX` for no timeout; `ubbd_init_disk` and `ubbd_add_disk_fn` program it
in jiffies, as a product of `u32`s, and `__timeout` lets a request run on only
if its timeout is exactly `UINT_MAX`. The product keeps what was configured
exactly for the timeouts that fit (`effective_iff`); above all, the value for
no timeout is programmed as a timeout of `2 ^ 32 - HZ` jiffies, after which
the disk is removed.
-/

namespace Ubbd.Timeout

/-- `UINT_MAX`, the `io_timeout` of a device without one and
`UBBD_DEV_OP_TIMEOUT_DEFAULT`. -/
def uintMax : Nat := 2 ^ 32 - 1

/-- `io_timeout`, as `handle_cmd_add_dev` sets it. -/
def ioTimeout (attr : Option UInt32) : Nat :=
  let ioTimeout := match attr with
    | some t => t.toNat
    | none => 0
  if ioTimeout = 0 then uintMax else ioTimeout

/-- `ubbd_dev->io_timeout * HZ`. -/
def jiffies (hz io : Nat) : Nat := io * hz % 2 ^ 32

/-- The `tag_set.timeout` of `ubbd_init_disk`. -/
def tagSetTimeout (hz io : Nat) : Nat := jiffies hz io

/-- The timeouts that `ubbd_add_disk_fn` sets with `blk_queue_rq_timeout`, in
order, for a device that is prepared; `ok`: `ubbd_add_disk` returns 0. -/
def addDiskTimeouts (hz io : Nat) (ok : Bool) : List Nat :=
  uintMax :: if ok then [jiffies hz io] else []

inductive EhTimer
  | resetTimer | done
  deriving DecidableEq, Repr

/-- `__timeout`: what it returns, and whether it removes the disk by force. -/
def timeout (reqTimeout : Nat) : EhTimer × Bool :=
  if reqTimeout = uintMax then (.resetTimer, false) else (.done, true)

/-- `v` is programmed for the attribute: in the tag set, or in the queue once the
disk is added. -/
def Programmed (hz : Nat) (attr : Option UInt32) (v : Nat) : Prop :=
  v = tagSetTimeout hz (ioTimeout attr) ∨ (addDiskTimeouts hz (ioTimeout attr) true).getLast? = some v

/-- The attribute asks for no timeout. -/
def NoTimeout (attr : Option UInt32) : Prop := ∀ t, attr = some t → t.toNat = 0 ∨ t.toNat = uintMax

/-- The configured timeout is the effective one: none at all, or at least the
configured time, and no longer for a shorter one. -/
structure Effective (hz : Nat) (attr : Option UInt32) : Prop where
  never : NoTimeout attr → ∀ v, Programmed hz attr v → v = uintMax ∧ timeout v = (.resetTimer, false)
  long : ¬ NoTimeout attr → ∀ v, Programmed hz attr v → min (ioTimeout attr * hz) uintMax ≤ v
  mono : ∀ t, attr = some t → ¬ NoTimeout attr → ∀ t' : UInt32, t' ≤ t → ¬ NoTimeout (some t') →
    ∀ v v', Programmed hz attr v → Programmed hz (some t') v' → v' ≤ v

theorem programmed_iff (hz : Nat) (attr : Option UInt32) (v : Nat) :
    Programmed hz attr v ↔ v = jiffies hz (ioTimeout attr) := by
  simp only [Programmed, tagSetTimeout, addDiskTimeouts, ite_true, List.getLast?_cons_cons,
    List.getLast?_singleton, Option.some.injEq]
  rw [@eq_comm _ _ v, or_self]

theorem ioTimeout_of_noTimeout {attr : Option UInt32} (h : NoTimeout attr) : ioTimeout attr = uintMax := by
  unfold ioTimeout
  cases attr with
  | none => rfl
  | some t =>
    rcases h t rfl with h | h
    · exact if_pos h
    · simp only [h]
      rfl

theorem noTimeout_some (t : UInt32) : NoTimeout (some t) ↔ t.toNat = 0 ∨ t.toNat = uintMax :=
  ⟨fun h => h t rfl, fun h t' ht => by cases ht; exact h⟩

theorem ioTimeout_some {t : UInt32} (h : t.toNat ≠ 0) : ioTimeout (some t) = t.toNat := by
  simp only [ioTimeout, if_neg h]

/-- No `HZ` but 1 leaves `UINT_MAX` as it is. -/
theorem jiffies_uintMax {hz : Nat} (h : 1 < hz) (hlt : hz < 2 ^ 31) : jiffies hz uintMax = 2 ^ 32 - hz := by
  obtain ⟨k, rfl⟩ : ∃ k, hz = k + 1 := ⟨hz - 1, by omega⟩
  have hmul : uintMax * (k + 1) = k * 2 ^ 32 + (2 ^ 32 - (k + 1)) := by
    rw [uintMax]
    omega
  rw [jiffies, hmul]
  omega

/-- A product that wraps is less than the configured time, and is too small but
where it wraps to `UINT_MAX`. -/
theorem min_le_jiffies_iff (hz io : Nat) :
    min (io * hz) uintMax ≤ jiffies hz io ↔ io * hz < 2 ^ 32 ∨ 2 ^ 32 ∣ io * hz + 1 := by
  rw [jiffies, uintMax, Nat.dvd_iff_mod_eq_zero]
  omega

theorem effective_iff {hz : Nat} (h : 1 < hz) (hlt : hz < 2 ^ 31) (attr : Option UInt32) :
    Effective hz attr ↔ ∃ t, attr = some t ∧ t.toNat ≠ 0 ∧ t.toNat ≠ uintMax ∧
      (t.toNat * hz < 2 ^ 32 ∨ 2 ^ 32 ∣ t.toNat * hz + 1) := by
  constructor
  · intro he
    have hno : ¬ NoTimeout attr := by
      intro hno
      have := (he.never hno _ ((programmed_iff hz attr _).mpr rfl)).1
      rw [ioTimeout_of_noTimeout hno, jiffies_uintMax h hlt, uintMax] at this
      omega
    cases attr with
    | none => exact absurd (fun _ ht => nomatch ht) hno
    | some t =>
      obtain ⟨h0, hmax⟩ := not_or.mp fun ht => hno ((noTimeout_some t).mpr ht)
      have hlong := he.long hno _ ((programmed_iff hz (some t) _).mpr rfl)
      rw [ioTimeout_some h0, min_le_jiffies_iff] at hlong
      exact ⟨t, rfl, h0, hmax, hlong⟩
  · rintro ⟨t, rfl, h0, hmax, hfit⟩
    have hno : ¬ NoTimeout (some t) := fun hno => ((noTimeout_some t).mp hno).elim h0 hmax
    refine ⟨fun hn => absurd hn hno, fun _ v hv => ?_, fun t₁ ht₁ _ t' hle hno' v v' hv hv' => ?_⟩
    · rw [(programmed_iff hz _ v).mp hv, ioTimeout_some h0]
      exact (min_le_jiffies_iff hz t.toNat).mpr hfit
    · obtain rfl := Option.some.inj ht₁
      rw [programmed_iff, ioTimeout_some h0] at hv
      have h0' : t'.toNat ≠ 0 := fun h0' => hno' ((noTimeout_some t').mpr (.inl h0'))
      rw [programmed_iff, ioTimeout_some h0'] at hv'
      have hmul : t'.toNat * hz ≤ t.toNat * hz := Nat.mul_le_mul_right hz (UInt32.le_iff_toNat_le.mp hle)
      have hmin := (min_le_jiffies_iff hz t.toNat).mpr hfit
      rw [hv, hv']
      -- the programmed value of `t'` is at most `t' * HZ` and at most `UINT_MAX`
      refine Nat.le_trans (Nat.le_min.mpr ⟨?_, ?_⟩) hmin
      · exact Nat.le_trans (Nat.mod_le ..) hmul
      · exact Nat.le_sub_one_of_lt (Nat.mod_lt _ (by decide))

/-- A timeout of 30 seconds. -/
theorem effective_iff_thirty : 1 < 250 ∧ 250 < 2 ^ 31 ∧ Effective 250 (some 30) :=
  ⟨by decide, by decide, (effective_iff (by decide) (by decide) (some 30)).mpr
    ⟨30, rfl, by decide, by decide, .inl (by decide)⟩⟩

/-- Without the attribute, a request that takes `2 ^ 32 - 1000` jiffies makes
`__timeout` remove the disk. -/
theorem no_attribute_removes : ∃ v, Programmed 1000 none v ∧ v = 2 ^ 32 - 1000 ∧ timeout v = (.done, true) ∧
    ¬ Effective 1000 none := by
  refine ⟨2 ^ 32 - 1000, .inl (by decide), rfl, by decide, fun h => ?_⟩
  have := (h.never (fun _ ht => nomatch ht) (2 ^ 32 - 1000) (.inl (by decide))).1
  exact absurd this (by decide)

end Ubbd.Timeout
