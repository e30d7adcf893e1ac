import Mathlib.Algebra.Order.Ring.Nat

/-!
# Words shared by the model of the driver

Statuses, error numbers and operations, and the C integer conversions the
driver's code makes. A `u32` or `u64` is a `Nat`, with `% 2 ^ w` where the
code's own arithmetic wraps; an `int` is an `Int`.
-/

namespace Ubbd

/-- The status of a queue (`UBBD_QUEUE_KSTATUS_*`). -/
inductive QueueStatus
  | running | stopping | stopped | removing
  deriving DecidableEq, Repr

/-- The status of a device (`UBBD_DEV_KSTATUS_*`). -/
inductive DevStatus
  | init | prepared | running | removing
  deriving DecidableEq, Repr

/-- The error numbers the driver returns. -/
inductive Errno
  | eio | ebusy | enomem | einval | enoent | emsgsize
  deriving DecidableEq, Repr

/-- The operation of a block layer request (`req_op`); `other` stands for
those the driver refuses. -/
inductive ReqOp
  | flush | discard | writeZeroes | write | read | other
  deriving DecidableEq, Repr

/-- The operation of a submission entry (`enum ubbd_op`). -/
inductive UbbdOp
  | write | read | discard | writeZeros | flush | pad
  deriving DecidableEq, Repr

/-- The conversion of an unsigned value to `int`. -/
def toInt32 (n : Nat) : Int := if n % 2 ^ 32 < 2 ^ 31 then n % 2 ^ 32 else n % 2 ^ 32 - 2 ^ 32

/-- The conversion of an `int` to `unsigned long`. -/
def toULong (i : Int) : Nat := (i % 2 ^ 64).toNat

/-- The conversion of an `int` to `uint32_t`. -/
def toUInt32 (i : Int) : Nat := (i % 2 ^ 32).toNat

theorem toInt32_of_lt {n : Nat} (h : n < 2 ^ 31) : toInt32 n = n := by
  unfold toInt32
  split <;> omega

theorem toInt32_of_ge {n : Nat} (h : 2 ^ 31 ≤ n) (h' : n < 2 ^ 32) : toInt32 n = n - 2 ^ 32 := by
  unfold toInt32
  split <;> omega

theorem toULong_ofNat {n : Nat} (h : n < 2 ^ 64) : toULong n = n := by
  unfold toULong; omega

/-- An unsigned value survives the round trip through `int`. -/
theorem toUInt32_toInt32 {n : Nat} (h : n < 2 ^ 32) : toUInt32 (toInt32 n) = n := by
  unfold toUInt32 toInt32
  split <;> omega

end Ubbd
