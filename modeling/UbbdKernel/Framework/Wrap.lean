import Mathlib.Algebra.Order.Ring.Nat
import Mathlib.Tactic.Common

/-!
# Divisions that wrap

A product that is divided after it was reduced to the width of its type
(`mod_div_eq_iff`), and a division by a number that was reduced to a narrower
type (`div_mod_eq_iff`): when the quotient is still the right one.
-/

namespace Ubbd.Wrap

variable {m k n x : Nat}

/-- A reduced dividend gives the quotient only if it was small enough not to change. -/
theorem mod_div_eq_iff (hk : 0 < k) (hkm : k ≤ m) : x % m / k = x / k ↔ x < m := by
  refine ⟨fun h => ?_, fun h => by rw [Nat.mod_eq_of_lt h]⟩
  by_contra hge
  have hle : x % m ≤ x - k := by
    have hmod := Nat.mod_add_div x m
    have hquot : m * 1 ≤ m * (x / m) := Nat.mul_le_mul_left m (Nat.div_pos (by omega) (by omega))
    omega
  have hdiv : x % m / k ≤ (x - k) / k := Nat.div_le_div_right hle
  rw [h, Nat.div_eq_sub_div hk (by omega)] at hdiv
  omega

/-- A reduced divisor gives the quotient only if it has not changed, or the quotient is 0. -/
theorem div_mod_eq_iff (hm : 0 < m) (hne : n % m ≠ 0) : x / (n % m) = x / n ↔ n < m ∨ x < n % m := by
  by_cases hlt : n < m
  · rw [Nat.mod_eq_of_lt hlt]
    exact iff_of_true rfl (.inl hlt)
  -- what is left of the divisor is less than half of it
  have htwice : n % m * 2 ≤ n := by
    have hmod := Nat.mod_add_div n m
    have hrest := Nat.mod_lt n hm
    have hquot : m * 1 ≤ m * (n / m) := Nat.mul_le_mul_left m (Nat.div_pos (by omega) hm)
    omega
  by_cases hx : x < n % m
  · rw [Nat.div_eq_of_lt hx, Nat.div_eq_of_lt (by omega)]
    exact iff_of_true rfl (.inr hx)
  · refine iff_of_false (fun h => ?_) (not_or.mpr ⟨hlt, hx⟩)
    have hpos : 0 < x / (n % m) := Nat.div_pos (by omega) (by omega)
    have hle : x / n ≤ x / (n % m * 2) := Nat.div_le_div_left htwice (by omega)
    rw [← Nat.div_div_eq_div_mul, ← h] at hle
    omega

end Ubbd.Wrap
