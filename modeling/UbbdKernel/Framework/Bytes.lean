import Mathlib.Algebra.Order.Ring.Nat
import Mathlib.Tactic.Common
import Mathlib.Tactic.Ring

/-!
# Byte memories

A memory gives each address a byte (`Mem`). `readLE` and `writeLE` are loads
and stores of little-endian words, `fill` is `memset`, and a `Field` is a
member of a C structure: its offset and its width. `SameOn a n` says that two
memories agree on the `n` bytes from `a` on; a value read from these bytes is
then the same in both.
-/

namespace Ubbd

/-- A byte at each address. -/
abbrev Mem := Nat → UInt8

namespace Mem

/-- The little-endian value of the `w` bytes at `a`. -/
def readLE (m : Mem) : Nat → Nat → Nat
  | _, 0 => 0
  | a, w + 1 => (m a).toNat + 256 * readLE m (a + 1) w

/-- Storing the low `w` bytes of `v` at `a`. -/
def writeLE (m : Mem) (a w v : Nat) : Mem := fun x =>
  if a ≤ x ∧ x < a + w then UInt8.ofNat (v / 256 ^ (x - a)) else m x

/-- `memset(a, b, n)`. -/
def fill (m : Mem) (a n : Nat) (b : UInt8) : Mem := fun x =>
  if a ≤ x ∧ x < a + n then b else m x

/-- `m` and `m'` agree on the `n` bytes at `a`. -/
def SameOn (a n : Nat) (m m' : Mem) : Prop := ∀ x, a ≤ x → x < a + n → m' x = m x

/-- `m` and `m'` agree outside the `n` bytes at `a`. -/
def SameOutside (a n : Nat) (m m' : Mem) : Prop := ∀ x, x < a ∨ a + n ≤ x → m' x = m x

theorem SameOn.refl (a n : Nat) (m : Mem) : SameOn a n m m := fun _ _ _ => rfl

theorem SameOn.mono {a n b k : Nat} {m m' : Mem} (h : SameOn a n m m') (ha : a ≤ b)
    (hn : b + k ≤ a + n) : SameOn b k m m' :=
  fun x h1 h2 => h x (by omega) (by omega)

theorem SameOutside.trans {a n : Nat} {m m' m'' : Mem} (h : SameOutside a n m m')
    (h' : SameOutside a n m' m'') : SameOutside a n m m'' :=
  fun x hx => (h' x hx).trans (h x hx)

theorem SameOutside.mono {a n b k : Nat} {m m' : Mem} (h : SameOutside a n m m') (ha : b ≤ a)
    (hn : a + n ≤ b + k) : SameOutside b k m m' :=
  fun x hx => h x (by omega)

/-- Bytes away from a change are the same. -/
theorem SameOutside.sameOn {a n b k : Nat} {m m' : Mem} (h : SameOutside a n m m')
    (hd : b + k ≤ a ∨ a + n ≤ b) : SameOn b k m m' :=
  fun x h1 h2 => h x (by omega)

theorem readLE_congr {m m' : Mem} {a w : Nat} (h : SameOn a w m m') : readLE m' a w = readLE m a w := by
  induction w generalizing a with
  | zero => rfl
  | succ w ih =>
    rw [readLE, readLE, h a (by omega) (by omega), ih (h.mono (by omega) (by omega))]

theorem readLE_eq_of_bytes {m : Mem} {a w v : Nat}
    (h : ∀ i < w, m (a + i) = UInt8.ofNat (v / 256 ^ i)) : readLE m a w = v % 256 ^ w := by
  induction w generalizing a v with
  | zero => simp [readLE, Nat.mod_one]
  | succ w ih =>
    have htail : ∀ i < w, m (a + 1 + i) = UInt8.ofNat (v / 256 / 256 ^ i) := by
      intro i hi
      rw [show a + 1 + i = a + (i + 1) by omega, h (i + 1) (by omega), Nat.div_div_eq_div_mul,
        Nat.pow_succ, Nat.mul_comm]
    have hhead : (m a).toNat = v % 256 := by
      have := h 0 (by omega)
      rw [Nat.add_zero, Nat.pow_zero, Nat.div_one] at this
      simp [this]
    rw [readLE, ih htail, hhead, Nat.pow_succ', Nat.mod_mul]

theorem readLE_writeLE (m : Mem) (a w v : Nat) : readLE (writeLE m a w v) a w = v % 256 ^ w :=
  readLE_eq_of_bytes fun i hi => by
    simp only [writeLE]
    rw [ite_cond_eq_true _ _ (eq_true ⟨by omega, by omega⟩), Nat.add_sub_cancel_left]

theorem readLE_fill {m : Mem} {a n b w : Nat} (h : a ≤ b) (h' : b + w ≤ a + n) :
    readLE (fill m a n 0) b w = 0 := by
  have := readLE_eq_of_bytes (m := fill m a n 0) (a := b) (w := w) (v := 0) fun i hi => by
    simp only [fill]
    rw [ite_cond_eq_true _ _ (eq_true ⟨by omega, by omega⟩), Nat.zero_div]
    rfl
  simpa using this

theorem writeLE_outside (m : Mem) (a w v : Nat) : SameOutside a w m (writeLE m a w v) := fun x hx => by
  simp only [writeLE]
  exact ite_cond_eq_false _ _ (eq_false (by omega))

theorem fill_outside (m : Mem) (a n : Nat) (b : UInt8) : SameOutside a n m (fill m a n b) :=
  fun x hx => by
    simp only [fill]
    exact ite_cond_eq_false _ _ (eq_false (by omega))

theorem readLE_writeLE_of_disjoint {m : Mem} {a w b w' v : Nat} (h : a + w ≤ b ∨ b + w' ≤ a) :
    readLE (writeLE m b w' v) a w = readLE m a w :=
  readLE_congr ((writeLE_outside m b w' v).sameOn h)

end Mem

/-- A member of a structure. -/
structure Field where
  off : Nat
  width : Nat

namespace Field

/-- The value of the member of the structure at `base`. -/
def get (f : Field) (m : Mem) (base : Nat) : Nat := m.readLE (base + f.off) f.width

def set (f : Field) (m : Mem) (base v : Nat) : Mem := m.writeLE (base + f.off) f.width v

/-- The two members share no byte. -/
def Disjoint (f g : Field) : Prop := f.off + f.width ≤ g.off ∨ g.off + g.width ≤ f.off

instance (f g : Field) : Decidable (f.Disjoint g) := inferInstanceAs (Decidable (_ ∨ _))

theorem Disjoint.symm {f g : Field} (h : f.Disjoint g) : g.Disjoint f := Or.symm h

theorem get_set (f : Field) (m : Mem) (base : Nat) {v : Nat} (h : v < 256 ^ f.width) :
    f.get (f.set m base v) base = v := by
  rw [get, set, Mem.readLE_writeLE, Nat.mod_eq_of_lt h]

theorem get_set_of_disjoint {f g : Field} (h : f.Disjoint g) (m : Mem) (base v : Nat) :
    f.get (g.set m base v) base = f.get m base :=
  Mem.readLE_writeLE_of_disjoint (by rcases h with h | h <;> omega)

theorem get_fill {f : Field} {m : Mem} {base n : Nat} (h : f.off + f.width ≤ n) :
    f.get (m.fill base n 0) base = 0 :=
  Mem.readLE_fill (by omega) (by omega)

theorem get_congr {f : Field} {m m' : Mem} {base n : Nat} (h : Mem.SameOn base n m m')
    (hn : f.off + f.width ≤ n) : f.get m' base = f.get m base :=
  Mem.readLE_congr (h.mono (by omega) (by omega))

/-- A store to a member changes only bytes of the structure. -/
theorem set_outside (f : Field) (m : Mem) (base v : Nat) {n : Nat} (hn : f.off + f.width ≤ n) :
    Mem.SameOutside base n m (f.set m base v) :=
  (Mem.writeLE_outside m (base + f.off) f.width v).mono (by omega) (by omega)

end Field

end Ubbd
