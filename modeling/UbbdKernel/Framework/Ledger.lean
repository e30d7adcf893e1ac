import Mathlib.Algebra.Order.Ring.Nat
import Mathlib.Algebra.Order.Group.Multiset
import Mathlib.Data.Multiset.AddSub

/-!
# What is allocated and given back

A ledger keeps the allocations that are alive, each with a kind and a number
of its own, and whether something was ever given back that was not alive.

`Holds l₀ l rs` says what happened between the ledgers `l₀` and `l`: the
allocations `rs` were made and are alive, all others that were made were given
back, and nothing else was touched. It has a rule for each operation
(`Holds.alloc`, `Holds.release`, `Holds.releaseOpt`), and a function that keeps
its own account leaves nothing behind exactly when `rs` is empty
(`Holds.live_eq_iff`).
-/

namespace Ubbd

/-- The allocations that are alive, and the number of the next one. -/
structure Ledger (κ : Type) where
  live : Multiset (κ × Nat)
  next : Nat
  fresh : ∀ r ∈ live, r.2 < next
  /-- Something was given back that was not alive. -/
  twice : Bool

namespace Ledger

variable {κ : Type}

def empty (κ : Type) : Ledger κ where
  live := 0
  next := 0
  fresh := fun _ h => absurd h (Multiset.notMem_zero _)
  twice := false

/-- Allocates `next`. -/
def alloc (l : Ledger κ) (kind : κ) : Ledger κ where
  live := (kind, l.next) ::ₘ l.live
  next := l.next + 1
  fresh := fun r hr => by
    rcases Multiset.mem_cons.mp hr with rfl | hr
    · exact Nat.lt_succ_self _
    · exact (l.fresh r hr).trans (Nat.lt_succ_self _)
  twice := l.twice

variable [DecidableEq κ]

def release (l : Ledger κ) (kind : κ) (n : Nat) : Ledger κ :=
  if (kind, n) ∈ l.live then
    { l with
      live := l.live.erase (kind, n)
      fresh := fun r hr => l.fresh r (Multiset.mem_of_mem_erase hr) }
  else { l with twice := true }

/-- Giving back what a pointer points to, if it is not NULL. -/
def releaseOpt (l : Ledger κ) (kind : κ) : Option Nat → Ledger κ
  | none => l
  | some n => l.release kind n

/-- What a pointer points to. -/
def opt (kind : κ) : Option Nat → Multiset (κ × Nat)
  | none => 0
  | some n => {(kind, n)}

/-- From `l₀` to `l`, `rs` were allocated and are alive, and nothing else has changed. -/
structure Holds (l₀ l : Ledger κ) (rs : Multiset (κ × Nat)) : Prop where
  live : l.live = rs + l₀.live
  twice : l.twice = l₀.twice

namespace Holds

variable {l₀ l : Ledger κ} {rs rs' : Multiset (κ × Nat)} {kind : κ} {n : Nat}

omit [DecidableEq κ] in
theorem refl (l : Ledger κ) : Holds l l 0 := ⟨(zero_add _).symm, rfl⟩

omit [DecidableEq κ] in
theorem congr (h : Holds l₀ l rs) (hrs : rs = rs') : Holds l₀ l rs' := hrs ▸ h

omit [DecidableEq κ] in
theorem alloc (h : Holds l₀ l rs) (kind : κ) : Holds l₀ (l.alloc kind) ((kind, l.next) ::ₘ rs) := by
  refine ⟨?_, h.twice⟩
  show (kind, l.next) ::ₘ l.live = _
  rw [h.live, Multiset.cons_add]

theorem release (h : Holds l₀ l ((kind, n) ::ₘ rs)) : Holds l₀ (l.release kind n) rs := by
  have hlive := h.live
  rw [Multiset.cons_add] at hlive
  have hmem : (kind, n) ∈ l.live := by
    rw [hlive]
    exact Multiset.mem_cons_self ..
  rw [Ledger.release, if_pos hmem]
  refine ⟨?_, h.twice⟩
  show l.live.erase (kind, n) = _
  rw [hlive, Multiset.erase_cons_head]

theorem releaseOpt {o : Option Nat} (h : Holds l₀ l (opt kind o + rs)) : Holds l₀ (l.releaseOpt kind o) rs := by
  cases o with
  | none => exact h.congr (zero_add rs)
  | some n => exact (h.congr (Multiset.singleton_add (kind, n) rs)).release

omit [DecidableEq κ] in
/-- The same allocations are alive exactly when nothing is left behind. -/
theorem live_eq_iff (h : Holds l₀ l rs) : l.live = l₀.live ↔ rs = 0 := by
  rw [h.live, add_eq_right]

end Holds

end Ledger

end Ubbd
