import Mathlib.Algebra.BigOperators.Group.Finset.Basic
import Mathlib.Algebra.Order.BigOperators.Group.Finset
import UbbdKernel.Framework.Lts

/-!
# The potential method

Some steps of a system bring in credit, others cost. When every step is paid
from a potential, the costs of a run are bounded by its credit
(`countP_le_credit`). A potential that is a sum over the parts of a state
changes by what its one part changes by (`sum_le_of_one`).
-/

namespace Ubbd.Lts

variable {σ α ι : Type} {M : Lts σ α}

/-- If the labels of a run satisfy `ok`, the steps with `p` are no more than the
potential at the start and the credit of the run. -/
theorem countP_le_credit {ok : α → Prop} {p : α → Bool} {credit : α → Nat} {I : σ → Prop} (Φ : σ → Nat)
    (hstep : ∀ s a s', I s → ok a → M.step s a = some s' →
      I s' ∧ Φ s' + (if p a then 1 else 0) ≤ Φ s + credit a)
    {s s' : σ} (hs : I s) {as : List α} (hok : ∀ a ∈ as, ok a) (he : M.exec s as = some s') :
    as.countP p + Φ s' ≤ Φ s + (as.map credit).sum := by
  induction as generalizing s with
  | nil =>
    cases he
    simp
  | cons a as ih =>
    obtain ⟨s₁, h₁, he⟩ := Option.bind_eq_some_iff.mp he
    obtain ⟨hi, hpay⟩ := hstep s a s₁ hs (hok a (List.mem_cons_self ..)) h₁
    have hrest := ih hi (fun b hb => hok b (List.mem_cons_of_mem _ hb)) he
    rw [List.countP_cons, List.map_cons, List.sum_cons]
    omega

/-- A sum of which one part changes, and no other part grows. -/
theorem sum_le_of_one [DecidableEq ι] {X : Finset ι} {f g : ι → Nat} {i : ι} (hi : i ∈ X)
    (h : ∀ j ∈ X, j ≠ i → g j ≤ f j) {a b : Nat} (hab : g i + a ≤ f i + b) :
    ∑ j ∈ X, g j + a ≤ ∑ j ∈ X, f j + b := by
  have hrest : ∑ j ∈ X.erase i, g j ≤ ∑ j ∈ X.erase i, f j :=
    Finset.sum_le_sum fun j hj => h j (Finset.mem_of_mem_erase hj) (Finset.ne_of_mem_erase hj)
  rw [← Finset.add_sum_erase X g hi, ← Finset.add_sum_erase X f hi]
  omega

end Ubbd.Lts
