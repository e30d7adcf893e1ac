import Mathlib.Algebra.Order.Ring.Nat
import Mathlib.Data.List.Pairwise
import Mathlib.Tactic.Common

/-!
# Memories of pages

A memory of pages gives each page its bytes (`PageMem`). A `Copy` is a
`memcpy` from a page of one memory to a page of another, at the same offset in
both. After a list of copies whose destinations are apart, each destination
holds the bytes of its source (`copyAll_of_mem`), and every other byte is what
it was (`copyAll_frame`).
-/

namespace Ubbd

/-- The byte of a page at an offset. -/
abbrev PageMem := Nat → Nat → UInt8

structure Copy where
  dst : Nat
  src : Nat
  off : Nat
  len : Nat

namespace Copy

/-- The copy writes to the byte of page `p` at `x`. -/
def Writes (c : Copy) (p x : Nat) : Prop := p = c.dst ∧ c.off ≤ x ∧ x < c.off + c.len

instance (c : Copy) (p x : Nat) : Decidable (c.Writes p x) := inferInstanceAs (Decidable (_ ∧ _))

/-- No byte is written by both. -/
def Apart (c d : Copy) : Prop := c.dst = d.dst → c.off + c.len ≤ d.off ∨ d.off + d.len ≤ c.off

end Copy

namespace PageMem

/-- The `len` bytes of page `p` at `off`. -/
def bytes (m : PageMem) (p off len : Nat) : List UInt8 := (List.range len).map fun k => m p (off + k)

/-- `memcpy(dst + off, src + off, len)`. -/
def memcpy (m src : PageMem) (c : Copy) : PageMem := fun p x => if c.Writes p x then src c.src x else m p x

def copyAll (m src : PageMem) (cs : List Copy) : PageMem := cs.foldl (fun m c => m.memcpy src c) m

variable {m src : PageMem} {cs : List Copy} {p x : Nat}

theorem copyAll_frame (h : ∀ c ∈ cs, ¬ c.Writes p x) : copyAll m src cs p x = m p x := by
  induction cs generalizing m with
  | nil => rfl
  | cons c cs ih =>
    show copyAll (m.memcpy src c) src cs p x = m p x
    rw [ih fun d hd => h d (List.mem_cons_of_mem _ hd)]
    exact if_neg (h c (List.mem_cons_self ..))

theorem copyAll_of_mem (hap : cs.Pairwise Copy.Apart) {c : Copy} (hc : c ∈ cs) (hx : c.off ≤ x)
    (hx' : x < c.off + c.len) : copyAll m src cs c.dst x = src c.src x := by
  induction cs generalizing m with
  | nil => cases hc
  | cons d cs ih =>
    rw [List.pairwise_cons] at hap
    show copyAll (m.memcpy src d) src cs c.dst x = src c.src x
    rcases List.mem_cons.mp hc with rfl | hc
    · -- the copies after it write elsewhere
      rw [copyAll_frame fun e he hw => ?_]
      · exact if_pos ⟨rfl, hx, hx'⟩
      · obtain ⟨hdst, h1, h2⟩ := hw
        rcases hap.1 e he hdst with h | h
        · omega
        · omega
    · exact ih hap.2 hc

theorem bytes_congr {m m' : PageMem} {p q off len : Nat} (h : ∀ x, off ≤ x → x < off + len → m p x = m' q x) :
    m.bytes p off len = m'.bytes q off len := by
  refine List.map_congr_left fun k hk => ?_
  have := List.mem_range.mp hk
  exact h _ (by omega) (by omega)

end PageMem

end Ubbd
