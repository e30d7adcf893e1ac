import Mathlib.Algebra.Order.Ring.Nat
import Mathlib.Tactic.Common

/-!
# Spans of a circular buffer

A circular buffer of `n` bytes holds spans one after another, each starting
where the one before it ends (`Chain`), the end of the buffer leading back to
its start. No span straddles the end (`Span.Fits`). `dist n p x` is how far
`x` lies behind `p` around the buffer: the bytes of a chain from `p` are those
at a distance below its total length (`Chain.dist_lt`), its end is at that
distance (`Chain.dist_end`), so the bytes from its end on are free
(`Chain.free`), and no two of its spans share a byte (`Chain.pairwise`).
-/

namespace Ubbd

/-- `len` bytes at `pos`. -/
structure Span where
  pos : Nat
  len : Nat

namespace Span

/-- The span is not empty and ends by the end of the buffer. -/
def Fits (n : Nat) (s : Span) : Prop := 0 < s.len ∧ s.pos + s.len ≤ n

def Contains (s : Span) (x : Nat) : Prop := s.pos ≤ x ∧ x < s.pos + s.len

/-- The two spans share no byte. -/
def Disjoint (s t : Span) : Prop := s.pos + s.len ≤ t.pos ∨ t.pos + t.len ≤ s.pos

theorem Fits.lt {n : Nat} {s : Span} (h : s.Fits n) : s.pos < n := by
  have := h.1; have := h.2; omega

theorem Disjoint.symm {s t : Span} (h : s.Disjoint t) : t.Disjoint s := Or.symm h

instance : Std.Symm Span.Disjoint := ⟨fun _ _ => Disjoint.symm⟩

theorem disjoint_of_forall {s t : Span} (hs : 0 < s.len) (ht : 0 < t.len)
    (h : ∀ x, s.Contains x → ¬ t.Contains x) : s.Disjoint t := by
  unfold Disjoint
  by_contra hn
  rcases Nat.le_total s.pos t.pos with hle | hle
  · exact h t.pos ⟨by omega, by omega⟩ ⟨by omega, by omega⟩
  · exact h s.pos ⟨by omega, by omega⟩ ⟨by omega, by omega⟩

end Span

namespace Circular

/-- The position `len` bytes after `p`. -/
def next (n p len : Nat) : Nat := (p + len) % n

theorem next_eq {n p len : Nat} (h : p + len ≤ n) :
    next n p len = if p + len = n then 0 else p + len := by
  unfold next
  split
  · rename_i e
    rw [e, Nat.mod_self]
  · exact Nat.mod_eq_of_lt (by omega)

/-- How far `x` lies behind `p`. -/
def dist (n p x : Nat) : Nat := if p ≤ x then x - p else x + n - p

theorem dist_self (n p : Nat) : dist n p p = 0 := by simp [dist]

/-- Moving the origin past a span. -/
theorem dist_next {n p len x : Nat} (hp : p + len ≤ n) (hpn : p < n)
    (hd : dist n (next n p len) x + len < n) : dist n p x = dist n (next n p len) x + len := by
  rw [next_eq hp] at hd ⊢
  unfold dist at *
  split at hd <;> split at hd <;> split <;> omega

theorem dist_lt_size {n p x : Nat} (hp : p < n) (hx : x < n) : dist n p x < n := by
  unfold dist
  split <;> omega

/-- Spans one after another, from `p` to `q`. -/
def Chain (n : Nat) : Nat → List Span → Nat → Prop
  | p, [], q => p = q
  | p, s :: ss, q => s.pos = p ∧ Chain n (next n p s.len) ss q

/-- The length of all the spans. -/
def total (ss : List Span) : Nat := (ss.map Span.len).sum

@[simp] theorem total_nil : total [] = 0 := rfl

@[simp] theorem total_cons (s : Span) (ss : List Span) : total (s :: ss) = s.len + total ss := by
  simp [total]

theorem total_append (ss ts : List Span) : total (ss ++ ts) = total ss + total ts := by
  simp [total]

/-- Each span has at least `k` bytes, so there are not too many of them. -/
theorem length_mul_le_total {k : Nat} {ss : List Span} (h : ∀ s ∈ ss, k ≤ s.len) :
    ss.length * k ≤ total ss := by
  induction ss with
  | nil => simp
  | cons s ss ih =>
    have h₁ := h s (List.mem_cons_self ..)
    have h₂ := ih fun t ht => h t (List.mem_cons_of_mem _ ht)
    rw [List.length_cons, total_cons, Nat.add_mul]
    omega

variable {n p q : Nat} {ss : List Span}

theorem chain_append {ts : List Span} :
    Chain n p (ss ++ ts) q ↔ ∃ r, Chain n p ss r ∧ Chain n r ts q := by
  induction ss generalizing p with
  | nil => simp [Chain]
  | cons s ss ih =>
    simp only [List.cons_append, Chain, ih]
    exact ⟨fun ⟨h, r, h1, h2⟩ => ⟨r, ⟨h, h1⟩, h2⟩, fun ⟨r, ⟨h, h1⟩, h2⟩ => ⟨h, r, h1, h2⟩⟩

/-- The end of a chain followed by one more span. -/
theorem Chain.snoc {s : Span} (h : Chain n p ss q) (hs : s.pos = q) :
    Chain n p (ss ++ [s]) (next n q s.len) :=
  chain_append.mpr ⟨q, h, hs, rfl⟩

/-- A chain has one end, and one start. -/
theorem Chain.end_unique {q' : Nat} (h : Chain n p ss q) (h' : Chain n p ss q') : q = q' := by
  induction ss generalizing p with
  | nil => exact h.symm.trans h'
  | cons s ss ih => exact ih h.2 h'.2

theorem Chain.start_unique {p' : Nat} (h : Chain n p ss q) (h' : Chain n p' ss q) : p = p' := by
  cases ss with
  | nil => exact h.trans h'.symm
  | cons s ss => exact h.1.symm.trans h'.1

/-- A chain of aligned spans to an aligned end starts aligned. -/
theorem Chain.dvd_start {a : Nat} (h : Chain n p ss q) (ha : a ∣ n) (hq : a ∣ q) (hs : ∀ s ∈ ss, a ∣ s.len) :
    a ∣ p := by
  induction ss generalizing p with
  | nil => exact (show p = q from h) ▸ hq
  | cons s ss ih =>
    have hnext := ih h.2 fun t ht => hs t (List.mem_cons_of_mem _ ht)
    rw [next, Nat.dvd_mod_iff ha] at hnext
    exact (Nat.dvd_add_left (hs s (List.mem_cons_self ..))).mp hnext

/-- The bytes of a chain of fitting spans lie within its total length. -/
theorem Chain.dist_lt (h : Chain n p ss q) (hp : p < n) (hf : ∀ s ∈ ss, s.Fits n)
    (ht : total ss < n) {s : Span} (hs : s ∈ ss) {x : Nat} (hx : s.Contains x) :
    dist n p x < total ss := by
  induction ss generalizing p with
  | nil => cases hs
  | cons s' ss ih =>
    obtain ⟨rfl, hc⟩ := h
    have hf' := hf s' (List.mem_cons_self ..)
    have hle := hf'.2
    have hlen := hf'.1
    rw [total_cons] at ht ⊢
    rcases List.mem_cons.mp hs with rfl | hs
    · have h1 := hx.1
      have h2 := hx.2
      unfold dist
      split <;> omega
    · have hn : next n s'.pos s'.len < n := Nat.mod_lt _ (by omega)
      have := ih hc hn (fun t ht => hf t (List.mem_cons_of_mem _ ht)) (by omega) hs
      rw [dist_next hle hp (by omega)]
      omega

/-- The end of a chain lies at its total length. -/
theorem Chain.dist_end (h : Chain n p ss q) (hp : p < n) (hf : ∀ s ∈ ss, s.Fits n)
    (ht : total ss < n) : q < n ∧ dist n p q = total ss := by
  induction ss generalizing p with
  | nil =>
    cases h
    exact ⟨hp, dist_self n _⟩
  | cons s ss ih =>
    obtain ⟨rfl, hc⟩ := h
    have hf' := hf s (List.mem_cons_self ..)
    have hle := hf'.2
    have hlen := hf'.1
    rw [total_cons] at ht ⊢
    have hn : next n s.pos s.len < n := Nat.mod_lt _ (by omega)
    obtain ⟨hq, hd⟩ := ih hc hn (fun t ht => hf t (List.mem_cons_of_mem _ ht)) (by omega)
    exact ⟨hq, by rw [dist_next hle hp (by omega), hd, Nat.add_comm]⟩

/-- A chain that does not fill the buffer comes back to its start only if it is empty. -/
theorem Chain.eq_nil (h : Chain n p ss p) (hf : ∀ s ∈ ss, s.Fits n) (ht : total ss < n) : ss = [] := by
  cases ss with
  | nil => rfl
  | cons s ss =>
    have hs := hf s (List.mem_cons_self ..)
    obtain ⟨-, hd⟩ := h.dist_end (h.1 ▸ hs.lt) hf ht
    rw [dist_self, total_cons] at hd
    have := hs.1
    omega

/-- The bytes from the end of a chain on are free, as long as they and the
chain do not fill the buffer. -/
theorem Chain.free (h : Chain n p ss q) (hp : p < n) (hf : ∀ s ∈ ss, s.Fits n) {k : Nat}
    (hk : total ss + k < n) (hq : q + k ≤ n) {s : Span} (hs : s ∈ ss) :
    s.pos + s.len ≤ q ∨ q + k ≤ s.pos := by
  obtain ⟨hqn, hd⟩ := h.dist_end hp hf (by omega)
  rcases Nat.eq_zero_or_pos k with rfl | hk0
  · have hfs := hf s hs
    by_contra hn
    have hx : s.Contains q := ⟨by omega, by omega⟩
    have := h.dist_lt hp hf (by omega) hs hx
    omega
  · refine Span.disjoint_of_forall (t := ⟨q, k⟩) (hf s hs).1 hk0 fun x hx hx' => ?_
    have hlt := h.dist_lt hp hf (by omega) hs hx
    have h1 := hx'.1
    have h2 := hx'.2
    simp only at h1 h2
    -- a byte of the free part lies further from the start than the end of the chain
    unfold dist at hlt hd
    split at hlt <;> split at hd <;> omega

/-- No two spans of a chain share a byte. -/
theorem Chain.pairwise (h : Chain n p ss q) (hp : p < n) (hf : ∀ s ∈ ss, s.Fits n)
    (ht : total ss < n) : ss.Pairwise Span.Disjoint := by
  induction ss generalizing p with
  | nil => exact List.Pairwise.nil
  | cons s ss ih =>
    obtain ⟨rfl, hc⟩ := h
    have hf' := hf s (List.mem_cons_self ..)
    have hle := hf'.2
    have hlen := hf'.1
    rw [total_cons] at ht
    have hn : next n s.pos s.len < n := Nat.mod_lt _ (by omega)
    have hfs : ∀ t ∈ ss, t.Fits n := fun t ht => hf t (List.mem_cons_of_mem _ ht)
    refine List.Pairwise.cons (fun t htm => ?_) (ih hc hn hfs (by omega))
    refine Span.disjoint_of_forall hlen (hfs t htm).1 fun x hx hx' => ?_
    have hlt := hc.dist_lt hn hfs (by omega) htm hx'
    have heq := dist_next (x := x) hle hp (by omega)
    have h1 := hx.1
    have h2 := hx.2
    unfold dist at heq
    split at heq <;> omega

end Circular

end Ubbd
