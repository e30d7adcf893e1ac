import Mathlib.Algebra.Order.Ring.Nat
import Mathlib.Data.Set.Card

/-!
# Loops

A loop is a function that gives the state after one more iteration, or none
where the loop is left. `after f n a` is the state after `n` iterations from
`a`; `Met f a` are the states the loop meets from `a`, and `Cycles f a` says
that it meets one of them again. A loop is left within `n` iterations exactly
when it does not cycle and meets at most `n + 1` states (`endsWithin_iff`).
-/

namespace Ubbd.Loop

variable {α : Type} (f : α → Option α)

/-- The state after `n` iterations from `a`. -/
def after : Nat → α → Option α
  | 0, a => some a
  | n + 1, a => (f a).bind (after n)

/-- The loop is left after at most `n` iterations. -/
def EndsWithin (n : Nat) (a : α) : Prop := after f (n + 1) a = none

/-- The states the loop meets. -/
def Met (a : α) : Set α := {b | ∃ k, after f k a = some b}

/-- The loop meets a state again. -/
def Cycles (a : α) : Prop := ∃ b ∈ Met f a, ∃ c, f b = some c ∧ b ∈ Met f c

variable {f} {a b c : α} {n : Nat}

theorem after_add (m n : Nat) (a : α) : after f (m + n) a = (after f m a).bind (after f n) := by
  induction m generalizing a with
  | zero => rw [Nat.zero_add, after, Option.bind_some]
  | succ m ih =>
    rw [Nat.succ_add, after, after, Option.bind_assoc]
    exact congrArg _ (funext ih)

theorem after_none {m : Nat} (h : after f m a = none) (hmn : m ≤ n) : after f n a = none := by
  obtain ⟨k, rfl⟩ := Nat.exists_eq_add_of_le hmn
  rw [after_add, h]
  rfl

theorem met_self (f : α → Option α) (a : α) : a ∈ Met f a := ⟨0, rfl⟩

theorem met_of_step (hb : f a = some b) (hc : c ∈ Met f b) : c ∈ Met f a := by
  obtain ⟨k, hk⟩ := hc
  refine ⟨k + 1, ?_⟩
  rw [after, hb]
  exact hk

/-- What holds of the first state and is kept by the iterations holds of every
state the loop meets. -/
theorem met_inv {P : α → Prop} (h : P a) (hstep : ∀ b c, P b → f b = some c → P c) (hb : b ∈ Met f a) : P b := by
  obtain ⟨k, hk⟩ := hb
  induction k generalizing a with
  | zero => cases hk; exact h
  | succ k ih =>
    obtain ⟨c, hc, hk⟩ := Option.bind_eq_some_iff.mp hk
    exact ih (hstep a c h hc) hk

theorem EndsWithin.mono {m : Nat} (h : EndsWithin f m a) (hmn : m ≤ n) : EndsWithin f n a :=
  after_none h (Nat.succ_le_succ hmn)

theorem endsWithin_zero : EndsWithin f 0 a ↔ f a = none := by
  rw [EndsWithin, after]
  cases f a with
  | none => exact iff_of_true rfl rfl
  | some b => exact iff_of_false (fun h => by cases h) (fun h => by cases h)

theorem endsWithin_succ (hb : f a = some b) : EndsWithin f (n + 1) a ↔ EndsWithin f n b := by
  rw [EndsWithin, after, hb]
  rfl

/-- A loop that is left is left in one of the states it meets. -/
theorem EndsWithin.exists_last (h : EndsWithin f n a) : ∃ b ∈ Met f a, f b = none := by
  induction n generalizing a with
  | zero => exact ⟨a, met_self f a, endsWithin_zero.mp h⟩
  | succ n ih =>
    cases hb : f a with
    | none => exact ⟨a, met_self f a, hb⟩
    | some b =>
      obtain ⟨c, hc, hnone⟩ := ih ((endsWithin_succ hb).mp h)
      exact ⟨c, met_of_step hb hc, hnone⟩

/-- A loop that meets a state again is never left. -/
theorem Cycles.not_endsWithin (h : Cycles f a) (n : Nat) : ¬ EndsWithin f n a := by
  obtain ⟨b, ⟨k, hk⟩, c, hc, j, hj⟩ := h
  have hround : after f (j + 1) b = some b := by
    rw [after, hc]
    exact hj
  have hrounds : ∀ m, after f (m * (j + 1)) b = some b := by
    intro m
    induction m with
    | zero => rw [Nat.zero_mul, after]
    | succ m ih => rw [Nat.succ_mul, after_add, ih, Option.bind_some, hround]
  intro hends
  have hlater : after f (k + (n + 1) * (j + 1)) a = some b := by
    rw [after_add, hk, Option.bind_some, hrounds]
  rw [after_none hends (by rw [Nat.mul_succ]; omega)] at hlater
  cases hlater

/-- Without a cycle the states are met once each. -/
theorem after_inj (h : ¬ Cycles f a) {i j : Nat} (hij : i < j) (hi : after f i a = some b)
    (hj : after f j a = some b) : False := by
  obtain ⟨k, rfl⟩ := Nat.exists_eq_add_of_lt hij
  rw [Nat.add_assoc, after_add, hi, Option.bind_some] at hj
  obtain ⟨c, hc, hk⟩ := Option.bind_eq_some_iff.mp hj
  exact h ⟨b, ⟨i, hi⟩, c, hc, k, hk⟩

theorem encard_Iio (n : Nat) : (Set.Iio n).encard = n := by
  rw [← Finset.coe_range, Set.encard_coe_eq_coe_finsetCard, Finset.card_range]

theorem endsWithin_iff : EndsWithin f n a ↔ ¬ Cycles f a ∧ (Met f a).encard ≤ n + 1 := by
  constructor
  · intro h
    refine ⟨fun hc => hc.not_endsWithin n h, ?_⟩
    -- every state is met within the first `n` iterations
    have hsub : Met f a ⊆ (fun k => (after f k a).getD a) '' (Set.Iio (n + 1)) := by
      rintro b ⟨k, hk⟩
      refine ⟨k, ?_, by simp only [hk, Option.getD_some]⟩
      by_contra hle
      rw [after_none h (Nat.le_of_not_lt hle)] at hk
      cases hk
    calc (Met f a).encard ≤ _ := Set.encard_le_encard hsub
      _ ≤ (Set.Iio (n + 1)).encard := Set.encard_image_le _ _
      _ = n + 1 := encard_Iio (n + 1)
  · rintro ⟨hcyc, hcard⟩
    cases hn : after f (n + 1) a with
    | none => exact hn
    | some x =>
      have hsome : ∀ k ≤ n + 1, ∃ b, after f k a = some b := by
        intro k hk
        cases hb : after f k a with
        | none => rw [after_none hb hk] at hn; cases hn
        | some b => exact ⟨b, rfl⟩
      -- the first `n + 2` states are different
      have hinj : Set.InjOn (fun k => (after f k a).getD a) (Set.Iio (n + 2)) := by
        intro i hi j hj heq
        obtain ⟨b, hb⟩ := hsome i (Nat.le_of_lt_succ hi)
        obtain ⟨c, hc⟩ := hsome j (Nat.le_of_lt_succ hj)
        simp only [hb, hc, Option.getD_some] at heq
        subst heq
        rcases Nat.lt_trichotomy i j with hij | hij | hij
        · exact (after_inj hcyc hij hb hc).elim
        · exact hij
        · exact (after_inj hcyc hij hc hb).elim
      have hsub : (fun k => (after f k a).getD a) '' (Set.Iio (n + 2)) ⊆ Met f a := by
        rintro _ ⟨k, hk, rfl⟩
        obtain ⟨b, hb⟩ := hsome k (Nat.le_of_lt_succ hk)
        exact ⟨k, by simp only [hb, Option.getD_some]⟩
      have hle := (Set.encard_le_encard hsub).trans hcard
      rw [hinj.encard_image, encard_Iio] at hle
      have hle' : n + 2 ≤ n + 1 := by exact_mod_cast hle
      omega

/-- A loop that stays among `n + 1` states is left within `n` iterations unless it
cycles. -/
theorem endsWithin_iff_not_cycles {s : Set α} (hs : Met f a ⊆ s) (hcard : s.encard ≤ n + 1) :
    EndsWithin f n a ↔ ¬ Cycles f a := by
  rw [endsWithin_iff]
  exact ⟨And.left, fun h => ⟨h, (Set.encard_le_encard hs).trans hcard⟩⟩

end Ubbd.Loop
