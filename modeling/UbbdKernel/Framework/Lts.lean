import Mathlib.Algebra.Order.Ring.Nat
import Mathlib.Logic.Basic

/-!
# Labelled transition systems

A system takes labelled steps from state to state (`Lts`); a label that is
not enabled in a state leads nowhere. `Reach` are the states of the runs
whose steps all satisfy a side condition; `States` and `Steps` say that a
property holds of every state, or of every step, of the run of a list of
labels.

* `Reach.inv`: an invariant holds in every state reached.
* `states_iff_steps`: when the steps that meet a condition keep an
  invariant, and the others leave the property at once, a run has the
  property throughout exactly when all its steps meet the condition;
  `states_iff_steps_of`, for the runs whose steps meet another condition.
* `steps_of_steps`: under an invariant kept by the steps that meet a
  condition, a property of single steps holds all along the run.
-/

namespace Ubbd

/-- A labelled transition system: its initial states, and the state a label
leads to, where the label is enabled. -/
structure Lts (σ α : Type) where
  init : σ → Prop
  step : σ → α → Option σ

namespace Lts

variable {σ α : Type} (M : Lts σ α)

/-- The state after the labels of a list, each enabled in turn. -/
def exec : σ → List α → Option σ
  | s, [] => some s
  | s, a :: as => (M.step s a).bind fun s' => exec s' as

/-- `P` holds in every state of the run of a list of labels. -/
def States (P : σ → Prop) : σ → List α → Prop
  | s, [] => P s
  | s, a :: as => P s ∧ ∀ s', M.step s a = some s' → States P s' as

/-- `C` holds of every step of the run of a list of labels. -/
def Steps (C : σ → α → σ → Prop) : σ → List α → Prop
  | _, [] => True
  | s, a :: as => ∀ s', M.step s a = some s' → C s a s' ∧ Steps C s' as

/-- The states reached by steps that are all allowed by `ok`. -/
inductive Reach (ok : σ → α → Prop) : σ → Prop
  | init {s : σ} : M.init s → Reach ok s
  | step {s s' : σ} {a : α} : Reach ok s → ok s a → M.step s a = some s' → Reach ok s'

variable {M}

theorem exec_append (s : σ) (as bs : List α) :
    M.exec s (as ++ bs) = (M.exec s as).bind fun s' => M.exec s' bs := by
  induction as generalizing s with
  | nil => rfl
  | cons a as ih =>
    simp only [List.cons_append, exec, Option.bind_assoc]
    exact congrArg _ (funext ih)

theorem exec_cons {s s' : σ} {a : α} (h : M.step s a = some s') (as : List α) :
    M.exec s (a :: as) = M.exec s' as := by
  rw [exec, h, Option.bind_some]

/-- The last state of a run is one of its states. -/
theorem States.last {P : σ → Prop} {s s' : σ} {as : List α} (h : M.States P s as)
    (he : M.exec s as = some s') : P s' := by
  induction as generalizing s with
  | nil => cases he; exact h
  | cons a as ih =>
    obtain ⟨s₁, hs, he⟩ := Option.bind_eq_some_iff.mp he
    exact ih (h.2 s₁ hs) he

theorem Reach.inv {ok : σ → α → Prop} {I : σ → Prop} (hinit : ∀ s, M.init s → I s)
    (hstep : ∀ s a s', I s → ok s a → M.step s a = some s' → I s') {s : σ} (h : M.Reach ok s) :
    I s := by
  induction h with
  | init h => exact hinit _ h
  | step _ hok hs ih => exact hstep _ _ _ ih hok hs

/-- The first step of a run, and the rest of it. -/
theorem Steps.cons {C : σ → α → σ → Prop} {s s₁ : σ} {a : α} {as : List α} (hs : M.step s a = some s₁)
    (hc : C s a s₁) (h : M.Steps C s₁ as) : M.Steps C s (a :: as) := by
  intro s' hs'
  obtain rfl : s₁ = s' := Option.some.inj (hs.symm.trans hs')
  exact ⟨hc, h⟩

theorem Steps.append {C : σ → α → σ → Prop} {s : σ} {as bs : List α} (h : M.Steps C s as)
    (h' : ∀ s', M.exec s as = some s' → M.Steps C s' bs) : M.Steps C s (as ++ bs) := by
  induction as generalizing s with
  | nil => exact h' s rfl
  | cons a as ih =>
    intro s₁ hs
    obtain ⟨hc, h⟩ := h s₁ hs
    exact ⟨hc, ih h fun s' he => h' s' ((exec_cons hs as).trans he)⟩

/-- The rest of a run, after its first steps. -/
theorem Steps.rest {C : σ → α → σ → Prop} {s s' : σ} {as bs : List α} (h : M.Steps C s (as ++ bs))
    (he : M.exec s as = some s') : M.Steps C s' bs := by
  induction as generalizing s with
  | nil => cases he; exact h
  | cons a as ih =>
    obtain ⟨s₁, hs, he⟩ := Option.bind_eq_some_iff.mp he
    exact ih (h s₁ hs).2 he

/-- A condition on the labels alone. -/
theorem steps_of_forall {C : σ → α → σ → Prop} {as : List α} (h : ∀ a ∈ as, ∀ s s', C s a s') (s : σ) :
    M.Steps C s as := by
  induction as generalizing s with
  | nil => trivial
  | cons a as ih =>
    exact fun s' _ => ⟨h a (List.mem_cons_self ..) s s', ih (fun b hb => h b (List.mem_cons_of_mem _ hb)) s'⟩

theorem Steps.and {B C : σ → α → σ → Prop} {s : σ} {as : List α} (hb : M.Steps B s as)
    (hc : M.Steps C s as) : M.Steps (fun s a s' => B s a s' ∧ C s a s') s as := by
  induction as generalizing s with
  | nil => trivial
  | cons a as ih => exact fun s' he => ⟨⟨(hb s' he).1, (hc s' he).1⟩, ih (hb s' he).2 (hc s' he).2⟩

theorem steps_true (s : σ) (as : List α) : M.Steps (fun _ _ _ => True) s as := by
  induction as generalizing s with
  | nil => trivial
  | cons a as ih => exact fun s' _ => ⟨trivial, ih s'⟩

theorem States.mono {P Q : σ → Prop} (hpq : ∀ s, P s → Q s) {s : σ} {as : List α}
    (h : M.States P s as) : M.States Q s as := by
  induction as generalizing s with
  | nil => exact hpq s h
  | cons a as ih => exact ⟨hpq s h.1, fun s' hs => ih (h.2 s' hs)⟩

theorem States.and {P Q : σ → Prop} {s : σ} {as : List α} (hp : M.States P s as) (hq : M.States Q s as) :
    M.States (fun s => P s ∧ Q s) s as := by
  induction as generalizing s with
  | nil => exact ⟨hp, hq⟩
  | cons a as ih => exact ⟨⟨hp.1, hq.1⟩, fun s' hs => ih (hp.2 s' hs) (hq.2 s' hs)⟩

/-- An invariant kept by the steps that meet `C` holds all along a run whose
steps meet `C`. -/
theorem states_of_steps {C : σ → α → σ → Prop} {I : σ → Prop}
    (hstep : ∀ s a s', I s → M.step s a = some s' → C s a s' → I s') {s : σ} (hs : I s)
    {as : List α} (h : M.Steps C s as) : M.States I s as := by
  induction as generalizing s with
  | nil => exact hs
  | cons a as ih =>
    refine ⟨hs, fun s' he => ?_⟩
    obtain ⟨hc, h⟩ := h s' he
    exact ih (hstep s a s' hs he hc) h

/-- A run whose steps all meet `B` has `P` throughout exactly when they all
meet `C`, if the steps that meet both keep an invariant that gives `P`, and
the steps that meet `B` only lead out of `P`. -/
theorem states_iff_steps_of {B C : σ → α → σ → Prop} {I P : σ → Prop} (hip : ∀ s, I s → P s)
    (hgood : ∀ s a s', I s → M.step s a = some s' → B s a s' → C s a s' → I s')
    (hbad : ∀ s a s', I s → M.step s a = some s' → B s a s' → ¬ C s a s' → ¬ P s') {s : σ} (hs : I s)
    {as : List α} (hb : M.Steps B s as) : M.States P s as ↔ M.Steps C s as := by
  induction as generalizing s with
  | nil => exact ⟨fun _ => trivial, fun _ => hip s hs⟩
  | cons a as ih =>
    refine ⟨fun h s' he => ?_, fun h => ⟨hip s hs, fun s' he => ?_⟩⟩
    · obtain ⟨hb, hbs⟩ := hb s' he
      have hp := h.2 s' he
      have hP : P s' := by cases as with | nil => exact hp | cons _ _ => exact hp.1
      have hc : C s a s' := not_not.mp fun hc => hbad s a s' hs he hb hc hP
      exact ⟨hc, (ih (hgood s a s' hs he hb hc) hbs).mp hp⟩
    · obtain ⟨hb, hbs⟩ := hb s' he
      obtain ⟨hc, hcs⟩ := h s' he
      exact (ih (hgood s a s' hs he hb hc) hbs).mpr hcs

theorem states_iff_steps {C : σ → α → σ → Prop} {I P : σ → Prop} (hip : ∀ s, I s → P s)
    (hgood : ∀ s a s', I s → M.step s a = some s' → C s a s' → I s')
    (hbad : ∀ s a s', I s → M.step s a = some s' → ¬ C s a s' → ¬ P s') {s : σ} (hs : I s)
    (as : List α) : M.States P s as ↔ M.Steps C s as :=
  states_iff_steps_of hip (fun s a s' hi he _ hc => hgood s a s' hi he hc)
    (fun s a s' hi he _ hc => hbad s a s' hi he hc) hs (steps_true s as)

theorem steps_of_steps {C L : σ → α → σ → Prop} {I : σ → Prop}
    (hstep : ∀ s a s', I s → M.step s a = some s' → C s a s' → I s' ∧ L s a s') {s : σ} (hs : I s)
    {as : List α} (h : M.Steps C s as) : M.Steps L s as := by
  induction as generalizing s with
  | nil => trivial
  | cons a as ih =>
    intro s' he
    obtain ⟨hc, h⟩ := h s' he
    obtain ⟨hi, hl⟩ := hstep s a s' hs he hc
    exact ⟨hl, ih hi h⟩

end Lts

end Ubbd
