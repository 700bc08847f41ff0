import Mathlib.Tactic

/-!
# Runs of a deterministic system

A system takes one input after the other. A property of every state of a run and
a condition on every step of it are compared here: where the condition is exactly
what one step needs to keep the property, the property holds throughout a run
exactly when the condition holds at each of its steps.
-/

namespace Interaction

variable {σ ι : Type} (step : σ → ι → σ)

/-- The state after a run. -/
def runFrom (s : σ) (is : List ι) : σ := is.foldl step s

/-- `P` holds in every state of the run, the first and the last included. -/
def Throughout (P : σ → Prop) (s : σ) (is : List ι) : Prop :=
  ∀ l, l <+: is → P (runFrom step s l)

/-- `G` holds of every step of the run: of its input and the state it starts from. -/
def AtEachStep (G : σ → ι → Prop) (s : σ) (is : List ι) : Prop :=
  ∀ l i r, is = l ++ i :: r → G (runFrom step s l) i

theorem throughout_nil {P : σ → Prop} {s : σ} : Throughout step P s [] ↔ P s := by
  constructor
  · intro h
    exact h [] (List.nil_prefix)
  · intro h l hl
    rw [List.prefix_nil.mp hl]
    exact h

/-- The first state, and those of the rest of the run. -/
theorem throughout_cons {P : σ → Prop} {s : σ} {i : ι} {is : List ι} :
    Throughout step P s (i :: is) ↔ P s ∧ Throughout step P (step s i) is := by
  constructor
  · intro h
    exact ⟨h [] List.nil_prefix, fun l hl => h (i :: l) (List.cons_prefix_cons.mpr ⟨rfl, hl⟩)⟩
  · rintro ⟨h₀, h⟩ l hl
    cases l with
    | nil => exact h₀
    | cons j l =>
      obtain ⟨rfl, hl'⟩ := List.cons_prefix_cons.mp hl
      exact h l hl'

/-- A run without steps has nothing to meet. -/
theorem atEachStep_nil {G : σ → ι → Prop} {s : σ} : AtEachStep step G s [] := by
  intro l i r h
  simp at h

/-- The first step, and those of the rest of the run. -/
theorem atEachStep_cons {G : σ → ι → Prop} {s : σ} {i : ι} {is : List ι} :
    AtEachStep step G s (i :: is) ↔ G s i ∧ AtEachStep step G (step s i) is := by
  constructor
  · intro h
    exact ⟨h [] i is rfl, fun l j r hl => h (i :: l) j r (by rw [hl]; rfl)⟩
  · rintro ⟨h₀, h⟩ l j r hl
    cases l with
    | nil =>
      obtain ⟨rfl, -⟩ := List.cons.inj hl
      exact h₀
    | cons k l =>
      obtain ⟨rfl, hr⟩ := List.cons.inj hl
      exact h l j r hr

/-- The steps of a part of a run are steps of the run. -/
theorem AtEachStep.of_prefix {G : σ → ι → Prop} {s : σ} {is l : List ι} (h : AtEachStep step G s is)
    (hl : l <+: is) : AtEachStep step G s l := by
  intro l' i r hr
  obtain ⟨r', rfl⟩ := hl
  exact h l' i (r ++ r') (by rw [hr, List.append_assoc, List.cons_append])

theorem atEachStep_append {G : σ → ι → Prop} {s : σ} {is is' : List ι} :
    AtEachStep step G s (is ++ is') ↔
      AtEachStep step G s is ∧ AtEachStep step G (runFrom step s is) is' := by
  induction is generalizing s with
  | nil => exact (and_iff_right (atEachStep_nil step)).symm
  | cons i is ih =>
    rw [List.cons_append, atEachStep_cons, atEachStep_cons, ih, and_assoc]
    rfl

/-- An invariant that the steps with `G` keep holds throughout a run of such steps. -/
theorem throughout_of_atEachStep {I : σ → Prop} {G : σ → ι → Prop}
    (hstep : ∀ s i, I s → G s i → I (step s i)) {s : σ} {is : List ι} (hI : I s)
    (h : AtEachStep step G s is) : Throughout step I s is := by
  induction is generalizing s with
  | nil => exact (throughout_nil step).mpr hI
  | cons i is ih =>
    obtain ⟨hi, his⟩ := (atEachStep_cons step).mp h
    exact (throughout_cons step).mpr ⟨hI, ih (hstep s i hI hi) his⟩

/-- Where `G` is exactly what a step from an `I`-state needs to keep `P`, a run has
`P` throughout exactly when each of its steps has `G`. The invariant `I` says what
`P` alone does not: which states a run with `P` can be in. -/
theorem throughout_iff_atEachStep {P I : σ → Prop} {G : σ → ι → Prop}
    (hexact : ∀ s i, I s → P s → (P (step s i) ↔ G s i))
    (hinv : ∀ s i, I s → P s → G s i → I (step s i)) {s : σ} {is : List ι} (hI : I s) (hP : P s) :
    Throughout step P s is ↔ AtEachStep step G s is := by
  induction is generalizing s with
  | nil => exact iff_of_true ((throughout_nil step).mpr hP) (atEachStep_nil step)
  | cons i is ih =>
    rw [throughout_cons, atEachStep_cons]
    constructor
    · rintro ⟨-, h⟩
      have hP' : P (step s i) := h [] List.nil_prefix
      have hG := (hexact s i hI hP).mp hP'
      exact ⟨hG, (ih (hinv s i hI hP hG) hP').mp h⟩
    · rintro ⟨hG, h⟩
      exact ⟨hP, (ih (hinv s i hI hP hG) ((hexact s i hI hP).mpr hG)).mpr h⟩

end Interaction
