import Mcprog.Library.Triple

/-!
# Runs seen through an abstraction

An abstraction says which states of a program stand for a state of a model. A program performs
a step of the model when from every state that stands for its start the program answers, and
ends in a state that stands for its end.
-/

namespace Interaction

namespace Program

variable {ε ε' σ τ μ α β : Type} {R : μ → σ → Prop}

/-- A run that answers does so under other names of its events. -/
theorem Reaches.mapEvents {m : Program ε σ τ α} {s s' : σ} {a : α} (h : m.Reaches s a s')
    (g : ε → ε') : (mapEvents g m).Reaches s a s' := by
  obtain ⟨tr, hr⟩ := h
  refine ⟨tr.map g, ?_⟩
  rw [Returns, Program.mapEvents, show m s = _ from hr]

theorem reaches_emit (e : ε) (s : σ) : (emit e : Program ε σ τ Unit).Reaches s () s := ⟨[e], rfl⟩

/-- From every state that stands for `c` the program answers `a`, and ends in a state that
stands for `c'`. -/
def Performs (R : μ → σ → Prop) (m : Program ε σ τ α) (c : μ) (a : α) (c' : μ) : Prop :=
  ∀ s, R c s → ∃ s', m.Reaches s a s' ∧ R c' s'

theorem performs_pure (a : α) (c : μ) : Performs R (pure a : Program ε σ τ α) c a c :=
  fun s h => ⟨s, reaches_pure a s, h⟩

/-- The steps of a sequence follow each other. -/
theorem Performs.bind {m : Program ε σ τ α} {f : α → Program ε σ τ β} {c c₁ c' : μ} {a : α} {b : β}
    (hm : Performs R m c a c₁) (hf : Performs R (f a) c₁ b c') : Performs R (m >>= f) c b c' := by
  intro s hs
  obtain ⟨s₁, hr₁, hs₁⟩ := hm s hs
  obtain ⟨s', hr', hs'⟩ := hf s₁ hs₁
  exact ⟨s', hr₁.bind hr', hs'⟩

/-- A step under other names of its events. -/
theorem Performs.mapEvents {m : Program ε σ τ α} {c c' : μ} {a : α} (h : Performs R m c a c')
    (g : ε → ε') : Performs R (mapEvents g m) c a c' := by
  intro s hs
  obtain ⟨s', hr, hs'⟩ := h s hs
  exact ⟨s', hr.mapEvents g, hs'⟩

/-- The end of a step under another name. -/
theorem Performs.of_eq {m : Program ε σ τ α} {c c' c'' : μ} {a : α} (h : Performs R m c a c')
    (hc : c' = c'') : Performs R m c a c'' := hc ▸ h

end Program

end Interaction
