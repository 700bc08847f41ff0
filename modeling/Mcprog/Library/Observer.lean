import Mcprog.Library.Program

/-!
# What an observer sees of a trace

An observer is an automaton that reads events and shows observations. Between
two operations it is idle, so that what it shows of a sequence is the
concatenation of what it shows of the parts; inside one operation it may hold
any intermediate state. `Exhibits` carries this over to whole programs.
-/

namespace Interaction

variable {ε η κ σ τ α β : Type}

/-- An automaton over events `ε` with states `κ` that shows observations `η`. -/
structure Observer (ε η κ : Type) where
  /-- The states in which no operation is under way. -/
  idle : κ → Prop
  /-- What one event does to the state, and what it shows. -/
  step : κ → ε → κ × List η
  /-- A state to begin in. -/
  start : κ
  /-- It is idle. -/
  start_idle : idle start

namespace Observer

variable (O : Observer ε η κ)

/-- Read a whole trace. -/
def observe : κ → List ε → κ × List η
  | k, [] => (k, [])
  | k, e :: tr => ((observe (O.step k e).1 tr).1, (O.step k e).2 ++ (observe (O.step k e).1 tr).2)

@[simp] theorem observe_nil (k : κ) : O.observe k [] = (k, []) := rfl

/-- The first event comes before the others. -/
@[simp] theorem observe_cons (k : κ) (e : ε) (tr : List ε) : O.observe k (e :: tr) =
    ((O.observe (O.step k e).1 tr).1, (O.step k e).2 ++ (O.observe (O.step k e).1 tr).2) := rfl

/-- Reading a trace in two parts. -/
theorem observe_append (k : κ) (tr tr' : List ε) : O.observe k (tr ++ tr') =
    ((O.observe (O.observe k tr).1 tr').1,
      (O.observe k tr).2 ++ (O.observe (O.observe k tr).1 tr').2) := by
  induction tr generalizing k with
  | nil => rfl
  | cons e tr ih => simp only [List.cons_append, observe_cons, ih, List.append_assoc]

/-- A complete operation: read from any idle state the trace shows `obs` and
leaves the observer idle. -/
def Shows (tr : List ε) (obs : List η) : Prop :=
  ∀ k, O.idle k → O.idle (O.observe k tr).1 ∧ (O.observe k tr).2 = obs

variable {O}

theorem Shows.nil : O.Shows [] [] := fun _ hk => ⟨hk, rfl⟩

/-- Operations compose. -/
theorem Shows.append {tr tr' : List ε} {obs obs' : List η} (h : O.Shows tr obs)
    (h' : O.Shows tr' obs') : O.Shows (tr ++ tr') (obs ++ obs') := by
  intro k hk
  obtain ⟨hk₁, ho₁⟩ := h k hk
  obtain ⟨hk₂, ho₂⟩ := h' _ hk₁
  rw [observe_append]
  exact ⟨hk₂, by rw [ho₁, ho₂]⟩

end Observer

namespace Program

variable {O : Observer ε η κ} {m : Program ε σ τ α} {f : α → Program ε σ τ β}

/-- Every run of `m` that answers shows observations that `R` relates to the answer. -/
def Exhibits (O : Observer ε η κ) (m : Program ε σ τ α) (R : α → List η → Prop) : Prop :=
  ∀ s a tr s', m.Returns s a tr s' → ∃ obs, O.Shows tr obs ∧ R a obs

theorem exhibits_pure {a : α} {R : α → List η → Prop} (h : R a []) :
    (pure a : Program ε σ τ α).Exhibits O R := by
  intro s b tr s' hr
  obtain ⟨rfl, rfl, rfl⟩ := returns_pure_iff.mp hr
  exact ⟨[], Observer.Shows.nil, h⟩

theorem exhibits_stop {e : τ} {R : α → List η → Prop} :
    (stop e : Program ε σ τ α).Exhibits O R :=
  fun _ _ _ _ h => absurd h not_returns_stop

/-- The observations of a sequence are those of its parts, one after the other. -/
theorem Exhibits.bind {R : α → List η → Prop} {Q : β → List η → Prop}
    (hm : m.Exhibits O R) (hf : ∀ a o₁, R a o₁ → (f a).Exhibits O fun b o₂ => Q b (o₁ ++ o₂)) :
    (m >>= f).Exhibits O Q := by
  intro s b tr s' hr
  obtain ⟨a, tr₁, s₁, tr₂, h₁, h₂, rfl⟩ := returns_bind_iff.mp hr
  obtain ⟨o₁, hs₁, hR⟩ := hm _ _ _ _ h₁
  obtain ⟨o₂, hs₂, hQ⟩ := hf a o₁ hR _ _ _ _ h₂
  exact ⟨o₁ ++ o₂, hs₁.append hs₂, hQ⟩

theorem Exhibits.mono {R Q : α → List η → Prop} (hm : m.Exhibits O R)
    (h : ∀ a obs, R a obs → Q a obs) : m.Exhibits O Q := by
  intro s a tr s' hr
  obtain ⟨obs, hs, hR⟩ := hm s a tr s' hr
  exact ⟨obs, hs, h a obs hR⟩

end Program

end Interaction
