import Mcprog.Library.Program

/-!
# Triples over the history and the state

An assertion speaks of the events issued so far and of the state. A triple says what holds
when a program answers and what holds when it stops early, from any history in which its
precondition holds. There is one rule for each way to build a program.
-/

namespace Interaction

variable {ε ε' σ τ α β : Type}

/-- A condition on the events so far and on the state. -/
abbrev Assertion (ε σ : Type) : Type := List ε → σ → Prop

namespace Program

/-- From `P` the program answers with `Q`, or stops with `E`. -/
def Triple (P : Assertion ε σ) (m : Program ε σ τ α) (Q : α → Assertion ε σ) (E : Assertion ε σ) :
    Prop :=
  ∀ tr s, P tr s → match (m s).result with
    | .ok a => Q a (tr ++ (m s).trace) (m s).state
    | .error _ => E (tr ++ (m s).trace) (m s).state

variable {P P' : Assertion ε σ} {m : Program ε σ τ α} {f : α → Program ε σ τ β}
  {Q Q' : α → Assertion ε σ} {R : β → Assertion ε σ} {E E' : Assertion ε σ}

theorem triple_pure {a : α} (h : ∀ tr s, P tr s → Q a tr s) :
    Triple P (pure a : Program ε σ τ α) Q E := by
  intro tr s hP
  have hQ := h tr s hP
  rwa [← List.append_nil tr] at hQ

theorem triple_stop {e : τ} (h : ∀ tr s, P tr s → E tr s) :
    Triple P (stop e : Program ε σ τ α) Q E := by
  intro tr s hP
  have hE := h tr s hP
  rwa [← List.append_nil tr] at hE

theorem triple_read {Q : σ → Assertion ε σ} (h : ∀ tr s, P tr s → Q s tr s) :
    Triple P (read : Program ε σ τ σ) Q E := by
  intro tr s hP
  have hQ := h tr s hP
  rwa [← List.append_nil tr] at hQ

/-- The state is changed, and the run stays. -/
theorem triple_update {f : σ → σ} {Q : Unit → Assertion ε σ} (h : ∀ tr s, P tr s → Q () tr (f s)) :
    Triple P (update f : Program ε σ τ Unit) Q E := by
  intro tr s hP
  have hQ := h tr s hP
  rwa [← List.append_nil tr] at hQ

/-- A request is granted or refused by the device. -/
theorem triple_request {handle : σ → Except τ (α × σ)} {event : α → ε}
    (hok : ∀ tr s a s', P tr s → handle s = .ok (a, s') → Q a (tr ++ [event a]) s')
    (herr : ∀ tr s, P tr s → E tr s) : Triple P (request handle event) Q E := by
  intro tr s hP
  rw [request]
  cases hs : handle s with
  | error e =>
    have hE := herr tr s hP
    rwa [← List.append_nil tr] at hE
  | ok r => exact hok tr s r.1 r.2 hP hs

/-- The second part starts where the first one has answered. -/
theorem Triple.bind {M : α → Assertion ε σ} (hm : Triple P m M E) (hf : ∀ a, Triple (M a) (f a) R E) :
    Triple P (m >>= f) R E := by
  intro tr s hP
  have h₁ := hm tr s hP
  rw [bind_apply]
  cases hres : (m s).result with
  | error e =>
    rw [hres] at h₁
    exact h₁
  | ok a =>
    rw [hres] at h₁
    have h₂ := hf a _ _ h₁
    dsimp only
    rw [List.append_assoc] at h₂
    exact h₂

/-- Weaken what holds after the program, and strengthen what holds before. -/
theorem Triple.conseq (h : Triple P m Q E) (hP : ∀ tr s, P' tr s → P tr s)
    (hQ : ∀ a tr s, Q a tr s → Q' a tr s) (hE : ∀ tr s, E tr s → E' tr s) : Triple P' m Q' E' := by
  intro tr s hpre
  have hpost := h tr s (hP tr s hpre)
  cases hres : (m s).result with
  | error e =>
    rw [hres] at hpost
    exact hE _ _ hpost
  | ok a =>
    rw [hres] at hpost
    exact hQ _ _ _ hpost

/-- More may be known before. -/
theorem Triple.pre (h : Triple P m Q E) (hP : ∀ tr s, P' tr s → P tr s) : Triple P' m Q E :=
  h.conseq hP (fun _ _ _ hQ => hQ) fun _ _ hE => hE

/-- Less may be said behind. -/
theorem Triple.post (h : Triple P m Q E) (hQ : ∀ a tr s, Q a tr s → Q' a tr s) : Triple P m Q' E :=
  h.conseq (fun _ _ hP => hP) hQ fun _ _ hE => hE

/-- A fact that does not depend on the history may be assumed. -/
theorem triple_of_imp {p : Prop} (h : p → Triple P m Q E) :
    Triple (fun tr s => p ∧ P tr s) m Q E := by
  intro tr s hP
  exact h hP.1 tr s hP.2

/-- A run that answers. -/
theorem Triple.returns (h : Triple P m Q E) {s s' : σ} {a : α} {tr tr' : List ε} (hP : P tr s)
    (hr : m.Returns s a tr' s') : Q a (tr ++ tr') s' := by
  have hpost := h tr s hP
  rw [show m s = _ from hr] at hpost
  exact hpost

/-- Issue an event. -/
def emit (e : ε) : Program ε σ τ Unit := fun s => ⟨[e], s, .ok ()⟩

/-- The event is the last one of the run. -/
theorem triple_emit {e : ε} {Q : Unit → Assertion ε σ} (h : ∀ tr s, P tr s → Q () (tr ++ [e]) s) :
    Triple P (emit e : Program ε σ τ Unit) Q E := h

/-- The same program, with its events under other names. -/
def mapEvents (g : ε → ε') (m : Program ε σ τ α) : Program ε' σ τ α := fun s =>
  ⟨(m s).trace.map g, (m s).state, (m s).result⟩

/-- Events that an assertion does not look at keep it. -/
theorem triple_mapEvents {P : Assertion ε' σ} {g : ε → ε'} {m : Program ε σ τ α} {S : α → Prop}
    (hm : m.Ensures S) (h : ∀ tr (tr' : List ε) s s', P tr s → P (tr ++ tr'.map g) s') :
    Triple P (mapEvents g m) (fun a tr s => S a ∧ P tr s) P := by
  intro tr s hP
  have hpost := h tr (m s).trace s (m s).state hP
  have hans := hm s
  rw [mapEvents]
  cases hres : (m s).result with
  | error e => exact hpost
  | ok a =>
    have hret : m.Returns s a (m s).trace (m s).state := by
      rw [Returns, ← hres]
    exact ⟨hans _ _ _ hret, hpost⟩

/-- A triple that does not look at the events holds under other names of theirs. -/
theorem Triple.mapEvents {P E : σ → Prop} {Q : α → σ → Prop} {m : Program ε σ τ α}
    (h : Triple (fun _ s => P s) m (fun a _ s => Q a s) fun _ s => E s) (g : ε → ε') :
    Triple (fun _ s => P s) (mapEvents g m) (fun a _ s => Q a s) fun _ s => E s := by
  intro tr s hP
  have hpost := h [] s hP
  rw [Program.mapEvents]
  cases hres : (m s).result with
  | error e =>
    rw [hres] at hpost
    exact hpost
  | ok a =>
    rw [hres] at hpost
    exact hpost

end Program

end Interaction
