import Mcprog.Library.Triple

/-!
# Two programs side by side

Two programs run side by side when from related states they issue the same events and then either
stop for the same reason or answer with related answers in related states. A sequence runs side by
side with another one when their parts do.
-/

namespace Interaction

variable {ε σ σ' τ α α' β β' : Type}

/-- Two results are alike: both are the same reason to stop, or both are answers and related. -/
inductive Alike (Q : α → α' → Prop) : Except τ α → Except τ α' → Prop
  | error (e : τ) : Alike Q (.error e) (.error e)
  | ok {a : α} {a' : α'} (h : Q a a') : Alike Q (.ok a) (.ok a')

theorem Alike.mono {Q R : α → α' → Prop} {r : Except τ α} {r' : Except τ α'} (h : Alike Q r r')
    (hQ : ∀ a a', Q a a' → R a a') : Alike R r r' := by
  cases h with
  | error e => exact .error e
  | ok h => exact .ok (hQ _ _ h)

namespace Program

/-- The programs run side by side from states related by `P`, to answers and states related by
`Q`. -/
def SideBySide (P : σ → σ' → Prop) (m : Program ε σ τ α) (m' : Program ε σ' τ α')
    (Q : α → α' → σ → σ' → Prop) : Prop :=
  ∀ s s', P s s' → (m s).trace = (m' s').trace ∧
    Alike (fun a a' => Q a a' (m s).state (m' s').state) (m s).result (m' s').result

variable {P : σ → σ' → Prop} {Q : α → α' → σ → σ' → Prop} {R : β → β' → σ → σ' → Prop}
  {m : Program ε σ τ α} {m' : Program ε σ' τ α'}

theorem sideBySide_pure {a : α} {a' : α'} (h : ∀ s s', P s s' → Q a a' s s') :
    SideBySide P (pure a : Program ε σ τ α) (pure a' : Program ε σ' τ α') Q :=
  fun s s' hP => ⟨rfl, .ok (h s s' hP)⟩

theorem sideBySide_stop (e : τ) :
    SideBySide P (stop e : Program ε σ τ α) (stop e : Program ε σ' τ α') Q :=
  fun _ _ _ => ⟨rfl, .error e⟩

theorem sideBySide_read :
    SideBySide P (read : Program ε σ τ σ) (read : Program ε σ' τ σ') fun a a' s s' =>
      P s s' ∧ a = s ∧ a' = s' :=
  fun _ _ hP => ⟨rfl, .ok ⟨hP, rfl, rfl⟩⟩

theorem sideBySide_update {f : σ → σ} {f' : σ' → σ'} {Q : Unit → Unit → σ → σ' → Prop}
    (h : ∀ s s', P s s' → Q () () (f s) (f' s')) :
    SideBySide P (update f : Program ε σ τ Unit) (update f' : Program ε σ' τ Unit) Q :=
  fun s s' hP => ⟨rfl, .ok (h s s' hP)⟩

/-- Both issue the same event. -/
theorem sideBySide_emit {e : ε} {Q : Unit → Unit → σ → σ' → Prop} (h : ∀ s s', P s s' → Q () () s s') :
    SideBySide P (emit e : Program ε σ τ Unit) (emit e : Program ε σ' τ Unit) Q :=
  fun s s' hP => ⟨rfl, .ok (h s s' hP)⟩

/-- The second parts run side by side from wherever the first ones end. -/
theorem SideBySide.bind {f : α → Program ε σ τ β} {f' : α' → Program ε σ' τ β'}
    (hm : SideBySide P m m' Q) (hf : ∀ a a', SideBySide (Q a a') (f a) (f' a') R) :
    SideBySide P (m >>= f) (m' >>= f') R := by
  intro s s' hP
  obtain ⟨htr, hres⟩ := hm s s' hP
  rw [bind_apply, bind_apply]
  generalize hr : (m s).result = r at hres
  generalize hr' : (m' s').result = r' at hres
  cases hres with
  | error e => exact ⟨htr, .error e⟩
  | @ok a a' hQ =>
    obtain ⟨htr', hres'⟩ := hf a a' _ _ hQ
    exact ⟨congrArg₂ (· ++ ·) htr htr', hres'⟩

/-- What the relation says beside the states may be used outside. -/
theorem sideBySide_of {p : Prop} {P' : σ → σ' → Prop} (hP : ∀ s s', P' s s' → p ∧ P s s')
    (h : p → SideBySide P m m' Q) : SideBySide P' m m' Q :=
  fun s s' hP' => h (hP s s' hP').1 s s' (hP s s' hP').2

end Program

end Interaction
