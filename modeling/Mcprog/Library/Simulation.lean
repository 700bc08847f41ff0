import Mcprog.Library.Effects
import Mcprog.Library.Relational

/-!
# A program and a coarser one

The events of one program are partly hidden from the other one. A run of the first follows a run of
the second when its visible events are those of the second, its events and its reasons to stop are as
they should be, and the two end alike.
-/

namespace Interaction

/-- How a run is looked at: what is seen of an event, and which events and reasons to stop are
right. -/
structure View (ε ε' τ : Type) where
  seen : ε → Option ε'
  Right : ε → Prop
  MayStop : τ → Prop

namespace Program

variable {ε ε' σ σ' τ α α' β β' γ : Type} {V : View ε ε' τ}

/-- The run of `m` from `s` follows that of `m'` from `s'`. -/
structure Follows (V : View ε ε' τ) (m : Program ε σ τ α) (s : σ) (m' : Program ε' σ' τ α') (s' : σ')
    (Q : α → α' → σ → σ' → Prop) : Prop where
  right : ∀ e ∈ (m s).trace, V.Right e
  seen : (m s).trace.filterMap V.seen = (m' s').trace
  mayStop : ∀ e, (m s).result = .error e → V.MayStop e
  alike : Alike (fun a a' => Q a a' (m s).state (m' s').state) (m s).result (m' s').result

variable {m : Program ε σ τ α} {m' : Program ε' σ' τ α'} {s s₁ : σ} {s' : σ'}
  {P Q : α → α' → σ → σ' → Prop} {R : β → β' → σ → σ' → Prop}

theorem follows_pure {a : α} {a' : α'} (h : Q a a' s s') :
    Follows V (pure a : Program ε σ τ α) s (pure a' : Program ε' σ' τ α') s' Q where
  right := fun _ he => absurd he List.not_mem_nil
  seen := rfl
  mayStop := fun _ he => absurd he (by simp [pure, ret])
  alike := .ok h

theorem follows_stop {e : τ} (h : V.MayStop e) :
    Follows V (stop e : Program ε σ τ α) s (stop e : Program ε' σ' τ α') s' Q where
  right := fun _ he => absurd he List.not_mem_nil
  seen := rfl
  mayStop := fun _ he => Except.error.inj he ▸ h
  alike := .error e

/-- The second parts follow from wherever the first ones end. -/
theorem Follows.bind {f : α → Program ε σ τ β} {f' : α' → Program ε' σ' τ β'}
    (hm : Follows V m s m' s' P)
    (hf : ∀ a a' t t', P a a' t t' → Follows V (f a) t (f' a') t' R) :
    Follows V (m >>= f) s (m' >>= f') s' R := by
  obtain ⟨hright, hseen, hstop, hres⟩ := hm
  have hrun := bind_apply m f s
  have hrun' := bind_apply m' f' s'
  generalize hr : (m s).result = r at hres hrun
  generalize hr' : (m' s').result = r' at hres hrun'
  cases hres with
  | error e =>
    have hmay := hstop e hr
    refine ⟨?_, ?_, ?_, ?_⟩
    · rwa [hrun]
    · rwa [hrun, hrun']
    · intro e' he
      rw [hrun] at he
      exact Except.error.inj he ▸ hmay
    · rw [hrun, hrun']
      exact .error e
  | @ok a a' hP =>
    obtain ⟨hright₂, hseen₂, hstop₂, hres₂⟩ := hf a a' _ _ hP
    refine ⟨?_, ?_, ?_, ?_⟩
    · intro e he
      rw [hrun] at he
      exact (List.mem_append.mp he).elim (hright e) (hright₂ e)
    · rw [hrun, hrun', List.filterMap_append, hseen, hseen₂]
    · rw [hrun]
      exact hstop₂
    · rw [hrun, hrun']
      exact hres₂

/-- A first part of which nothing is seen. -/
theorem Returns.follows {m₀ : Program ε σ τ γ} {c : γ} {tr : List ε} {f : γ → Program ε σ τ α}
    (h : m₀.Returns s c tr s₁) (htr : ∀ e ∈ tr, V.Right e ∧ V.seen e = none)
    (hf : Follows V (f c) s₁ m' s' Q) : Follows V (m₀ >>= f) s m' s' Q := by
  obtain ⟨hright, hseen, hstop, hres⟩ := hf
  have hrun : (m₀ >>= f) s = ⟨tr ++ (f c s₁).trace, (f c s₁).state, (f c s₁).result⟩ := by
    rw [bind_apply, show m₀ s = _ from h]
  refine ⟨?_, ?_, ?_, ?_⟩
  · intro e he
    rw [hrun] at he
    exact (List.mem_append.mp he).elim (fun hmem => (htr e hmem).1) (hright e)
  · have hhidden : tr.filterMap V.seen = [] := List.filterMap_eq_nil_iff.mpr fun e he => (htr e he).2
    rw [hrun, List.filterMap_append, hhidden, List.nil_append, hseen]
  · rw [hrun]
    exact hstop
  · rw [hrun]
    exact hres

/-- A first part of the coarser program that does not show. -/
theorem Returns.follows_right {m₀ : Program ε' σ' τ γ} {c : γ} {s₁' : σ'} {f : γ → Program ε' σ' τ α'}
    (h : m₀.Returns s' c [] s₁') (hf : Follows V m s (f c) s₁' Q) : Follows V m s (m₀ >>= f) s' Q := by
  have hrun : (m₀ >>= f) s' = f c s₁' := by
    rw [bind_apply, show m₀ s' = _ from h]
    rfl
  obtain ⟨hright, hseen, hstop, hres⟩ := hf
  refine ⟨hright, ?_, hstop, ?_⟩
  · rw [hrun, hseen]
  · rw [hrun]
    exact hres

/-- Looking at the state does not show. -/
theorem follows_read {f : σ → Program ε σ τ α} (hf : Follows V (f s) s m' s' Q) :
    Follows V (read >>= f) s m' s' Q := by
  have hread : (read : Program ε σ τ σ).Returns s s [] s := rfl
  exact hread.follows (fun _ he => absurd he List.not_mem_nil) hf

theorem follows_read_right {f : σ' → Program ε' σ' τ α'} (hf : Follows V m s (f s') s' Q) :
    Follows V m s (read >>= f) s' Q :=
  Returns.follows_right rfl hf

/-- A change of the state does not show. -/
theorem follows_update {g : σ → σ} {f : Unit → Program ε σ τ α} (hf : Follows V (f ()) (g s) m' s' Q) :
    Follows V (update g >>= f) s m' s' Q := by
  have hupdate : (update g : Program ε σ τ Unit).Returns s () [] (g s) := rfl
  exact hupdate.follows (fun _ he => absurd he List.not_mem_nil) hf

theorem follows_update_right {g : σ' → σ'} {f : Unit → Program ε' σ' τ α'}
    (hf : Follows V m s (f ()) (g s') Q) : Follows V m s (update g >>= f) s' Q :=
  Returns.follows_right rfl hf

/-- An event that is seen. -/
theorem follows_emit {e : ε} {e' : ε'} {Q : Unit → Unit → σ → σ' → Prop} (hright : V.Right e)
    (hseen : V.seen e = some e') (h : Q () () s s') :
    Follows V (emit e : Program ε σ τ Unit) s (emit e' : Program ε' σ' τ Unit) s' Q where
  right := fun e' he => by
    rw [List.mem_singleton.mp he]
    exact hright
  seen := List.filterMap_cons_some hseen
  mayStop := fun _ he => absurd he (by simp [emit])
  alike := .ok h

end Program

end Interaction
