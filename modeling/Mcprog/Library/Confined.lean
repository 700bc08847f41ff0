import Mcprog.Library.Effects

/-!
# What a run is confined to

A run is confined to a set of events when it issues no others. Where a part of it issues events of the
set only, the run is confined to the set exactly if what follows is.
-/

namespace Interaction

namespace Program

variable {ε σ τ α β : Type}

/-- Every event of the run of `m` from `s` is in `P`. -/
def Confined (P : ε → Prop) (m : Program ε σ τ α) (s : σ) : Prop := ∀ e ∈ (m s).trace, P e

/-- The run of `m` from `s` answers `a` and ends in `s'`, with events of `P` only. -/
def ReachesBy (P : ε → Prop) (m : Program ε σ τ α) (s : σ) (a : α) (s' : σ) : Prop :=
  ∃ tr, (∀ e ∈ tr, P e) ∧ m.Returns s a tr s'

/-- From `s` the run of `m` goes on as that of `m'` from `s'`, after events of `P` only. -/
def ContinuesBy (P : ε → Prop) (m : Program ε σ τ α) (s : σ) (m' : Program ε σ τ α) (s' : σ) : Prop :=
  ∃ tr, (∀ e ∈ tr, P e) ∧ m s = ⟨tr ++ (m' s').trace, (m' s').state, (m' s').result⟩

variable {P Q : ε → Prop} {m m' m'' : Program ε σ τ α} {f : α → Program ε σ τ β} {s s' s'' : σ} {a : α}
  {b : β}

theorem confined_pure (a : α) (s : σ) : Confined P (pure a : Program ε σ τ α) s :=
  fun _ he => absurd he List.not_mem_nil

theorem confined_stop (e : τ) (s : σ) : Confined P (stop e : Program ε σ τ α) s :=
  fun _ he => absurd he List.not_mem_nil

theorem Confined.mono (h : Confined P m s) (hP : ∀ e, P e → Q e) : Confined Q m s :=
  fun e he => hP e (h e he)

theorem ReachesBy.reaches (h : ReachesBy P m s a s') : m.Reaches s a s' := by
  obtain ⟨tr, -, hr⟩ := h
  exact hr.reaches

theorem ReachesBy.confined (h : ReachesBy P m s a s') : Confined P m s := by
  obtain ⟨tr, htr, hr⟩ := h
  unfold Confined
  rw [show m s = _ from hr]
  exact htr

theorem reachesBy_pure (a : α) (s : σ) : ReachesBy P (pure a : Program ε σ τ α) s a s :=
  ⟨[], fun _ he => absurd he List.not_mem_nil, rfl⟩

/-- A change of the state makes no event. -/
theorem reachesBy_update (f : σ → σ) (s : σ) : ReachesBy P (update f : Program ε σ τ Unit) s () (f s) :=
  ⟨[], fun _ he => absurd he List.not_mem_nil, rfl⟩

theorem reachesBy_read (s : σ) : ReachesBy P (read : Program ε σ τ σ) s s s :=
  ⟨[], fun _ he => absurd he List.not_mem_nil, rfl⟩

theorem reachesBy_request {handle : σ → Except τ (α × σ)} {event : α → ε} (h : handle s = .ok (a, s'))
    (hP : P (event a)) : ReachesBy P (request handle event) s a s' := by
  refine ⟨[event a], ?_, returns_request_iff.mpr ⟨h, rfl⟩⟩
  intro e he
  rwa [List.mem_singleton.mp he]

theorem ReachesBy.bind (h : ReachesBy P m s a s') (h' : ReachesBy P (f a) s' b s'') :
    ReachesBy P (m >>= f) s b s'' := by
  obtain ⟨tr, htr, hr⟩ := h
  obtain ⟨tr', htr', hr'⟩ := h'
  refine ⟨tr ++ tr', fun e he => ?_, hr.bind hr'⟩
  rcases List.mem_append.mp he with he | he
  · exact htr e he
  · exact htr' e he

theorem ContinuesBy.refl (m : Program ε σ τ α) (s : σ) : ContinuesBy P m s m s :=
  ⟨[], fun _ he => absurd he List.not_mem_nil, rfl⟩

theorem ContinuesBy.trans (h : ContinuesBy P m s m' s') (h' : ContinuesBy P m' s' m'' s'') :
    ContinuesBy P m s m'' s'' := by
  obtain ⟨tr, htr, h⟩ := h
  obtain ⟨tr', htr', h'⟩ := h'
  refine ⟨tr ++ tr', fun e he => ?_, by rw [h, h', List.append_assoc]⟩
  rcases List.mem_append.mp he with he | he
  · exact htr e he
  · exact htr' e he

/-- More events may be allowed on the way. -/
theorem ContinuesBy.mono (h : ContinuesBy P m s m' s') (hP : ∀ e, P e → Q e) : ContinuesBy Q m s m' s' := by
  obtain ⟨tr, htr, h⟩ := h
  exact ⟨tr, fun e he => hP e (htr e he), h⟩

/-- A sequence goes on as its second part, once the first one has answered. -/
theorem ReachesBy.continuesBy (h : ReachesBy P m s a s') : ContinuesBy P (m >>= f) s (f a) s' := by
  obtain ⟨tr, htr, hr⟩ := h
  exact ⟨tr, htr, by rw [bind_apply, show m s = _ from hr]⟩

theorem ContinuesBy.continues (h : ContinuesBy P m s m' s') : m.Continues s m' s' := by
  obtain ⟨tr, -, h⟩ := h
  exact ⟨tr, h⟩

/-- The result is that of what is left. -/
theorem Continues.result (h : m.Continues s m' s') : (m s).result = (m' s').result := by
  obtain ⟨tr, h⟩ := h
  rw [h]

/-- The same where the events are known. -/
theorem ContinuesBy.result (h : ContinuesBy P m s m' s') : (m s).result = (m' s').result :=
  h.continues.result

/-- What a run goes on as is confined to what the run is. -/
theorem Continues.confined (h : m.Continues s m' s') (hm : Confined P m s) : Confined P m' s' := by
  obtain ⟨tr, h⟩ := h
  intro e he
  apply hm e
  rw [h]
  exact List.mem_append_right _ he

/-- A run that goes on after events of the set is confined to it exactly if the rest is. -/
theorem ContinuesBy.confined_iff (h : ContinuesBy P m s m' s') (hP : ∀ e, P e → Q e) :
    Confined Q m s ↔ Confined Q m' s' := by
  obtain ⟨tr, htr, h⟩ := h
  unfold Confined
  rw [h]
  constructor
  · exact fun hall e he => hall e (List.mem_append_right _ he)
  · intro hall e he
    rcases List.mem_append.mp he with he | he
    · exact hP e (htr e he)
    · exact hall e he

/-- A sequence issues what its first part does. -/
theorem Confined.of_bind (h : Confined P (m >>= f) s) : Confined P m s := by
  intro e he
  apply h e
  rw [bind_apply]
  cases (m s).result with
  | error e' => exact he
  | ok a => exact List.mem_append_left _ he

/-- A sequence is confined to a set exactly if both parts are. -/
theorem confined_bind_iff : Confined P (m >>= f) s ↔
    Confined P m s ∧ ∀ a s', m.Reaches s a s' → Confined P (f a) s' := by
  constructor
  · intro h
    refine ⟨h.of_bind, ?_⟩
    rintro a s' ⟨tr, hr⟩ e he
    apply h e
    rw [bind_apply, show m s = _ from hr]
    exact List.mem_append_right _ he
  · rintro ⟨hm, hf⟩ e he
    rcases of_mem_trace_bind he with he | ⟨a, tr, s', hr, he⟩
    · exact hm e he
    · exact hf a s' ⟨tr, hr⟩ e he

end Program

end Interaction
