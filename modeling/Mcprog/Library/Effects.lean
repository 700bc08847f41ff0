import Mcprog.Library.Observer
import Mcprog.Library.Triple

/-!
# What a program has done

The events that a program may issue, and the answers that it gives before it has issued
anything.
-/

namespace Interaction

namespace Program

variable {ε ε' σ τ α β : Type} {m : Program ε σ τ α} {f : α → Program ε σ τ β} {G : ε → Prop}

/-- A run under other names of the events. -/
theorem returns_mapEvents_iff {g : ε → ε'} {s s' : σ} {a : α} {tr : List ε'} :
    (mapEvents g m).Returns s a tr s' ↔ ∃ tr₀, m.Returns s a tr₀ s' ∧ tr = tr₀.map g := by
  rw [Returns, mapEvents]
  constructor
  · intro h
    obtain ⟨htr, hs, hr⟩ := Outcome.mk.inj h
    exact ⟨(m s).trace, by rw [Returns, ← hs, ← hr], htr.symm⟩
  · rintro ⟨tr₀, h, rfl⟩
    rw [show m s = _ from h]

/-- A sequence under other names of the events. -/
theorem mapEvents_bind (g : ε → ε') (m : Program ε σ τ α) (f : α → Program ε σ τ β) :
    mapEvents g (m >>= f) = mapEvents g m >>= fun a => mapEvents g (f a) := by
  funext s
  rw [mapEvents, bind_apply, bind_apply, mapEvents]
  cases (m s).result with
  | error e => rfl
  | ok a => simp only [List.map_append, mapEvents]

theorem Ensures.mapEvents {P : α → Prop} (h : m.Ensures P) (g : ε → ε') :
    (mapEvents g m).Ensures P := by
  intro s a tr s' hr
  obtain ⟨tr₀, hr₀, -⟩ := returns_mapEvents_iff.mp hr
  exact h s a tr₀ s' hr₀

/-- Either branch may be taken. -/
theorem ensures_ite {c : Prop} [Decidable c] {m' : Program ε σ τ α} {P : α → Prop}
    (hm : c → m.Ensures P) (hm' : ¬ c → m'.Ensures P) : (if c then m else m').Ensures P := by
  by_cases h : c
  · rw [if_pos h]
    exact hm h
  · rw [if_neg h]
    exact hm' h

/-- The reason of a run whose first part answers. -/
theorem result_bind_of_returns {s s' : σ} {a : α} {tr : List ε} (h : m.Returns s a tr s') :
    ((m >>= f) s).result = (f a s').result ∧ ((m >>= f) s).trace = tr ++ (f a s').trace := by
  rw [bind_apply, show m s = _ from h]
  exact ⟨rfl, rfl⟩

/-- A run stops in its first part, or in the second one after the first one has answered. -/
theorem stops_bind_cases {s : σ} {e : τ} (h : ((m >>= f) s).result = .error e) :
    ((m s).result = .error e ∧ ((m >>= f) s).trace = (m s).trace) ∨
      ∃ a tr s₁, m.Returns s a tr s₁ ∧ (f a s₁).result = .error e ∧
        ((m >>= f) s).trace = tr ++ (f a s₁).trace := by
  cases hr : (m s).result with
  | error e' =>
    have hrun : (m >>= f) s = ⟨(m s).trace, (m s).state, .error e'⟩ := by rw [bind_apply, hr]
    left
    rw [hrun] at h ⊢
    obtain rfl := Except.error.inj h
    exact ⟨rfl, rfl⟩
  | ok a =>
    right
    have hret : m.Returns s a (m s).trace (m s).state := by rw [Returns, ← hr]
    obtain ⟨hres, htr⟩ := result_bind_of_returns (f := f) hret
    exact ⟨a, _, _, hret, hres.symm.trans h, htr⟩

/-- An event of a sequence comes from its first part, or from its second part once the first
one has answered. -/
theorem of_mem_trace_bind {s : σ} {e : ε} (h : e ∈ ((m >>= f) s).trace) :
    e ∈ (m s).trace ∨ ∃ a tr s₁, m.Returns s a tr s₁ ∧ e ∈ (f a s₁).trace := by
  rw [bind_apply] at h
  cases hr : (m s).result with
  | error err =>
    rw [hr] at h
    exact .inl h
  | ok a =>
    rw [hr] at h
    rcases List.mem_append.mp h with h | h
    · exact .inl h
    · exact .inr ⟨a, (m s).trace, (m s).state, by rw [Returns, ← hr], h⟩

/-- Every event that the program issues is one of `G`. -/
def Issues (m : Program ε σ τ α) (G : ε → Prop) : Prop := ∀ s, ∀ e ∈ (m s).trace, G e

theorem issues_pure {a : α} : Issues (pure a : Program ε σ τ α) G := fun _ _ he => nomatch he

theorem issues_stop {e : τ} : Issues (stop e : Program ε σ τ α) G := fun _ _ he => nomatch he

theorem issues_emit {e : ε} (h : G e) : Issues (emit e : Program ε σ τ Unit) G := by
  intro s e' he
  rw [List.mem_singleton.mp he]
  exact h

/-- The second part may rely on what the first one ensures. -/
theorem Issues.bind_ensures {P : α → Prop} (hm : Issues m G) (hP : m.Ensures P)
    (hf : ∀ a, P a → Issues (f a) G) : Issues (m >>= f) G := by
  intro s e he
  rcases of_mem_trace_bind he with he | ⟨a, tr, s₁, hr, he⟩
  · exact hm s e he
  · exact hf a (hP s a tr s₁ hr) s₁ e he

/-- One program after the other. -/
theorem Issues.bind (hm : Issues m G) (hf : ∀ a, Issues (f a) G) : Issues (m >>= f) G :=
  hm.bind_ensures (ensures_true m) fun a _ => hf a

/-- Either of two programs. -/
theorem issues_ite {c : Prop} [Decidable c] {m' : Program ε σ τ α} (hm : Issues m G)
    (hm' : Issues m' G) : Issues (if c then m else m') G := by
  split
  · exact hm
  · exact hm'

/-- Events that are all translated into the kind. -/
theorem issues_mapEvents {g : ε → ε'} {G : ε' → Prop} (h : ∀ e, G (g e)) : Issues (mapEvents g m) G := by
  intro s e he
  obtain ⟨e₀, -, rfl⟩ := List.mem_map.mp he
  exact h e₀

/-- An answer with `P` comes before anything is issued or changed, and it satisfies `R`. -/
def Refuses (m : Program ε σ τ α) (P R : α → Prop) : Prop :=
  ∀ s a tr s', m.Returns s a tr s' → P a → R a ∧ tr = [] ∧ s' = s

section Refusals

variable {P R : α → Prop} {P' R' : β → Prop}

theorem refuses_pure {a : α} (h : P a → R a) : Refuses (pure a : Program ε σ τ α) P R := by
  intro s b tr s' hr hP
  obtain ⟨rfl, htr, hs⟩ := returns_pure_iff.mp hr
  exact ⟨h hP, htr, hs⟩

/-- An end is no answer. -/
theorem refuses_stop {e : τ} : Refuses (stop e : Program ε σ τ α) P R :=
  fun _ _ _ _ hr => absurd hr not_returns_stop

/-- There is no such answer. -/
theorem refuses_of_ensures (h : m.Ensures fun a => ¬ P a) : Refuses m P R :=
  fun s a tr s' hr hP => absurd hP (h s a tr s' hr)

/-- Either of two programs, each where it is taken. -/
theorem refuses_ite {c : Prop} [Decidable c] {m' : Program ε σ τ α} (hm : c → Refuses m P R)
    (hm' : ¬ c → Refuses m' P R) : Refuses (if c then m else m') P R := by
  by_cases h : c
  · rw [if_pos h]
    exact hm h
  · rw [if_neg h]
    exact hm' h

/-- A sequence refuses where its first part does, and not once that has gone on. -/
theorem Refuses.bind (hm : Refuses m P R) (hf : ∀ a, P a → R a → Refuses (f a) P' R')
    (hgo : ∀ a, ¬ P a → (f a).Ensures fun b => ¬ P' b) : Refuses (m >>= f) P' R' := by
  intro s b tr s' hr hP'
  obtain ⟨a, tr₁, s₁, tr₂, h₁, h₂, rfl⟩ := returns_bind_iff.mp hr
  by_cases hP : P a
  · obtain ⟨hR, rfl, rfl⟩ := hm _ _ _ _ h₁ hP
    exact hf a hP hR _ _ _ _ h₂ hP'
  · exact absurd hP' (hgo a hP _ _ _ _ h₂)

/-- No events are none after they are translated. -/
theorem Refuses.mapEvents (h : Refuses m P R) (g : ε → ε') : Refuses (mapEvents g m) P R := by
  intro s a tr s' hr hP
  obtain ⟨tr₀, hr₀, rfl⟩ := returns_mapEvents_iff.mp hr
  obtain ⟨hR, rfl, hs⟩ := h s a tr₀ s' hr₀ hP
  exact ⟨hR, rfl, hs⟩

end Refusals

/-- Whatever the device does, a run of `m` that stops does so for a reason in `F`. -/
def StopsFor (m : Program ε σ τ α) (F : τ → Prop) : Prop := ∀ s e, (m s).result = .error e → F e

section StopsFor

variable {F : τ → Prop}

@[simp] theorem stopsFor_pure {a : α} : StopsFor (pure a : Program ε σ τ α) F := fun _ _ h => nomatch h

theorem stopsFor_stop {e : τ} (h : F e) : StopsFor (stop e : Program ε σ τ α) F := by
  intro s e' he
  obtain rfl := Except.error.inj he
  exact h

@[simp] theorem stopsFor_read : StopsFor (read : Program ε σ τ σ) F := fun _ _ h => nomatch h

@[simp] theorem stopsFor_update {u : σ → σ} : StopsFor (update u : Program ε σ τ Unit) F :=
  fun _ _ h => nomatch h

@[simp] theorem stopsFor_emit {e : ε} : StopsFor (emit e : Program ε σ τ Unit) F := fun _ _ h => nomatch h

/-- A request stops for the reasons of the device. -/
theorem stopsFor_request {handle : σ → Except τ (α × σ)} {event : α → ε}
    (h : ∀ s e, handle s = .error e → F e) : StopsFor (request handle event) F := by
  intro s e he
  rw [request] at he
  cases hr : handle s with
  | error e' =>
    rw [hr] at he
    obtain rfl := Except.error.inj he
    exact h s _ hr
  | ok r =>
    rw [hr] at he
    cases he

/-- The second part may rely on what the first one ensures. -/
theorem StopsFor.bind_ensures {P : α → Prop} (hm : StopsFor m F) (hP : m.Ensures P)
    (hf : ∀ a, P a → StopsFor (f a) F) : StopsFor (m >>= f) F := by
  intro s e he
  rcases stops_bind_cases he with ⟨hfirst, -⟩ | ⟨a, tr, s₁, hr, hsecond, -⟩
  · exact hm s e hfirst
  · exact hf a (hP s a tr s₁ hr) s₁ e hsecond

/-- One program after the other. -/
@[simp] theorem StopsFor.bind (hm : StopsFor m F) (hf : ∀ a, StopsFor (f a) F) : StopsFor (m >>= f) F :=
  hm.bind_ensures (ensures_true m) fun a _ => hf a

/-- Either of two programs, each where it is taken. -/
theorem stopsFor_ite {c : Prop} [Decidable c] {m' : Program ε σ τ α} (hm : c → StopsFor m F)
    (hm' : ¬ c → StopsFor m' F) : StopsFor (if c then m else m') F := by
  by_cases h : c
  · rw [if_pos h]
    exact hm h
  · rw [if_neg h]
    exact hm' h

@[simp] theorem StopsFor.mapEvents (h : StopsFor m F) (g : ε → ε') : StopsFor (mapEvents g m) F := by
  intro s e he
  exact h s e he

/-- A run of `m` that answers does so with `P`, and one that stops does so for a reason in `F`. -/
def Ends (m : Program ε σ τ α) (F : τ → Prop) (P : α → Prop) : Prop := StopsFor m F ∧ m.Ensures P

variable {P : α → Prop} {Q : β → Prop}

theorem ends_pure {a : α} (h : P a) : Ends (pure a : Program ε σ τ α) F P :=
  ⟨stopsFor_pure, ensures_pure h⟩

theorem ends_stop {e : τ} (h : F e) : Ends (stop e : Program ε σ τ α) F P :=
  ⟨stopsFor_stop h, ensures_stop⟩

/-- The second program may rely on the answer of the first. -/
theorem Ends.bind (hm : Ends m F P) (hf : ∀ a, P a → Ends (f a) F Q) : Ends (m >>= f) F Q :=
  ⟨hm.1.bind_ensures hm.2 fun a h => (hf a h).1, hm.2.bind fun a h => (hf a h).2⟩

/-- Either of two programs, each where it is taken. -/
theorem ends_ite {c : Prop} [Decidable c] {m' : Program ε σ τ α} (hm : c → Ends m F P)
    (hm' : ¬ c → Ends m' F P) : Ends (if c then m else m') F P :=
  ⟨stopsFor_ite (fun h => (hm h).1) fun h => (hm' h).1,
    ensures_ite (fun h => (hm h).2) fun h => (hm' h).2⟩

/-- Other events, and the same answers and ends. -/
theorem Ends.mapEvents (h : Ends m F P) (g : ε → ε') : Ends (mapEvents g m) F P :=
  ⟨h.1.mapEvents g, h.2.mapEvents g⟩

end StopsFor

section Observed

variable {η κ : Type} {O : Observer ε η κ} {R : α → List η → Prop}

theorem exhibits_emit {e : ε} {obs : List η} {R : Unit → List η → Prop} (h : O.Shows [e] obs) (hR : R () obs) :
    (emit e : Program ε σ τ Unit).Exhibits O R := by
  intro s a tr s' hr
  obtain ⟨rfl, -, -⟩ := Outcome.mk.inj hr
  exact ⟨obs, h, hR⟩

/-- Either branch may be observed. -/
theorem exhibits_ite {c : Prop} [Decidable c] {m' : Program ε σ τ α} (hm : c → m.Exhibits O R)
    (hm' : ¬ c → m'.Exhibits O R) : (if c then m else m').Exhibits O R := by
  by_cases h : c
  · rw [if_pos h]
    exact hm h
  · rw [if_neg h]
    exact hm' h

/-- Events of which nothing is shown. -/
theorem exhibits_mapEvents {O : Observer ε' η κ} {g : ε → ε'} {P : α → Prop} (hm : m.Ensures P)
    (h : ∀ tr : List ε, O.Shows (tr.map g) []) :
    (mapEvents g m).Exhibits O fun a obs => obs = [] ∧ P a := by
  intro s a tr s' hr
  obtain ⟨tr₀, hr₀, rfl⟩ := returns_mapEvents_iff.mp hr
  exact ⟨[], h tr₀, rfl, hm s a tr₀ s' hr₀⟩

end Observed

/-- The run of `m` from `s` answers with `Q`, or it stops for a reason in `F`. -/
def Meets (m : Program ε σ τ α) (s : σ) (F : τ → Prop) (Q : α → σ → Prop) : Prop :=
  match (m s).result with
  | .error e => F e
  | .ok a => Q a (m s).state

section Meets

variable {F F' : τ → Prop} {P Q Q' : α → σ → Prop} {R : β → σ → Prop} {s s' : σ}

/-- A run that is known tells the answer. -/
theorem Reaches.meets {a : α} (h : m.Reaches s a s') (hQ : Q a s') : Meets m s F Q := by
  obtain ⟨tr, h⟩ := h
  rw [Meets, show m s = _ from h]
  exact hQ

/-- What a run comes to holds of its answer. -/
theorem Meets.reaches {a : α} (hm : Meets m s F Q) (h : m.Reaches s a s') : Q a s' := by
  obtain ⟨tr, h⟩ := h
  rwa [Meets, show m s = _ from h] at hm

/-- Two runs that are equal come to the same. -/
theorem Meets.of_apply {m' : Program ε σ τ α} (h : Meets m' s' F Q) (heq : m s = m' s') :
    Meets m s F Q := by
  unfold Meets at h ⊢
  rwa [heq]

/-- An answer in the state that it leaves. -/
theorem meets_pure {a : α} (h : Q a s) : Meets (pure a : Program ε σ τ α) s F Q :=
  (reaches_pure a s).meets h

theorem meets_stop {e : τ} (h : F e) : Meets (stop e : Program ε σ τ α) s F Q := h

/-- Where nothing is asked of the answers, the reasons to stop are all there is to know. -/
theorem StopsFor.meets (h : StopsFor m F) : Meets m s F fun _ _ => True := by
  unfold Meets
  cases hr : (m s).result with
  | error e => exact h s e hr
  | ok a => trivial

/-- The second part starts where the first one has ended. -/
theorem Meets.bind (hm : Meets m s F P) (hf : ∀ a s', P a s' → Meets (f a) s' F R) :
    Meets (m >>= f) s F R := by
  unfold Meets at hm ⊢
  rw [bind_apply]
  cases hr : (m s).result with
  | error e =>
    rw [hr] at hm
    exact hm
  | ok a =>
    rw [hr] at hm
    exact hf a _ hm

/-- A run that has no reason to stop answers. -/
theorem Meets.exists_reaches (hm : Meets m s F Q) (hF : ∀ e, ¬ F e) : ∃ a s', m.Reaches s a s' ∧ Q a s' := by
  unfold Meets at hm
  cases hr : (m s).result with
  | error e =>
    rw [hr] at hm
    exact absurd hm (hF e)
  | ok a =>
    rw [hr] at hm
    exact ⟨a, (m s).state, ⟨(m s).trace, by rw [Returns, ← hr]⟩, hm⟩

/-- More ends and answers may be allowed. -/
theorem Meets.mono (hm : Meets m s F P) (hF : ∀ e, F e → F' e) (hQ : ∀ a s', P a s' → Q a s') :
    Meets m s F' Q := by
  unfold Meets at hm ⊢
  cases hr : (m s).result with
  | error e =>
    rw [hr] at hm
    exact hF e hm
  | ok a =>
    rw [hr] at hm
    exact hQ a _ hm

/-- A run comes to what it goes on as. -/
theorem Continues.meets {m' : Program ε σ τ α} (h : m.Continues s m' s') (hm : Meets m' s' F Q) :
    Meets m s F Q := by
  obtain ⟨tr, h⟩ := h
  unfold Meets at hm ⊢
  rw [h]
  exact hm

end Meets

end Program

end Interaction
