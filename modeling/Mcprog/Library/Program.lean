import Mathlib.Tactic

/-!
# Programs that talk to a device

A program reads and changes a state, issues events that an outsider can see,
and either answers or stops early. A run is a function of its starting state, so
the trace of a sequence is the concatenation of the traces of its parts:
`returns_bind_iff` is the only rule that later proofs use to take a run apart.
-/

namespace Interaction

/-- All that one run leaves behind: the events it issued, the state it ended in,
and its answer or the reason why it stopped. -/
structure Outcome (ε σ τ α : Type) where
  /-- Events in the order in which they were issued. -/
  trace : List ε
  /-- The state when the run ended. -/
  state : σ
  /-- The answer, or why there is none. -/
  result : Except τ α

/-- A program over states `σ`, events `ε` and reasons `τ` to stop. -/
def Program (ε σ τ α : Type) : Type := σ → Outcome ε σ τ α

variable {ε σ τ α β : Type}

namespace Program

/-- Answer at once. -/
def ret (a : α) : Program ε σ τ α := fun s => ⟨[], s, .ok a⟩

/-- Run `m`, and then `f` on its answer. Nothing follows a stop. -/
def andThen (m : Program ε σ τ α) (f : α → Program ε σ τ β) : Program ε σ τ β := fun s =>
  match (m s).result with
  | .error e => ⟨(m s).trace, (m s).state, .error e⟩
  | .ok a => ⟨(m s).trace ++ (f a (m s).state).trace, (f a (m s).state).state,
      (f a (m s).state).result⟩

instance : Monad (Program ε σ τ) where
  pure := ret
  bind := andThen

/-- Stop for the reason `e`. -/
def stop (e : τ) : Program ε σ τ α := fun s => ⟨[], s, .error e⟩

/-- Read the state. -/
def read : Program ε σ τ σ := fun s => ⟨[], s, .ok s⟩

/-- Change the state. -/
def update (f : σ → σ) : Program ε σ τ Unit := fun s => ⟨[], f s, .ok ()⟩

/-- Ask the device, which may refuse, and record the request with its reply. -/
def request (handle : σ → Except τ (α × σ)) (event : α → ε) : Program ε σ τ α := fun s =>
  match handle s with
  | .error e => ⟨[], s, .error e⟩
  | .ok (a, s') => ⟨[event a], s', .ok a⟩

/-- The run of `m` from `s` answers `a`, issues `tr` and ends in `s'`. -/
def Returns (m : Program ε σ τ α) (s : σ) (a : α) (tr : List ε) (s' : σ) : Prop :=
  m s = ⟨tr, s', .ok a⟩

/-- A run answers in one way only. -/
theorem Returns.unique {m : Program ε σ τ α} {s s' s'' : σ} {a b : α} {tr tr' : List ε}
    (h : m.Returns s a tr s') (h' : m.Returns s b tr' s'') : a = b ∧ tr = tr' ∧ s' = s'' := by
  have he := h.symm.trans h'
  simp only [Outcome.mk.injEq, Except.ok.injEq] at he
  exact ⟨he.2.2, he.1, he.2.1⟩

/-- What a sequence does from a state. -/
theorem bind_apply (m : Program ε σ τ α) (f : α → Program ε σ τ β) (s : σ) :
    (m >>= f) s = match (m s).result with
      | .error e => ⟨(m s).trace, (m s).state, .error e⟩
      | .ok a => ⟨(m s).trace ++ (f a (m s).state).trace, (f a (m s).state).state,
          (f a (m s).state).result⟩ := rfl

private theorem andThen_ret (m : Program ε σ τ α) : andThen m ret = m := by
  funext s
  unfold andThen
  cases m s with
  | mk tr s' r => cases r <;> simp [ret]

private theorem andThen_assoc {γ : Type} (m : Program ε σ τ α) (f : α → Program ε σ τ β)
    (g : β → Program ε σ τ γ) : m >>= f >>= g = m >>= fun a => f a >>= g := by
  funext s
  simp only [bind_apply]
  cases hm : (m s).result with
  | error e => rfl
  | ok a => cases hf : (f a (m s).state).result <;> simp [hf]

instance : LawfulMonad (Program ε σ τ) :=
  LawfulMonad.mk' _ andThen_ret (fun _ _ => rfl) andThen_assoc

/-- What follows a part that does not answer has no effect. -/
theorem bind_eq_of_not_returns {m : Program ε σ τ α} {f : α → Program ε σ τ α} {s : σ}
    (h : ¬ ∃ a tr s', m.Returns s a tr s') : (m >>= f) s = m s := by
  rw [bind_apply]
  cases hm : m s with
  | mk tr s' r =>
    cases r with
    | error e => rfl
    | ok a => exact absurd ⟨a, tr, s', hm⟩ h

/-- Sequences whose second parts do the same wherever the first part answers. -/
theorem bind_congr_of_returns {m : Program ε σ τ α} {f g : α → Program ε σ τ β} {s : σ}
    (h : ∀ a tr s', m.Returns s a tr s' → f a s' = g a s') : (m >>= f) s = (m >>= g) s := by
  rw [bind_apply, bind_apply]
  cases hm : m s with
  | mk tr s' r =>
    cases r with
    | error e => rfl
    | ok a => simp only [h a tr s' hm]

/-- Answering at once issues nothing and changes nothing. -/
@[simp] theorem returns_pure_iff {s s' : σ} {a b : α} {tr : List ε} :
    (pure a : Program ε σ τ α).Returns s b tr s' ↔ b = a ∧ tr = [] ∧ s' = s := by
  change (⟨[], s, .ok a⟩ : Outcome ε σ τ α) = _ ↔ _
  simp only [Outcome.mk.injEq, Except.ok.injEq]
  constructor <;> rintro ⟨rfl, rfl, rfl⟩ <;> exact ⟨rfl, rfl, rfl⟩

/-- A sequence answers exactly when both of its parts do. -/
theorem returns_bind_iff {m : Program ε σ τ α} {f : α → Program ε σ τ β} {s s' : σ} {b : β}
    {tr : List ε} : (m >>= f).Returns s b tr s' ↔
      ∃ a tr₁ s₁ tr₂, m.Returns s a tr₁ s₁ ∧ (f a).Returns s₁ b tr₂ s' ∧ tr = tr₁ ++ tr₂ := by
  change andThen m f s = _ ↔ _
  unfold andThen Returns
  constructor
  · intro h
    cases hm : m s with
    | mk tr₁ s₁ r =>
      rw [hm] at h
      cases r with
      | error e => simp at h
      | ok a =>
        simp only [Outcome.mk.injEq] at h
        refine ⟨a, tr₁, s₁, (f a s₁).trace, rfl, ?_, h.1.symm⟩
        rw [← h.2.1, ← h.2.2]
  · rintro ⟨a, tr₁, s₁, tr₂, hm, hf, rfl⟩
    simp only [hm, hf]

/-- A sequence whose parts answer answers. -/
theorem Returns.bind {m : Program ε σ τ α} {f : α → Program ε σ τ β} {s s₁ s' : σ} {a : α}
    {b : β} {tr₁ tr₂ : List ε} (h : m.Returns s a tr₁ s₁) (h' : (f a).Returns s₁ b tr₂ s') :
    (m >>= f).Returns s b (tr₁ ++ tr₂) s' :=
  returns_bind_iff.mpr ⟨a, tr₁, s₁, tr₂, h, h', rfl⟩

/-- A stop is no answer. -/
@[simp] theorem not_returns_stop {e : τ} {s s' : σ} {a : α} {tr : List ε} :
    ¬ (stop e : Program ε σ τ α).Returns s a tr s' := by
  simp [stop, Returns]

/-- Reading the state answers with it. -/
@[simp] theorem returns_read_iff {s s' r : σ} {tr : List ε} :
    (read : Program ε σ τ σ).Returns s r tr s' ↔ r = s ∧ tr = [] ∧ s' = s := by
  simp only [read, Returns, Outcome.mk.injEq, Except.ok.injEq]
  constructor <;> rintro ⟨rfl, rfl, rfl⟩ <;> exact ⟨rfl, rfl, rfl⟩

/-- Changing the state is not seen from outside. -/
@[simp] theorem returns_update_iff {f : σ → σ} {s s' : σ} {u : Unit} {tr : List ε} :
    (update f : Program ε σ τ Unit).Returns s u tr s' ↔ tr = [] ∧ s' = f s := by
  simp only [update, Returns, Outcome.mk.injEq, and_true]
  constructor <;> rintro ⟨rfl, rfl⟩ <;> exact ⟨rfl, rfl⟩

/-- A granted request is one event, which names its reply. -/
@[simp] theorem returns_request_iff {handle : σ → Except τ (α × σ)} {event : α → ε} {s s' : σ}
    {a : α} {tr : List ε} : (request handle event).Returns s a tr s' ↔
      handle s = .ok (a, s') ∧ tr = [event a] := by
  simp only [request, Returns]
  rcases handle s with e | ⟨b, t⟩
  · simp
  · simp only [Outcome.mk.injEq, Except.ok.injEq, Prod.mk.injEq]
    constructor
    · rintro ⟨rfl, rfl, rfl⟩
      exact ⟨⟨rfl, rfl⟩, rfl⟩
    · rintro ⟨⟨rfl, rfl⟩, rfl⟩
      exact ⟨rfl, rfl, rfl⟩

/-- The run of `m` from `s` answers `a` and ends in `s'`, whatever it issues. -/
def Reaches (m : Program ε σ τ α) (s : σ) (a : α) (s' : σ) : Prop := ∃ tr, m.Returns s a tr s'

/-- A run reaches one answer and one state only. -/
theorem Reaches.unique {m : Program ε σ τ α} {s s' s'' : σ} {a b : α} (h : m.Reaches s a s')
    (h' : m.Reaches s b s'') : a = b ∧ s' = s'' := by
  obtain ⟨tr, h⟩ := h
  obtain ⟨tr', h'⟩ := h'
  obtain ⟨hab, -, hs⟩ := h.unique h'
  exact ⟨hab, hs⟩

theorem reaches_pure (a : α) (s : σ) : (pure a : Program ε σ τ α).Reaches s a s := ⟨[], rfl⟩

theorem reaches_read (s : σ) : (read : Program ε σ τ σ).Reaches s s s := ⟨[], rfl⟩

theorem reaches_update (f : σ → σ) (s : σ) : (update f : Program ε σ τ Unit).Reaches s () (f s) :=
  ⟨[], rfl⟩

theorem reaches_request {handle : σ → Except τ (α × σ)} {event : α → ε} {s s' : σ} {a : α}
    (h : handle s = .ok (a, s')) : (request handle event).Reaches s a s' :=
  ⟨[event a], returns_request_iff.mpr ⟨h, rfl⟩⟩

theorem Returns.reaches {m : Program ε σ τ α} {s s' : σ} {a : α} {tr : List ε}
    (h : m.Returns s a tr s') : m.Reaches s a s' := ⟨tr, h⟩

/-- A sequence whose parts answer answers, and ends where its second part ends. -/
theorem Reaches.bind {m : Program ε σ τ α} {f : α → Program ε σ τ β} {s s₁ s' : σ} {a : α}
    {b : β} (h : m.Reaches s a s₁) (h' : (f a).Reaches s₁ b s') : (m >>= f).Reaches s b s' := by
  obtain ⟨tr, hr⟩ := h
  obtain ⟨tr', hr'⟩ := h'
  exact ⟨tr ++ tr', hr.bind hr'⟩

/-- The state after a run that answers. -/
theorem Reaches.state {m : Program ε σ τ α} {s s' : σ} {a : α} (h : m.Reaches s a s') :
    (m s).state = s' := by
  obtain ⟨tr, hr⟩ := h
  rw [show m s = _ from hr]

/-- The answer of a run that answers. -/
theorem Reaches.result {m : Program ε σ τ α} {s s' : σ} {a : α} (h : m.Reaches s a s') :
    (m s).result = .ok a := by
  obtain ⟨tr, hr⟩ := h
  rw [show m s = _ from hr]

/-- From `s` the run of `m` goes on as that of `m'` from `s'`, after what it has issued. -/
def Continues (m : Program ε σ τ α) (s : σ) (m' : Program ε σ τ α) (s' : σ) : Prop :=
  ∃ tr, m s = ⟨tr ++ (m' s').trace, (m' s').state, (m' s').result⟩

theorem Continues.refl (m : Program ε σ τ α) (s : σ) : m.Continues s m s := ⟨[], rfl⟩

theorem Continues.trans {m m' m'' : Program ε σ τ α} {s s' s'' : σ} (h : m.Continues s m' s')
    (h' : m'.Continues s' m'' s'') : m.Continues s m'' s'' := by
  obtain ⟨tr, h⟩ := h
  obtain ⟨tr', h'⟩ := h'
  exact ⟨tr ++ tr', by rw [h, h', List.append_assoc]⟩

/-- A sequence goes on as its second part, once the first one has answered. -/
theorem Reaches.continues {m : Program ε σ τ α} {f : α → Program ε σ τ β} {s s' : σ} {a : α}
    (h : m.Reaches s a s') : (m >>= f).Continues s (f a) s' := by
  obtain ⟨tr, h⟩ := h
  exact ⟨tr, by rw [bind_apply, show m s = _ from h]⟩

/-- A sequence goes on as its first part does. -/
theorem Continues.bind {m m' : Program ε σ τ α} {f : α → Program ε σ τ β} {s s' : σ}
    (h : m.Continues s m' s') : (m >>= f).Continues s (m' >>= f) s' := by
  obtain ⟨tr, h⟩ := h
  refine ⟨tr, ?_⟩
  rw [bind_apply, bind_apply, h]
  cases (m' s').result with
  | error e => rfl
  | ok a => simp only [List.append_assoc]

/-- Where a run goes on it reaches what it reaches from there. -/
theorem Continues.reaches_iff {m m' : Program ε σ τ α} {s s' t : σ} {a : α}
    (h : m.Continues s m' s') : m.Reaches s a t ↔ m'.Reaches s' a t := by
  obtain ⟨tr, h⟩ := h
  constructor
  · rintro ⟨tr', hr⟩
    have heq : (⟨tr ++ (m' s').trace, (m' s').state, (m' s').result⟩ : Outcome ε σ τ α) =
        ⟨tr', t, .ok a⟩ := h.symm.trans hr
    simp only [Outcome.mk.injEq] at heq
    refine ⟨(m' s').trace, ?_⟩
    rw [Returns, ← heq.2.1, ← heq.2.2]
  · rintro ⟨tr', hr⟩
    refine ⟨tr ++ tr', ?_⟩
    rw [Returns, h, show m' s' = _ from hr]

/-- A run with a known part of its answer answers. -/
theorem exists_returns {m : Program ε σ τ α} {s : σ} {f : α → β} {b : β}
    (h : (m s).result.toOption.map f = some b) : ∃ a tr s', m.Returns s a tr s' ∧ f a = b := by
  cases hr : (m s).result with
  | error e =>
    rw [hr] at h
    exact absurd h (by simp [Except.toOption])
  | ok a =>
    rw [hr] at h
    refine ⟨a, (m s).trace, (m s).state, ?_, Option.some.inj h⟩
    rw [Returns, ← hr]

/-- Every answer of `m` satisfies `P`, whatever the device does. -/
def Ensures (m : Program ε σ τ α) (P : α → Prop) : Prop :=
  ∀ s a tr s', m.Returns s a tr s' → P a

theorem ensures_pure {a : α} {P : α → Prop} (h : P a) :
    (pure a : Program ε σ τ α).Ensures P := by
  intro s b tr s' hr
  rw [(returns_pure_iff.mp hr).1]
  exact h

/-- The second part may rely on what the first one ensures. -/
theorem Ensures.bind {m : Program ε σ τ α} {f : α → Program ε σ τ β} {P : α → Prop}
    {Q : β → Prop} (hm : m.Ensures P) (hf : ∀ a, P a → (f a).Ensures Q) :
    (m >>= f).Ensures Q := by
  intro s b tr s' hr
  obtain ⟨a, tr₁, s₁, tr₂, h₁, h₂, _⟩ := returns_bind_iff.mp hr
  exact hf a (hm _ _ _ _ h₁) _ _ _ _ h₂

/-- Where nothing is known of the first part, the second one ensures by itself. -/
theorem ensures_bind {m : Program ε σ τ α} {f : α → Program ε σ τ β} {Q : β → Prop}
    (hf : ∀ a, (f a).Ensures Q) : (m >>= f).Ensures Q :=
  Ensures.bind (P := fun _ => True) (fun _ _ _ _ _ => trivial) fun a _ => hf a

theorem ensures_true (m : Program ε σ τ α) : m.Ensures fun _ => True := fun _ _ _ _ _ => trivial

theorem ensures_stop {e : τ} {P : α → Prop} : (stop e : Program ε σ τ α).Ensures P :=
  fun _ _ _ _ h => absurd h not_returns_stop

end Program

end Interaction
