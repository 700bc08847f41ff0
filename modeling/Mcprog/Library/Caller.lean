import Mcprog.Library.Triple

/-!
# Callers of a device

A caller makes calls one after the other, and chooses each of them by the replies to those before
it. Where one device answers every call as another one does, from states that stand for each other,
no caller can tell the two apart.
-/

namespace Interaction

variable {κ : Type} {ρ : κ → Type} {σ σ' μ ε τ α : Type}

/-- A caller is done, or makes a call and goes on with the reply. -/
inductive Caller (ρ : κ → Type) (α : Type)
  | done (answer : α)
  | call (request : κ) (next : ρ request → Caller ρ α)

/-- A device replies to a call and changes, or the program ends. -/
abbrev Device (ρ : κ → Type) (σ ε : Type) : Type := (request : κ) → σ → Except ε (ρ request × σ)

namespace Caller

open Program

/-- The run of a caller on a device. -/
def run (D : Device ρ σ ε) : Caller ρ α → σ → Except ε (α × σ)
  | done answer, s => .ok (answer, s)
  | call request next, s => D request s >>= fun r => (next r.1).run D r.2

/-- A call that is answered. -/
theorem run_call {D : Device ρ σ ε} {request : κ} {next : ρ request → Caller ρ α} {s s' : σ} {reply : ρ request}
    (h : D request s = .ok (reply, s')) : (call request next).run D s = (next reply).run D s' := by
  change (D request s >>= fun r => (next r.1).run D r.2) = _
  rw [h]
  rfl

/-- The run of a caller whose calls are carried out by programs. -/
def perform (f : (request : κ) → Program ε σ τ (ρ request)) : Caller ρ α → Program ε σ τ α
  | done answer => pure answer
  | call request next => do
    let reply ← f request
    (next reply).perform f

/-- What every call keeps, the whole run keeps. -/
theorem triple_perform {f : (request : κ) → Program ε σ τ (ρ request)} {P E : Assertion ε σ}
    (h : ∀ request, Triple P (f request) (fun _ => P) E) (caller : Caller ρ α) :
    Triple P (caller.perform f) (fun _ => P) E := by
  induction caller with
  | done answer => exact triple_pure fun _ _ hP => hP
  | call request next ih => exact (h request).bind ih

/-- Every call of the caller is one of these. -/
inductive Makes (P : κ → Prop) : Caller ρ α → Prop
  | done (answer : α) : Makes P (done answer)
  | call {request : κ} {next : ρ request → Caller ρ α} (first : P request)
      (more : ∀ reply, Makes P (next reply)) : Makes P (call request next)

end Caller

/-- With enough fuel a run ends as the run of another device does, in a state that stands for the
state of that device. -/
def Corresponds (R : σ → μ → Prop) (run : Nat → Except ε (α × σ)) : Except ε (α × μ) → Prop
  | .error e => ∃ enough, ∀ fuel ≥ enough, run fuel = .error e
  | .ok (answer, m) => ∃ s, R s m ∧ ∃ enough, ∀ fuel ≥ enough, run fuel = .ok (answer, s)

namespace Program

variable {β : Type}

/-- The answer of a program and the state that it ends in, as the reply of a device. -/
def handle (m : Program κ σ ε α) (s : σ) : Except ε (α × σ) := (m s).result.map (·, (m s).state)

/-- A run that is known is what is handled. -/
theorem Reaches.handle {m : Program κ σ ε α} {s s' : σ} {a : α} (h : m.Reaches s a s') :
    m.handle s = .ok (a, s') := by
  rw [Program.handle, h.result, h.state]
  rfl

/-- A sequence replies as its second part does, once the first one has answered. -/
theorem Reaches.handle_bind {m : Program κ σ ε α} {f : α → Program κ σ ε β} {s s' : σ} {a : α}
    (h : m.Reaches s a s') : (m >>= f).handle s = (f a).handle s' := by
  rw [Program.handle, bind_apply, h.result, h.state]
  rfl

theorem handle_bind (m : Program κ σ ε α) (f : α → Program κ σ ε β) (s : σ) :
    (m >>= f).handle s = m.handle s >>= fun r => (f r.1).handle r.2 := by
  rw [handle, handle, bind_apply]
  cases (m s).result <;> rfl

/-- With enough fuel the program answers, and ends in this state. -/
def Eventual (m : Nat → Program κ σ ε α) (s : σ) (a : α) (s' : σ) : Prop :=
  ∃ enough, ∀ fuel ≥ enough, (m fuel).Reaches s a s'

/-- Two parts that each need enough fuel. -/
theorem Eventual.bind {m : Nat → Program κ σ ε α} {f : Nat → α → Program κ σ ε β} {s s₁ s' : σ} {a : α} {b : β}
    (hm : Eventual m s a s₁) (hf : Eventual (fun fuel => f fuel a) s₁ b s') :
    Eventual (fun fuel => m fuel >>= f fuel) s b s' := by
  obtain ⟨n, hn⟩ := hm
  obtain ⟨k, hk⟩ := hf
  exact ⟨max n k, fun fuel hfuel =>
    (hn fuel ((le_max_left n k).trans hfuel)).bind (hk fuel ((le_max_right n k).trans hfuel))⟩

/-- A program that goes on as another one does. -/
theorem Eventual.of_apply {m m' : Nat → Program κ σ ε α} {s s₁ s' : σ} {a : α}
    (h : ∀ fuel, m fuel s = m' fuel s₁) (hm : Eventual m' s₁ a s') : Eventual m s a s' := by
  obtain ⟨enough, henough⟩ := hm
  refine ⟨enough, fun fuel hfuel => ?_⟩
  obtain ⟨tr, hr⟩ := henough fuel hfuel
  exact ⟨tr, (h fuel).trans hr⟩

theorem Reaches.eventual {m : Program κ σ ε α} {s s' : σ} {a : α} (h : m.Reaches s a s') :
    Eventual (fun _ => m) s a s' := ⟨0, fun _ _ => h⟩

end Program

variable {R : σ → μ → Prop} {R' : σ' → μ → Prop} {D : Nat → Device ρ σ ε} {M M' : Device ρ μ ε} {P : κ → Prop}
  {s : σ} {m : μ}

theorem Corresponds.congr {run run' : Nat → Except ε (α × σ)} {r : Except ε (α × μ)} (h : Corresponds R run' r)
    (heq : ∃ enough, ∀ fuel ≥ enough, run fuel = run' fuel) : Corresponds R run r := by
  obtain ⟨k, hk⟩ := heq
  cases r with
  | error e =>
    obtain ⟨n, hn⟩ := h
    exact ⟨max n k, fun fuel hfuel => (hk fuel ((le_max_right n k).trans hfuel)).trans
      (hn fuel ((le_max_left n k).trans hfuel))⟩
  | ok r =>
    obtain ⟨s, hs, n, hn⟩ := h
    exact ⟨s, hs, max n k, fun fuel hfuel => (hk fuel ((le_max_right n k).trans hfuel)).trans
      (hn fuel ((le_max_left n k).trans hfuel))⟩

/-- A program that answers with enough fuel. -/
theorem corresponds_of_reaches {m : Nat → Program κ σ ε α} {s s' : σ} {answer : α} {t : μ}
    (h : Program.Eventual m s answer s') (hR : R s' t) :
    Corresponds R (fun fuel => (m fuel).handle s) (.ok (answer, t)) := by
  obtain ⟨enough, henough⟩ := h
  exact ⟨s', hR, enough, fun fuel hfuel => (henough fuel hfuel).handle⟩

/-- Runs that match, one after the other. -/
theorem Corresponds.bind {β : Type} {run : Nat → Except ε (α × σ)} {r : Except ε (α × μ)}
    {f : Nat → α × σ → Except ε (β × σ)} {g : α × μ → Except ε (β × μ)} (h : Corresponds R run r)
    (hf : ∀ answer s m, R s m → Corresponds R (fun fuel => f fuel (answer, s)) (g (answer, m))) :
    Corresponds R (fun fuel => run fuel >>= f fuel) (r >>= g) := by
  cases r with
  | error e =>
    obtain ⟨enough, henough⟩ := h
    refine ⟨enough, fun fuel hfuel => ?_⟩
    dsimp only
    rw [henough fuel hfuel]
    rfl
  | ok r =>
    obtain ⟨answer, m⟩ := r
    obtain ⟨s, hs, n, hn⟩ := h
    have hrest := hf answer s m hs
    change Corresponds R _ (g (answer, m))
    cases hg : g (answer, m) with
    | error e =>
      rw [hg] at hrest
      obtain ⟨k, hk⟩ := hrest
      refine ⟨max n k, fun fuel hfuel => ?_⟩
      dsimp only
      rw [hn fuel ((le_max_left n k).trans hfuel)]
      exact hk fuel ((le_max_right n k).trans hfuel)
    | ok r' =>
      rw [hg] at hrest
      obtain ⟨s', hs', k, hk⟩ := hrest
      refine ⟨s', hs', max n k, fun fuel hfuel => ?_⟩
      dsimp only
      rw [hn fuel ((le_max_left n k).trans hfuel)]
      exact hk fuel ((le_max_right n k).trans hfuel)

/-- A device that corresponds to another one at every call does so under every caller. -/
theorem Caller.corresponds_run (h : ∀ request s m, R s m → Corresponds R (fun fuel => D fuel request s) (M request m))
    (caller : Caller ρ α) (hs : R s m) : Corresponds R (fun fuel => caller.run (D fuel) s) (caller.run M m) := by
  induction caller generalizing s m with
  | done answer => exact ⟨s, hs, 0, fun _ _ => rfl⟩
  | call request next ih =>
    unfold Caller.run
    exact (h request s m hs).bind fun reply s₁ m₁ hs₁ => ih reply hs₁

/-- A caller that makes only calls at which two devices are the same has the same run on both. -/
theorem Caller.Makes.run_eq {caller : Caller ρ α} (h : caller.Makes P)
    (hM : ∀ request, P request → M request = M' request) (m : μ) : caller.run M m = caller.run M' m := by
  induction h generalizing m with
  | done answer => rfl
  | call first more ih =>
    rename_i request next
    unfold Caller.run
    rw [← hM request first]
    cases M request m with
    | error e => rfl
    | ok r => exact ih r.1 r.2

theorem Corresponds.mono {S : σ → μ → Prop} {run : Nat → Except ε (α × σ)} {r : Except ε (α × μ)}
    (h : Corresponds R run r) (hRS : ∀ s m, R s m → S s m) : Corresponds S run r := by
  cases r with
  | error e => exact h
  | ok r =>
    obtain ⟨s, hs, hreach⟩ := h
    exact ⟨s, hRS s _ hs, hreach⟩

/-- Runs that correspond one after the other correspond. -/
theorem Corresponds.trans {ν : Type} {R₂ : μ → ν → Prop} {run : Nat → Except ε (α × σ)} {r : Except ε (α × μ)}
    {r' : Except ε (α × ν)} (h : Corresponds R run r) (h' : Corresponds R₂ (fun _ => r) r') :
    Corresponds (Relation.Comp R R₂) run r' := by
  cases r' with
  | error e =>
    obtain ⟨n, hn⟩ := h'
    have hr : r = .error e := hn n le_rfl
    rwa [hr] at h
  | ok r' =>
    obtain ⟨answer, z⟩ := r'
    obtain ⟨m, hm, n, hn⟩ := h'
    have hr : r = .ok (answer, m) := hn n le_rfl
    rw [hr] at h
    obtain ⟨s, hs, hreach⟩ := h
    exact ⟨s, ⟨m, hs, hm⟩, hreach⟩

/-- Two devices that match a third one give a caller the same answer. -/
theorem Corresponds.agree {run : Nat → Except ε (α × σ)} {run' : Nat → Except ε (α × σ')} {r : Except ε (α × μ)}
    (h : Corresponds R run r) (h' : Corresponds R' run' r) :
    ∃ enough, ∀ fuel ≥ enough, (run fuel).map Prod.fst = (run' fuel).map Prod.fst := by
  cases r with
  | error e =>
    obtain ⟨n, hn⟩ := h
    obtain ⟨k, hk⟩ := h'
    refine ⟨max n k, fun fuel hfuel => ?_⟩
    rw [hn fuel ((le_max_left n k).trans hfuel), hk fuel ((le_max_right n k).trans hfuel)]
    rfl
  | ok r =>
    obtain ⟨answer, m⟩ := r
    obtain ⟨s, -, n, hn⟩ := h
    obtain ⟨s', -, k, hk⟩ := h'
    refine ⟨max n k, fun fuel hfuel => ?_⟩
    rw [hn fuel ((le_max_left n k).trans hfuel), hk fuel ((le_max_right n k).trans hfuel)]
    rfl

end Interaction
