import Mcprog.Library.Caller
import Mcprog.Library.Triple

/-!
# Programs over two devices

A program is written against the calls of a device, and so it is a family of programs where the
device is one of a family. The programs of a family track another program when each of them, once
its device has enough fuel, issues what the other one issues and ends as that one does.
-/

namespace Interaction

namespace Program

variable {ε ε' κ σ τ α β γ δ : Type} {R : σ → τ → Prop}

/-- From related states the programs of the family come to the trace and the result of the other
program, and to a state related to its state. -/
def Tracks (R : σ → τ → Prop) (m : Nat → Program ε σ κ α) (m' : Program ε τ κ α) : Prop :=
  ∀ s t, R s t → ∃ s', R s' (m' t).state ∧
    ∃ enough, ∀ fuel ≥ enough, m fuel s = ⟨(m' t).trace, s', (m' t).result⟩

theorem tracks_pure (a : α) : Tracks R (fun _ => (pure a : Program ε σ κ α)) (pure a) :=
  fun s _ hR => ⟨s, hR, 0, fun _ _ => rfl⟩

theorem tracks_stop (e : κ) : Tracks R (fun _ => (stop e : Program ε σ κ α)) (stop e) :=
  fun s _ hR => ⟨s, hR, 0, fun _ _ => rfl⟩

theorem tracks_emit (e : ε) : Tracks R (fun _ => (emit e : Program ε σ κ Unit)) (emit e) :=
  fun s _ hR => ⟨s, hR, 0, fun _ _ => rfl⟩

/-- What is read of related states is the same. -/
theorem tracks_reading {f : σ → α} {f' : τ → α} (h : ∀ s t, R s t → f s = f' t) :
    Tracks R (fun _ => (do return f (← read) : Program ε σ κ α)) (do return f' (← read)) :=
  fun s t hR => ⟨s, hR, 0, fun _ _ => congrArg (fun a => (⟨[], s, .ok a⟩ : Outcome ε σ κ α)) (h s t hR)⟩

/-- A change after which the states are related again. -/
theorem tracks_update {f : σ → σ} {f' : τ → τ} (h : ∀ s t, R s t → R (f s) (f' t)) :
    Tracks R (fun _ => (update f : Program ε σ κ Unit)) (update f') :=
  fun s t hR => ⟨f s, h s t hR, 0, fun _ _ => rfl⟩

/-- A request that the devices answer alike. -/
theorem tracks_request {handle : Nat → σ → Except κ (α × σ)} {handle' : τ → Except κ (α × τ)} (event : α → ε)
    (h : ∀ s t, R s t → Corresponds R (fun fuel => handle fuel s) (handle' t)) :
    Tracks R (fun fuel => request (handle fuel) event) (request handle' event) := by
  intro s t hR
  have hreply := h s t hR
  unfold request
  cases hr : handle' t with
  | error e =>
    rw [hr] at hreply
    obtain ⟨enough, henough⟩ := hreply
    refine ⟨s, hR, enough, fun fuel hfuel => ?_⟩
    have hrun : handle fuel s = .error e := henough fuel hfuel
    dsimp only
    rw [hrun]
  | ok r =>
    obtain ⟨a, t'⟩ := r
    rw [hr] at hreply
    obtain ⟨s', hR', enough, henough⟩ := hreply
    refine ⟨s', hR', enough, fun fuel hfuel => ?_⟩
    have hrun : handle fuel s = .ok (a, s') := henough fuel hfuel
    dsimp only
    rw [hrun]

/-- The second parts track each other from wherever the first ones end. -/
theorem Tracks.bind {m : Nat → Program ε σ κ α} {m' : Program ε τ κ α} {f : Nat → α → Program ε σ κ β}
    {f' : α → Program ε τ κ β} (hm : Tracks R m m') (hf : ∀ a, Tracks R (fun fuel => f fuel a) (f' a)) :
    Tracks R (fun fuel => m fuel >>= f fuel) (m' >>= f') := by
  intro s t hR
  obtain ⟨s₁, hR₁, n, hn⟩ := hm s t hR
  rw [bind_apply m' f' t]
  cases hres : (m' t).result with
  | error e =>
    refine ⟨s₁, hR₁, n, fun fuel hfuel => ?_⟩
    change (m fuel >>= f fuel) s = _
    rw [bind_apply, hn fuel hfuel, hres]
  | ok a =>
    obtain ⟨s', hR', k, hk⟩ := hf a s₁ _ hR₁
    refine ⟨s', hR', max n k, fun fuel hfuel => ?_⟩
    have hrest : f fuel a s₁ = ⟨(f' a (m' t).state).trace, s', (f' a (m' t).state).result⟩ :=
      hk fuel ((le_max_right n k).trans hfuel)
    change (m fuel >>= f fuel) s = _
    rw [bind_apply, hn fuel ((le_max_left n k).trans hfuel), hres]
    dsimp only
    rw [hrest]

/-- A choice that does not depend on the device. -/
theorem Tracks.ite {c : Prop} [Decidable c] {m n : Nat → Program ε σ κ α} {m' n' : Program ε τ κ α}
    (hm : c → Tracks R m m') (hn : ¬c → Tracks R n n') :
    Tracks R (fun fuel => if c then m fuel else n fuel) (if c then m' else n') := by
  by_cases h : c
  · simp only [if_pos h]
    exact hm h
  · simp only [if_neg h]
    exact hn h

/-- A method that the devices have or lack together. -/
theorem optional_cases {o : Nat → Option γ} {o' : Option δ} (h : ∀ fuel, (o fuel).isSome = o'.isSome) :
    (∃ (g : Nat → γ) (g' : δ), (∀ fuel, o fuel = some (g fuel)) ∧ o' = some g') ∨
      ((∀ fuel, o fuel = none) ∧ o' = none) := by
  cases ho : o' with
  | none =>
    exact .inr ⟨fun fuel => Option.not_isSome_iff_eq_none.mp (by rw [h fuel, ho]; exact Bool.false_ne_true), rfl⟩
  | some g' =>
    have hsome (fuel : Nat) : ∃ g, o fuel = some g := Option.isSome_iff_exists.mp (by rw [h fuel, ho]; rfl)
    choose g hg using hsome
    exact .inl ⟨g, g', hg, rfl⟩

/-- Programs under other names of their events. -/
theorem Tracks.mapEvents {m : Nat → Program ε σ κ α} {m' : Program ε τ κ α} (h : Tracks R m m') (g : ε → ε') :
    Tracks R (fun fuel => mapEvents g (m fuel)) (mapEvents g m') := by
  intro s t hR
  obtain ⟨s', hR', enough, henough⟩ := h s t hR
  refine ⟨s', hR', enough, fun fuel hfuel => ?_⟩
  change Program.mapEvents g (m fuel) s = _
  rw [Program.mapEvents, henough fuel hfuel]
  rfl

end Program

end Interaction
