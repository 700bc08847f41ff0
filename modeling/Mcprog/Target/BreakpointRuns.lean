import Mcprog.Target.Comparators

/-!
# The trigger condition over runs of breakpoint calls

A run adds and removes breakpoints in any order. One enabled comparator stops the
CPU by itself only where the bit `ANY` is set, and the calls keep it set exactly as
long as no breakpoint is added to a comparator 0 that is in use.
-/

namespace Mcprog

open Interaction

/-- One call of the breakpoint functions. -/
inductive BreakCall
  | add (addr : Word) (kind : BreakKind)
  | remove (addr : Word)
  deriving DecidableEq, Repr

variable {σ : Type}

/-- Make the call. -/
def BreakCall.run (A : Adapter σ) : BreakCall → Action σ Unit
  | .add addr kind => targetAddBreak A addr kind.letter
  | .remove addr => targetRemoveBreak A addr

/-- The registers after a call. -/
def callStep (s : Session Registers) (call : BreakCall) : Session Registers :=
  (call.run registerFile s).state

/-- Where a comparator is enabled, a match of one comparator is enough to stop. -/
def AnyWhenEnabled (s : Session Registers) : Prop :=
  s.device oncdObcr &&& (obcrRw0Mask ||| obcrRw1Mask) ≠ 0 → s.device oncdObcr &&& obcrAny ≠ 0

/-- A breakpoint is added only while comparator 0 is free. -/
def AddsToFree (s : Session Registers) : BreakCall → Prop
  | .add _ _ => s.device oncdObcr &&& obcrRw0Mask = 0
  | .remove _ => True

namespace Comparators

variable {s : Session Registers} {c : Comparators}

/-- What a call makes of a table. -/
def apply (c : Comparators) : BreakCall → Comparators
  | .add addr kind => c.add ⟨addr, kind⟩
  | .remove addr => c.remove addr

/-- A call on the registers is the call on the table that they encode. -/
theorem Encoded.callStep (h : Encoded s.device c) (call : BreakCall) :
    Encoded (callStep s call).device (c.apply call) := by
  cases call with
  | add addr kind =>
    obtain ⟨s', hs', he⟩ := h.targetAddBreak addr kind
    rw [Mcprog.callStep, BreakCall.run, hs'.state]
    exact he
  | remove addr =>
    obtain ⟨s', hs', he⟩ := h.targetRemoveBreak addr
    rw [Mcprog.callStep, BreakCall.run, hs'.state]
    exact he

theorem Encoded.anyWhenEnabled (h : Encoded s.device c) :
    AnyWhenEnabled s ↔ (c.slot0.isSome ∨ c.slot1.isSome → c.any) := by
  rw [AnyWhenEnabled, h.obcr, rw_obcr, any_obcr]

theorem Encoded.addsToFree (h : Encoded s.device c) {addr : Word} {kind : BreakKind} :
    AddsToFree s (.add addr kind) ↔ c.slot0 = none := by
  have hrw := not_congr (rw0_obcr (c := c))
  rw [not_not, Option.not_isSome_iff_eq_none] at hrw
  rw [← hrw, AddsToFree, h.obcr]
  rfl

end Comparators

/-- Comparator 1 is not in use. -/
def SecondFree (s : Session Registers) : Prop :=
  ∃ c, Comparators.Encoded s.device c ∧ c.slot1 = none

open Comparators in
/-- From a state with comparator 1 free, the trigger condition survives a call exactly
where the call does not add to a comparator 0 in use. -/
theorem anyWhenEnabled_callStep {s : Session Registers} {call : BreakCall} (hs : SecondFree s)
    (hany : AnyWhenEnabled s) : AnyWhenEnabled (callStep s call) ↔ AddsToFree s call := by
  obtain ⟨c, he, h₁⟩ := hs
  have hany' := he.anyWhenEnabled.mp hany
  rw [(he.callStep call).anyWhenEnabled]
  cases call with
  | add addr kind =>
    rw [he.addsToFree]
    cases h₀ : c.slot0 with
    | none => simp [apply, add, h₀]
    | some old => simp [apply, add, h₀]
  | remove addr =>
    have hm₁ : ¬ Matches c.slot1 addr := by simp [Matches, h₁]
    by_cases hm₀ : Matches c.slot0 addr
    · simp [apply, remove, hm₀, h₁, AddsToFree]
    · simp only [apply, remove, hm₀, hm₁, if_false, AddsToFree, iff_true]
      exact hany'

open Comparators in
/-- A call that does not add to a comparator 0 in use leaves comparator 1 free. -/
theorem secondFree_callStep {s : Session Registers} {call : BreakCall} (hs : SecondFree s)
    (hfree : AddsToFree s call) : SecondFree (callStep s call) := by
  obtain ⟨c, he, h₁⟩ := hs
  refine ⟨c.apply call, he.callStep call, ?_⟩
  cases call with
  | add addr kind => simp [apply, add, he.addsToFree.mp hfree]
  | remove addr =>
    have hm₁ : ¬ Matches c.slot1 addr := by simp [Matches, h₁]
    by_cases hm₀ : Matches c.slot0 addr
    · simp [apply, remove, hm₀]
    · simp only [apply, remove, hm₀, hm₁, if_false]
      exact h₁

/-- From a cleared control register, one match is enough to stop in every state of a
run exactly where each addition of the run finds comparator 0 free. -/
theorem throughout_anyWhenEnabled {s : Session Registers} (h₀ : s.device oncdObcr = 0)
    (calls : List BreakCall) :
    Throughout callStep AnyWhenEnabled s calls ↔ AtEachStep callStep AddsToFree s calls := by
  have he := Comparators.encoded_empty h₀
  apply throughout_iff_atEachStep callStep (I := SecondFree)
  · intro s call hs hany
    exact anyWhenEnabled_callStep hs hany
  · intro s call hs _ hfree
    exact secondFree_callStep hs hfree
  · exact ⟨_, he, rfl⟩
  · rw [he.anyWhenEnabled]
    simp [Comparators.empty]

/-- A session whose registers are all clear. -/
def clearSession : Session Registers := ⟨0, fun _ => 0⟩

/-- The run that adds one breakpoint, removes it and adds another. -/
theorem throughout_anyWhenEnabled_one_at_a_time :
    clearSession.device oncdObcr = 0 ∧
      (Throughout callStep AnyWhenEnabled clearSession
        [.add 0x100 .code, .remove 0x100, .add 0x200 .write] ↔
      AtEachStep callStep AddsToFree clearSession
        [.add 0x100 .code, .remove 0x100, .add 0x200 .write]) :=
  ⟨rfl, throughout_anyWhenEnabled rfl _⟩

/-- Two breakpoints at once lose the bit, though both comparators are enabled. -/
theorem not_anyWhenEnabled_after_two_adds :
    clearSession.device oncdObcr = 0 ∧
      ¬ AnyWhenEnabled (runFrom callStep clearSession [.add 0x100 .code, .add 0x200 .code]) := by
  refine ⟨rfl, ?_⟩
  unfold AnyWhenEnabled
  decide

end Mcprog
