import Mcprog.Target.Memory

/-!
# Lists of words on the FT2232 adapter

`mpsse_write_nwords` stores the words through the debug registers. On the memory bus this
is what the packet of the USB adapter does, so one kind of call stands for both.
-/

namespace Mcprog

open Interaction

variable {σ : Type}

/-- The stores of `mpsse_write_nwords`, as the addresses are given. -/
def mpsseWords (A : Adapter σ) : List (Word × Word) → Action σ Unit
  | [] => pure ()
  | (addr, data) :: args => do
    oncdWrite A addr oncdOmar 32
    oncdWrite A data oncdOmdr 32
    oncdWrite A 0 oncdMem 0
    mpsseWords A args

/-- Store a list of words, each given with its address. -/
def mpsseWriteNwords (A : Adapter σ) (args : List (Word × Word)) : Action σ Unit := do
  allowMemory A fun oscr => (oscr &&& ~~~oscrRo) ||| oscrSlctMem
  mpsseWords A args

variable {A : Adapter σ}

theorem mpsseWords_stores (args : List (Word × Word)) : Stores (mpsseWords A args) args := by
  induction args with
  | nil => exact stores_pure
  | cons a args ih =>
    intro s u tr s' h
    obtain ⟨_, tr₁, s₁, _, h₁, hr₁, rfl⟩ := Program.returns_bind_iff.mp h
    obtain ⟨_, tr₂, s₂, _, h₂, hr₂, rfl⟩ := Program.returns_bind_iff.mp hr₁
    obtain ⟨_, tr₃, s₃, tr₄, h₃, h₄, rfl⟩ := Program.returns_bind_iff.mp hr₂
    obtain ⟨obs, hobs, rfl⟩ := ih _ _ _ _ h₄
    rw [oncdWrite_trace h₁, oncdWrite_trace h₂, oncdWrite_trace h₃]
    have hstore : bus.Shows [.oncdWrite a.1 oncdOmar 32, .oncdWrite a.2 oncdOmdr 32,
        .oncdWrite 0 oncdMem 0] [.write a.1 a.2] := shows_store quiet_nil
    exact ⟨_, hstore.append hobs, rfl⟩

/-- The words are stored in their order. -/
theorem mpsseWriteNwords_stores (args : List (Word × Word)) :
    Stores (mpsseWriteNwords A args) args :=
  (silent_allowMemory _).bind_stores fun _ => mpsseWords_stores args

end Mcprog
