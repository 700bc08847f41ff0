import Mcprog.Adapter.Interface

/-!
# Debug registers that keep what is written

The device behind an adapter as far as the breakpoint registers go: a write keeps
the bits that were shifted in, a read gives back what the register holds.
-/

namespace Mcprog

open Interaction

/-- The registers of the debug block, by number. -/
abbrev Registers : Type := Nat → Word

/-- The low `nbits` bits of a value. -/
def shifted (val : Word) (nbits : Nat) : Word := (val.setWidth nbits).setWidth 32

/-- An adapter whose debug registers are plain storage. -/
def registerFile : Adapter Registers where
  close r := .ok ((), r)
  getIdcode r := .ok (0, r)
  cpuStopped r := .ok (true, r)
  stopCpu r := .ok ((), r)
  resetCpu r := .ok ((), r)
  oncdWrite val reg nbits r := .ok ((), Function.update r reg (shifted val nbits))
  oncdRead reg nbits r := .ok (shifted (r reg) nbits, r)
  blockWords := 0
  programBlockWords := 0
  stepCpu := none
  runCpu := none
  readBlock := none
  writeBlock := none
  writeNwords := none
  programBlock32 := none
  programBlock32Unprotect := none
  programBlock32Protect := none
  programBlock64 := none
  programBlock32Micron := none
  blockWords_pos h := by simp at h
  programBlockWords_pos h := by simp at h
  unprotect_of_protect h := by simp at h

/-- Shifting a whole word loses nothing. -/
@[simp] theorem shifted_thirtyTwo (val : Word) : shifted val 32 = val := by
  simp only [shifted, BitVec.setWidth_eq]

/-- A write answers, and changes its own register only. -/
theorem registerFile_write (val : Word) (reg nbits : Nat) (s : Session Registers) :
    (oncdWrite registerFile val reg nbits).Reaches s ()
      { s with device := Function.update s.device reg (shifted val nbits) } :=
  Program.Returns.reaches (Program.returns_request_iff.mpr ⟨rfl, rfl⟩)

/-- A read answers, and changes nothing. -/
theorem registerFile_read (reg nbits : Nat) (s : Session Registers) :
    (oncdRead registerFile reg nbits).Reaches s (shifted (s.device reg) nbits) s :=
  Program.Returns.reaches (Program.returns_request_iff.mpr ⟨rfl, rfl⟩)

end Mcprog
