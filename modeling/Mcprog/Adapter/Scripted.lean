import Mcprog.Adapter.Interface

/-!
# Adapters that answer from a script

The memory is always ready, and every load takes the next word of a script, or a fixed
word once the script has run out. One adapter has the mandatory methods only, the others
have the extended methods of the USB adapter and of the FT2232 adapter as well.
-/

namespace Mcprog

/-- The adapter in front of a target with the given id code. -/
def scripted (idcode default : Word) : Adapter (List Word) where
  close d := .ok ((), d)
  getIdcode d := .ok (idcode, d)
  cpuStopped d := .ok (true, d)
  stopCpu d := .ok ((), d)
  resetCpu d := .ok ((), d)
  oncdWrite _ _ _ d := .ok ((), d)
  oncdRead reg _ d :=
    if reg = oncdOmdr then .ok (d.headD default, d.tail)
    else if reg = oncdOscr then .ok (oscrRdym, d)
    else .ok (0, d)
  blockWords := 0
  programBlockWords := 0
  stepCpu := none
  runCpu := none
  readBlock := none
  writeBlock := none
  writeNwords := none
  programBlock32 := none
  programBlock32Unprotect := none
  programBlock32Protect := none
  programBlock64 := none
  programBlock32Micron := none
  blockWords_pos h := by simp at h
  programBlockWords_pos h := by simp at h
  unprotect_of_protect h := by simp at h

/-- An extended method without a reply that succeeds. -/
def accept : Extension (List Word) Unit := fun s => .ok ((), s)

/-- The same adapter with the extended methods of the USB adapter. -/
def scriptedUsb (idcode default : Word) : Adapter (List Word) :=
  { scripted idcode default with
    blockWords := 64
    programBlockWords := 16
    stepCpu := some accept
    runCpu := some accept
    readBlock := some fun nwords _ s =>
      .ok (fun i => s.device.getD i default, { s with device := s.device.drop nwords.toNat })
    writeBlock := some fun _ _ => accept
    writeNwords := some fun _ => accept
    programBlock32 := some fun _ => accept
    programBlock32Unprotect := some fun _ => accept
    programBlock32Protect := some fun _ => accept
    programBlock64 := some fun _ => accept
    programBlock32Micron := some fun _ _ => accept
    blockWords_pos := fun _ => by decide
    programBlockWords_pos := fun _ => by decide
    unprotect_of_protect := fun _ => rfl }

/-- The same adapter with the extended methods of the FT2232 adapter. -/
def scriptedMpsse (idcode default : Word) : Adapter (List Word) :=
  { scripted idcode default with
    blockWords := 999999
    programBlockWords := 999999
    readBlock := (scriptedUsb idcode default).readBlock
    writeBlock := some fun _ _ => accept
    writeNwords := some fun _ => accept
    programBlock32 := some fun _ => accept
    blockWords_pos := fun _ => by decide
    programBlockWords_pos := fun _ => by decide
    unprotect_of_protect := fun h => nomatch h }

end Mcprog
