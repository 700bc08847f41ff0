import Mcprog.Adapter.BitbangAdapter
import Mcprog.Adapter.StandsFor

/-!
# The serial adapters

Over its bulk transfers each of the serial adapters stands for the registers of the processor: the
MPSSE one for the registers with block methods, the bitbang one for the registers alone.
-/

namespace Mcprog

variable {σ τ χ : Type} {pipe : BulkPipe σ} {P : DebugPort τ}

theorem mpsseAdapter_standsFor {view : σ → Chip τ × List Byte} (h : pipe.Drives P view) :
    StandsFor (Waiting P view) (mpsseAdapter pipe) (ft2232 P.adapter) where
  calls call _ _ hs := mpsseAdapter_corresponds h call hs
  memoryCalls call _ _ _ hs := mpsseAdapter_corresponds h call hs
  blockWords _ := rfl
  programBlockWords _ := rfl
  readBlock _ := rfl
  writeBlock _ := rfl
  writeNwords _ := rfl
  programBlock32 _ := rfl
  programBlock32Unprotect _ := rfl
  programBlock32Protect _ := rfl
  programBlock64 _ := rfl
  programBlock32Micron _ := rfl
  stepCpu _ := rfl
  runCpu _ := rfl

theorem bitbangAdapter_standsFor {respond : χ → Byte → χ × Byte} {pins : χ → PortPins τ} {view : σ → χ × List Byte}
    (h : pipe.Samples P respond pins view) :
    StandsFor (Clocked P pins view []) (bitbangAdapter pipe) P.adapter where
  calls call _ _ hs := bitbangAdapter_corresponds h call hs
  memoryCalls call _ _ _ hs := bitbangAdapter_corresponds h call hs
  blockWords _ := rfl
  programBlockWords _ := rfl
  readBlock _ := rfl
  writeBlock _ := rfl
  writeNwords _ := rfl
  programBlock32 _ := rfl
  programBlock32Unprotect _ := rfl
  programBlock32Protect _ := rfl
  programBlock64 _ := rfl
  programBlock32Micron _ := rfl
  stepCpu _ := rfl
  runCpu _ := rfl

end Mcprog
