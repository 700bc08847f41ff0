import Mcprog.Adapter.Serial
import Mcprog.Loader.Bounds
import Mcprog.Programmer.Follows

/-!
# The programmer over the serial adapters

A command line does to the processor behind a serial adapter what it does to one whose registers are
at hand, and prints the same, for every file and every board.
-/

namespace Mcprog

open Interaction

variable {σ τ χ : Type} {pipe : BulkPipe σ} {P : DebugPort τ}

section Mpsse

variable {view : σ → Chip τ × List Byte} {s : Session (Attached MpssePort σ)} {m : Session τ}

/-- The program over the MPSSE adapter. -/
theorem mpsseMcprog_run (h : pipe.Drives P view) (inv : Invocation) (l : LoadState) (turns : Nat)
    (hs : Session.Pairs (Waiting P view) s m) :
    ∃ s', Session.Pairs (Waiting P view) s' (mcprog (ft2232 P.adapter) inv l turns m).state ∧
      ∃ enough, ∀ fuel ≥ enough, mcprog (mpsseAdapter pipe fuel) inv l turns s =
        ⟨(mcprog (ft2232 P.adapter) inv l turns m).trace, s', (mcprog (ft2232 P.adapter) inv l turns m).result⟩ :=
  (mpsseAdapter_standsFor h).mcprog inv l turns s m hs

end Mpsse

section Bitbang

variable {respond : χ → Byte → χ × Byte} {pins : χ → PortPins τ} {view : σ → χ × List Byte}
  {s : Session (Attached Bitbang σ)} {m : Session τ}

/-- The program over the bitbang adapter. -/
theorem bitbangMcprog_run (h : pipe.Samples P respond pins view) (inv : Invocation) (l : LoadState) (turns : Nat)
    (hs : Session.Pairs (Clocked P pins view []) s m) :
    ∃ s', Session.Pairs (Clocked P pins view []) s' (mcprog P.adapter inv l turns m).state ∧
      ∃ enough, ∀ fuel ≥ enough, mcprog (bitbangAdapter pipe fuel) inv l turns s =
        ⟨(mcprog P.adapter inv l turns m).trace, s', (mcprog P.adapter inv l turns m).result⟩ :=
  (bitbangAdapter_standsFor h).mcprog inv l turns s m hs

end Bitbang

/-- `mcprog -w file a0000000`, for a file of eight bytes. -/
def writeEight : Invocation where
  eraseMode := -1
  verifyOnly := false
  memoryWriteMode := true
  startAddr := 0xBFC00000
  file := [1, 2, 3, 4, 5, 6, 7, 8]
  fileNumber := 0
  address := some 0xA0000000
  settings := []
  codes := ⟨0, 0⟩

/-- The processor before. -/
def ramReset : RamRegs := ⟨3, false, 0, 0, 0, fun _ => 0⟩

set_option maxRecDepth 8000 in
theorem mpsseMcprog_run_eight : ∃ s' t' enough,
    Waiting (ramPort 0x20777001) (fun s => (s.chip, s.pending)) s'.device t' ∧
    t'.mem 0 = 0x04030201 ∧ t'.mem 4 = 0x08070605 ∧ ∀ fuel ≥ enough,
      (mcprog (mpsseAdapter (portPipe (ramPort 0x20777001)) fuel) writeEight nothingLoaded 4
        ⟨0, freshDevice ramReset⟩).state = s' := by
  obtain ⟨s', ⟨-, hw⟩, enough, henough⟩ :=
    mpsseMcprog_run (drives_portPipe (ramPort 0x20777001)) writeEight nothingLoaded 4
    (s := ⟨0, freshDevice ramReset⟩) (m := ⟨0, ramReset⟩) ⟨rfl, waiting_freshDevice _ _⟩
  refine ⟨s', _, enough, hw, ?_, ?_, fun fuel hfuel => by rw [henough fuel hfuel]⟩
  · decide +kernel
  · decide +kernel

set_option maxRecDepth 8000 in
theorem bitbangMcprog_run_eight : ∃ s' t' enough,
    Clocked (ramPort 0x20777001) id (fun s => (s.pins, s.pending)) [] s'.device t' ∧
    t'.mem 0 = 0x04030201 ∧ t'.mem 4 = 0x08070605 ∧ ∀ fuel ≥ enough,
      (mcprog (bitbangAdapter (pinPipe (ramPort 0x20777001)) fuel) writeEight nothingLoaded 4
        ⟨0, freshPins ramReset⟩).state = s' := by
  obtain ⟨s', ⟨-, hc⟩, enough, henough⟩ :=
    bitbangMcprog_run (samples_pinPipe (ramPort 0x20777001)) writeEight nothingLoaded 4
    (s := ⟨0, freshPins ramReset⟩) (m := ⟨0, ramReset⟩) ⟨rfl, clocked_freshPins _ _⟩
  refine ⟨s', _, enough, hc, ?_, ?_, fun fuel hfuel => by rw [henough fuel hfuel]⟩
  · decide +kernel
  · decide +kernel

end Mcprog
