import Mcprog.Adapter.Serial
import Mcprog.Remote.ErrorReplies
import Mcprog.Remote.Follows

/-!
# The proxy over the serial adapters

A debugger that talks to the proxy does not see which bytes go over the bulk endpoints. What it is
answered, what the console shows and how the proxy ends are what they are where the processor has
its registers at hand.
-/

namespace Mcprog

open Interaction

variable {σ τ χ : Type} {pipe : BulkPipe σ} {P : DebugPort τ}

section Mpsse

variable {view : σ → Chip τ × List Byte} {s : Session (Attached MpssePort σ)} {m : Session τ}

/-- The main loop over the MPSSE adapter, for whatever comes from the debuggers. -/
theorem mpsseProxy_turns (h : pipe.Drives P view) (p : Proxy) (inputs : List Input)
    (hs : Session.Pairs (Waiting P view) s m) :
    ∃ s', Session.Pairs (Waiting P view) s' (proxyTurns (ft2232 P.adapter) p inputs m).state ∧
      ∃ enough, ∀ fuel ≥ enough, proxyTurns (mpsseAdapter pipe fuel) p inputs s =
        ⟨(proxyTurns (ft2232 P.adapter) p inputs m).trace, s', (proxyTurns (ft2232 P.adapter) p inputs m).result⟩ :=
  (mpsseAdapter_standsFor h).proxyTurns p inputs s m hs

end Mpsse

section Bitbang

variable {respond : χ → Byte → χ × Byte} {pins : χ → PortPins τ} {view : σ → χ × List Byte}
  {s : Session (Attached Bitbang σ)} {m : Session τ}

/-- The main loop over the bitbang adapter. -/
theorem bitbangProxy_turns (h : pipe.Samples P respond pins view) (p : Proxy) (inputs : List Input)
    (hs : Session.Pairs (Clocked P pins view []) s m) :
    ∃ s', Session.Pairs (Clocked P pins view []) s' (proxyTurns P.adapter p inputs m).state ∧
      ∃ enough, ∀ fuel ≥ enough, proxyTurns (bitbangAdapter pipe fuel) p inputs s =
        ⟨(proxyTurns P.adapter p inputs m).trace, s', (proxyTurns P.adapter p inputs m).result⟩ :=
  (bitbangAdapter_standsFor h).proxyTurns p inputs s m hs

end Bitbang

/-- A debugger asks why the processor has stopped. -/
def askReason : List Input := [.packet ⟨asciiText "?", []⟩ ⟨⟨⟨fun _ => 0, []⟩, ⟨fun _ => 0, []⟩, 0⟩, 0, false⟩]

set_option maxRecDepth 8000 in
theorem mpsseProxy_turns_reason : ∃ enough, ∀ fuel ≥ enough,
    (proxyTurns (mpsseAdapter (portPipe (ramPort 0x20777001)) fuel) (Proxy.started Target.allocated) askReason
      ⟨0, freshDevice ⟨3, false, 0, 0, 0, fun _ => 0⟩⟩).trace.filterMap ProxyEvent.answer =
        [asciiText "T0525:00000000;1e:b83b1000;"] := by
  obtain ⟨s', -, enough, henough⟩ := mpsseProxy_turns (drives_portPipe (ramPort 0x20777001))
    (Proxy.started Target.allocated) askReason
    (s := ⟨0, freshDevice ⟨3, false, 0, 0, 0, fun _ => 0⟩⟩) (m := ⟨0, ⟨3, false, 0, 0, 0, fun _ => 0⟩⟩)
    ⟨rfl, waiting_freshDevice _ _⟩
  refine ⟨enough, fun fuel hfuel => ?_⟩
  rw [henough fuel hfuel]
  dsimp only
  decide +kernel

set_option maxRecDepth 8000 in
theorem bitbangProxy_turns_reason : ∃ enough, ∀ fuel ≥ enough,
    (proxyTurns (bitbangAdapter (pinPipe (ramPort 0x20777001)) fuel) (Proxy.started Target.allocated) askReason
      ⟨0, freshPins ⟨3, false, 0, 0, 0, fun _ => 0⟩⟩).trace.filterMap ProxyEvent.answer =
        [asciiText "T0525:00000000;1e:b83b1000;"] := by
  obtain ⟨s', -, enough, henough⟩ := bitbangProxy_turns (samples_pinPipe (ramPort 0x20777001))
    (Proxy.started Target.allocated) askReason
    (s := ⟨0, freshPins ⟨3, false, 0, 0, 0, fun _ => 0⟩⟩) (m := ⟨0, ⟨3, false, 0, 0, 0, fun _ => 0⟩⟩)
    ⟨rfl, clocked_freshPins _ _⟩
  refine ⟨enough, fun fuel hfuel => ?_⟩
  rw [henough fuel hfuel]
  dsimp only
  decide +kernel

end Mcprog
