import Mcprog.Adapter.BitbangScan
import Mcprog.Adapter.MpsseScan

/-!
# Register writes of the serial adapters

The two adapters put the same scan on the port: from a state in which the controller rests, the
low bits of the register number and the value are shifted, and the controller ends in
Update-DR.
-/

namespace Mcprog

open Interaction Jtag

/-- The bits of a register write: the register number, and the value behind it. -/
def oncdWriteBits (value reg : Word) (reglen : RegLen) : List Bool :=
  lowBits (reg.signExtend 64 ||| (value.setWidth 64 <<< 9)) (9 + reglen.val)

/-- The clocks shift the bits, no more and no fewer, and lead to Update-DR. -/
def ShiftsToUpdate (s : TapState) (bits : List Bool) (clocks : List Clock) : Prop :=
  s.shifted clocks = bits ∧ s.after clocks = .updateDr

theorem shiftsToUpdate_of_scans {s : TapState} {bits : List Bool} {clocks : List Clock}
    (h : Scans bits clocks) (hs : s.Rests) : ShiftsToUpdate s bits clocks := ⟨h.shifted hs, h.after hs⟩

variable {σ τ : Type}

/-- Both adapters shift the same 9 + `reglen` bits and end in Update-DR, on the one in every
state it can be in, and without an overflow of its buffer. Devices that keep up let both of them
return. -/
theorem oncdWrite_shifts (pipe : BulkPipe σ) (pipe' : BulkPipe τ) (fuel : Nat) (value reg : Word)
    (reglen : RegLen) {s : TapState} (hs : s.Rests) :
    (oncdWriteBits value reg reglen).length = 9 + reglen.val ∧
    (∀ a, Bitbang.Reachable pipe a →
      Program.Meets (bitbangOncdWrite pipe fuel value reg reglen) a (· ≠ bufferOverflow) (fun _ _ => True) ∧
      (∀ tr a', (bitbangOncdWrite pipe fuel value reg reglen).Returns a () tr a' → ∀ level,
        ShiftsToUpdate s (oncdWriteBits value reg reglen) (risingEdges level (taken tr))) ∧
      (pipe.Prompt → bitbangSize + 1 < fuel →
        ∃ a', (bitbangOncdWrite pipe fuel value reg reglen).Reaches a () a')) ∧
    (∀ a,
      (∀ tr a', (mpsseOncdWrite pipe' fuel value reg reglen).Returns a () tr a' →
        ∃ commands clocks, given tr ++ a'.own.output = a.own.output ++ commands ∧
          (∀ l, mpsseClocks l commands = some clocks) ∧
          ShiftsToUpdate s (oncdWriteBits value reg reglen) clocks) ∧
      (pipe'.Prompt → 0 < fuel → a.own.Fits →
        ∃ a', (mpsseOncdWrite pipe' fuel value reg reglen).Reaches a () a')) := by
  have hbits : lowBits (oncdWriteData value reg reglen) (9 + reglen.val) = oncdWriteBits value reg reglen :=
    lowBits_oncdWriteData value reg reglen
  have hlen : 9 + reglen.val ≤ 64 := by
    have := reglen.property
    omega
  have hpos : 0 < 9 + reglen.val := Nat.add_pos_left (by decide) _
  refine ⟨length_lowBits _ _, fun a ha => ⟨?_, fun tr a' h level => ?_, fun hp hfuel => ?_⟩,
    fun a => ⟨fun tr a' h => ?_, fun hp hfuel hfits => ?_⟩⟩
  · have hempties : Empties (BitbangCall.run pipe fuel (.oncdWrite value reg reglen)) a :=
      empties_run _ ha.outputLen
    exact Program.Meets.mono hempties (fun _ he => he) fun _ _ _ => trivial
  · obtain ⟨clocks, hscan, hedges⟩ := bitbangOncdWrite_scans ha.outputLen h
    rw [hedges level, ← hbits]
    exact shiftsToUpdate_of_scans hscan hs
  · exact hp.bitbangOncdWrite ha.outputLen hfuel
  · obtain ⟨clocks, hscan, hclocks⟩ := scans_packetCommands hpos hlen (oncdWriteData value reg reglen)
    refine ⟨_, clocks, emits_mpsseSend hpos _ _ _ _ _ h, fun l => hclocks l _ (le_refl _), ?_⟩
    rw [← hbits]
    exact shiftsToUpdate_of_scans hscan hs
  · exact hp.mpsseSend a hfuel hfits hpos hlen _

/-- A write of `OMDR` on a device that delivers zeros. -/
theorem oncdWrite_shifts_omdr : ∃ a tr a', Bitbang.Reachable zeroPipe a ∧
    (bitbangOncdWrite zeroPipe 200 0x12345678 0x0C 32).Returns a () tr a' ∧
    ShiftsToUpdate .runTestIdle (oncdWriteBits 0x12345678 0x0C ⟨32, by decide⟩)
      (risingEdges false (taken tr)) ∧
    ∃ b tr' b', (mpsseOncdWrite zeroPipe 200 0x12345678 0x0C 32).Returns b () tr' b' ∧
    ∃ commands clocks, given tr' ++ b'.own.output = b.own.output ++ commands ∧
      mpsseClocks ⟨false, false⟩ commands = some clocks ∧
      ShiftsToUpdate .runTestIdle (oncdWriteBits 0x12345678 0x0C ⟨32, by decide⟩) clocks := by
  obtain ⟨a, ha⟩ := prompt_zeroPipe.exists_reachable ()
  obtain ⟨-, hbitbang, hmpsse⟩ := oncdWrite_shifts zeroPipe zeroPipe 200 0x12345678 0x0C ⟨32, by decide⟩
    (s := .runTestIdle) (.inl rfl)
  obtain ⟨-, hshifts, hreturns⟩ := hbitbang a ha
  obtain ⟨a', tr, h⟩ := hreturns prompt_zeroPipe (by decide)
  obtain ⟨b, hb⟩ : ∃ b : Attached MpssePort Unit, b = ⟨⟨[], fun _ => 0, 0, 0, 0, 0, 0, 0⟩, ()⟩ := ⟨_, rfl⟩
  obtain ⟨hcommands, hreturns'⟩ := hmpsse b
  obtain ⟨b', tr', h'⟩ := hreturns' prompt_zeroPipe (by decide) (by rw [hb]; exact ⟨by decide, by decide⟩)
  obtain ⟨commands, clocks, hstream, hclocks, hshift⟩ := hcommands tr' b' h'
  exact ⟨a, tr, a', ha, h, hshifts tr a' h false, b, tr', b', h', commands, clocks, hstream,
    hclocks _, hshift⟩

end Mcprog
