import Mcprog.Adapter.BitbangUnit

/-!
# The methods of the bitbang adapter

A method fills the buffer with the clocks of a scan and exchanges it. The bits of the register are
then in every second byte of the buffer, so each method does to the processor what the
register-level method does.
-/

namespace Mcprog

open Interaction Cells Jtag

variable {σ τ χ : Type} {pipe : BulkPipe σ} {P : DebugPort τ} {respond : χ → Byte → χ × Byte}
  {pins : χ → PortPins τ} {view : σ → χ × List Byte} {a a' : Attached Bitbang σ} {t : τ} {pre : List Clock}

/-- A mask selects a bit. -/
theorem and_mask_ne_zero {w : Nat} (x : BitVec w) {k : Nat} (hk : k < w) :
    decide (x &&& (1#w <<< k) ≠ 0) = x.getLsbD k := by
  have hne : BitVec.twoPow w k ≠ 0 := by
    intro hzero
    have hbit := congrArg (fun x => x.getLsbD k) hzero
    simp [hk] at hbit
  rw [← BitVec.twoPow_eq, BitVec.and_twoPow]
  cases x.getLsbD k with
  | false => simp
  | true => simpa using hne

/-- The bits of an instruction are sent one after the other, the low one first. -/
theorem adds_instrBits_lowBits (newinst : Word) {left k : Nat} (hk : k + left ≤ 32) :
    Adds (instrBits newinst left (1#32 <<< k) : UsbAction Bitbang σ Unit)
      (clockSamples (bitClocks (lowBits (newinst >>> k) left))) := by
  induction left generalizing k with
  | zero => exact fun a _ => rfl
  | succ left ih =>
    have hbits : lowBits (newinst >>> k) (left + 1) = newinst.getLsbD k :: lowBits (newinst >>> (k + 1)) left := by
      rw [Nat.add_comm left, lowBits_add, ← BitVec.shiftRight_add]
      change [(newinst >>> k).getLsbD 0] ++ _ = _
      rw [BitVec.getLsbD_ushiftRight]
      rfl
    have hmask : 1#32 <<< k <<< 1 = 1#32 <<< (k + 1) := (BitVec.shiftLeft_add _ _ _).symm
    rw [hbits, bitClocks, length_lowBits, instrBits, and_mask_ne_zero newinst (by omega), hmask]
    exact adds_clock_bind (f := fun _ => instrBits newinst left (1#32 <<< (k + 1))) (ih (by omega))

/-- The bits that are read replace those of the number. -/
theorem getLsbD_bitbangRead {w : Nat} (output : Nat → Byte) (offset nbits : Nat) (data : BitVec w) {i : Nat}
    (hi : i < w) : (bitbangRead output offset nbits data).getLsbD i =
      if i < nbits then decide (output (offset + i * 2 + 1) &&& readTdo ≠ 0) else data.getLsbD i := by
  induction nbits with
  | zero => rfl
  | succ n ih =>
    have hlast : bitbangRead output offset (n + 1) data =
        if output (offset + n * 2 + 1) &&& readTdo ≠ 0 then bitbangRead output offset n data ||| (1#w <<< n)
        else bitbangRead output offset n data &&& ~~~(1#w <<< n) := by
      rw [bitbangRead, List.range_succ, List.foldl_append]
      rfl
    have hbit : (1#w <<< n).getLsbD i = decide (i = n) := by
      rw [← BitVec.twoPow_eq, BitVec.getLsbD_twoPow]
      by_cases hin : i = n
      · rw [hin, decide_eq_true (hin ▸ hi), decide_eq_true rfl]
        rfl
      · rw [decide_eq_false hin, decide_eq_false (Ne.symm hin), Bool.and_false]
    rw [hlast]
    by_cases hin : i = n
    · rw [if_pos (show i < n + 1 by omega), hin]
      rw [hin] at hbit hi
      split
      · rename_i htdo
        rw [BitVec.getLsbD_or, hbit, decide_eq_true htdo, decide_eq_true rfl, Bool.or_true]
      · rename_i htdo
        rw [BitVec.getLsbD_and, BitVec.getLsbD_not, hbit, decide_eq_false htdo, decide_eq_true rfl]
        simp
    · have hsame : (if output (offset + n * 2 + 1) &&& readTdo ≠ 0 then bitbangRead output offset n data ||| (1#w <<< n)
          else bitbangRead output offset n data &&& ~~~(1#w <<< n)).getLsbD i =
          (bitbangRead output offset n data).getLsbD i := by
        split
        · rw [BitVec.getLsbD_or, hbit, decide_eq_false hin, Bool.or_false]
        · rw [BitVec.getLsbD_and, BitVec.getLsbD_not, hbit, decide_eq_false hin, decide_eq_true hi]
          simp
      rw [hsame, ih]
      by_cases hlt : i < n
      · rw [if_pos hlt, if_pos (show i < n + 1 by omega)]
      · rw [if_neg hlt, if_neg (show ¬ i < n + 1 by omega)]

/-- A number that has no other bits is what the read bits are. -/
theorem bitbangRead_eq_ofBits {w : Nat} {output : Nat → Byte} {offset nbits : Nat} {data : BitVec w} {bits : List Bool}
    (hlen : bits.length = nbits)
    (hbits : ∀ i < nbits, decide (output (offset + i * 2 + 1) &&& readTdo ≠ 0) = bits.getD i false)
    (hdata : ∀ i, nbits ≤ i → data.getLsbD i = false) :
    bitbangRead output offset nbits data = ofBits w bits := by
  apply BitVec.eq_of_getLsbD_eq
  intro i hi
  rw [getLsbD_bitbangRead _ _ _ _ hi, getLsbD_ofBits _ hi]
  by_cases hin : i < nbits
  · rw [if_pos hin, hbits i hin]
  · rw [if_neg hin, hdata i (Nat.le_of_not_lt hin), List.getD_eq_default _ _ (by omega)]

/-- The buffer holds the samples of these clocks. -/
structure Bitbang.Buffers (own : Bitbang) (clocks : List Clock) : Prop where
  outputLen : own.outputLen = 2 * clocks.length
  bytes : own.bytes 0 own.outputLen = clockSamples clocks

theorem Bitbang.Buffers.push {own : Bitbang} (h : own.Buffers pre) (clocks : List Clock) :
    ((clockSamples clocks).foldl Bitbang.push own).Buffers (pre ++ clocks) where
  outputLen := by
    rw [outputLen_foldl_push, h.outputLen, length_clockSamples, List.length_append, Nat.mul_add]
  bytes := by
    rw [outputLen_foldl_push, bytes_foldl_push, h.bytes, clockSamples_append]

/-- Once the clocks in the buffer are done, the controller rests and the processor is in the state `t`. -/
structure Clocked (P : DebugPort τ) (pins : χ → PortPins τ) (view : σ → χ × List Byte) (pre : List Clock)
    (a : Attached Bitbang σ) (t : τ) : Prop where
  buffers : a.own.Buffers pre
  pending : (view a.usb).2 = []
  rests : (P.after (pins (view a.usb).1).chain pre).tap.Rests
  held : (P.after (pins (view a.usb).1).chain pre).held = t

/-- The clocks of a scan on a side. -/
def sideClocks (side : Side) (bits : List Bool) : List Clock :=
  modeClocks true side.lead ++ bitClocks bits ++ [⟨true, true⟩]

theorem length_sideClocks (side : Side) (bits : List Bool) :
    (sideClocks side bits).length = side.lead.length + bits.length + 1 := by
  rw [sideClocks, List.length_append, List.length_append, length_modeClocks, length_bitClocks]
  rfl

/-- The exchange of a scan. Its bits are in every second byte behind those of the clocks that lead
to it. -/
theorem Clocked.scan (h : pipe.Samples P respond pins view) (hc : Clocked P pins view pre a t) (side : Side)
    {bits : List Bool} (hbits : bits ≠ [])
    (hroom : 2 * (pre ++ sideClocks side bits).length < bitbangSize) :
    ∃ a', Program.Eventual (bitbangSendRecv pipe)
        { a with own := (clockSamples (sideClocks side bits)).foldl Bitbang.push a.own } () a' ∧
      Clocked P pins view [] a' (P.scan side bits t).2 ∧
      ∀ i < bits.length, decide (a'.own.output (2 * (pre.length + side.lead.length) + i * 2 + 1) &&& readTdo ≠ 0) =
        (P.scan side bits t).1.getD i false := by
  have hbuf := hc.buffers.push (sideClocks side bits)
  obtain ⟨own₁, hown₁⟩ : ∃ own₁, own₁ = (clockSamples (sideClocks side bits)).foldl Bitbang.push a.own := ⟨_, rfl⟩
  obtain ⟨clocks, hclocks⟩ : ∃ clocks, clocks = pre ++ sideClocks side bits := ⟨_, rfl⟩
  rw [← hown₁, ← hclocks] at hbuf
  rw [← hclocks] at hroom
  rw [← hown₁]
  obtain ⟨a', hsend, hempty, hpending, hchip, hbytes⟩ := h.sendRecv (a := ⟨own₁, a.usb⟩)
    (by rw [hbuf.outputLen]; exact hroom) hc.pending
  have hsamples : samples own₁ = clockSamples clocks ++ [lastSample] := by rw [samples, hbuf.bytes]
  dsimp only at hchip hbytes
  rw [hsamples] at hchip hbytes
  have hafter : P.after (pins (view a.usb).1).chain clocks =
      ⟨side.state .updateDr, bits, (P.scan side bits t).2⟩ := by
    rw [hclocks, TapUnit.after_append]
    have hscan : P.after (P.after (pins (view a.usb).1).chain pre) (sideClocks side bits) = _ :=
      TapUnit.after_scan (U := P.toTapUnit) hc.rests hbits rfl
    rw [hc.held] at hscan
    exact hscan
  have hpins : pins (view a'.usb).1 = ⟨⟨side.state .updateDr, bits, (P.scan side bits t).2⟩, false⟩ := by
    rw [hchip, h.pins_echo, DebugPort.pins_clockSamples, hafter]
  refine ⟨a', hsend, ⟨⟨hempty, by rw [hempty]; rfl⟩, hpending, ?_, ?_⟩, fun i hi => ?_⟩
  · change (pins (view a'.usb).1).chain.tap.Rests
    rw [hpins]
    exact side.rests_update
  · change (pins (view a'.usb).1).chain.held = _
    rw [hpins]
  · have hlen : clocks.length = pre.length + (side.lead.length + bits.length + 1) := by
      rw [hclocks, List.length_append, length_sideClocks]
    obtain ⟨j, hj⟩ : ∃ j, j = pre.length + (side.lead.length + i) := ⟨_, rfl⟩
    have hcell : a'.own.output (2 * (pre.length + side.lead.length) + i * 2 + 1) =
        (echo respond (view a.usb).1 (clockSamples clocks ++ [lastSample])).2.getD (2 * j + 1) 0 := by
      rw [← hbytes, hbuf.outputLen, Bitbang.bytes, List.getD_eq_getElem?_getD, List.getElem?_map,
        List.getElem?_range (by omega)]
      change _ = a'.own.output (0 + (2 * j + 1))
      exact congrArg a'.own.output (by omega)
    have hlead : (P.captured (pins (view a.usb).1).chain pre).length = pre.length := TapUnit.length_captured _ _ _
    rw [hcell, h.tdo_echo _ _ (by omega), hclocks, TapUnit.captured_append,
      List.getD_append_right _ _ _ _ (by rw [hlead]; omega), hlead, hj, Nat.add_sub_cancel_left, sideClocks,
      TapUnit.getD_captured_scan hc.rests hi, hc.held, DebugPort.scan, DataRegister.getD_outputs _ _ hi]

/-- What follows the clocks of `tap_instr`. -/
theorem tapInstr_apply (fuel : Nat) (newinst : Word) (hroom : a.own.outputLen + 18 ≤ bitbangSize) :
    tapInstr pipe fuel 4 newinst a = (do
      bitbangSendRecv pipe fuel
      return bitbangRead (← getOwn).output (a.own.outputLen + 8) 4 (0 : Word) : UsbAction Bitbang σ Word)
      { a with own := (clockSamples (sideClocks .instruction (lowBits newinst 4))).foldl Bitbang.push a.own } := by
  have hbits := adds_instrBits_lowBits (σ := σ) newinst (by decide : 0 + 4 ≤ 32)
  rw [show newinst >>> 0 = newinst from BitVec.ushiftRight_zero newinst,
    show (1#32 <<< 0 : Word) = 1 from rfl] at hbits
  rw [tapInstr, (adds_bitbangStep true).bind_apply, (adds_bitbangStep true).bind_apply,
    (adds_bitbangStep false).bind_apply, (adds_bitbangStep false).bind_apply, getOwn_bind, hbits.bind_apply,
    (adds_bitbangStep true).bind_apply]
  · have hoffset : ((clockSamples [⟨false, true⟩]).foldl Bitbang.push ((clockSamples [⟨false, true⟩]).foldl Bitbang.push
        ((clockSamples [⟨true, true⟩]).foldl Bitbang.push
          ((clockSamples [⟨true, true⟩]).foldl Bitbang.push a.own)))).outputLen = a.own.outputLen + 8 := by
      simp
    dsimp only
    rw [hoffset]
    rfl
  all_goals
    simp
    omega

/-- An instruction is entered, and what was in the register is read. -/
theorem Clocked.tapInstr (h : pipe.Samples P respond pins view) (newinst : Word) (hpre : pre.length ≤ 6)
    (hc : Clocked P pins view pre a t) :
    ∃ a', Program.Eventual (fun fuel => tapInstr pipe fuel 4 newinst) a (P.instr newinst t).1 a' ∧
      Clocked P pins view [] a' (P.instr newinst t).2 := by
  have hsize : bitbangSize = 128 := rfl
  have hlen := hc.buffers.outputLen
  have hbits : (lowBits newinst 4).length = 4 := length_lowBits _ _
  obtain ⟨a', hsend, hc', htdo⟩ := hc.scan h .instruction
    (List.ne_nil_of_length_pos (by omega) : lowBits newinst 4 ≠ [])
    (by rw [List.length_append, length_sideClocks, hbits, show Side.instruction.lead.length = 4 from rfl]; omega)
  have hword : bitbangRead a'.own.output (a.own.outputLen + 8) 4 (0 : Word) = (P.instr newinst t).1 := by
    change _ = ofBits 32 (P.scan .instruction (lowBits newinst 4) t).1
    refine bitbangRead_eq_ofBits (by rw [DebugPort.scan, DataRegister.length_outputs, hbits]) (fun i hi => ?_)
      fun i _ => BitVec.getLsbD_zero
    rw [← htdo i (by omega), show Side.instruction.lead.length = 4 from rfl, hlen]
    exact congrArg (fun x => decide (a'.own.output x &&& readTdo ≠ 0)) (by omega)
  refine ⟨a', Program.Eventual.of_apply (fun fuel => tapInstr_apply fuel newinst (by omega))
    (hsend.bind (Program.Reaches.eventual (getOwn_returns.reaches.bind ?_))), hc'⟩
  rw [hword]
  exact Program.reaches_pure _ _

/-- A data register is scanned. The bits that come out replace those of a number. -/
theorem Clocked.tapData (h : pipe.Samples P respond pins view) {nbits : Nat} {newdata : Option (List Byte)}
    {bits : List Bool} (olddata : Option (BitVec 64))
    (hbits : Adds (dataBits nbits 0 0 newdata : UsbAction Bitbang σ Unit) (clockSamples (bitClocks bits)))
    (hlen : bits.length = nbits) (hpos : 0 < nbits) (hn : nbits ≤ 41)
    (hc : Clocked P pins view [] a t) :
    ∃ output a', Program.Eventual (fun fuel => Mcprog.tapData pipe fuel nbits newdata olddata) a
        (olddata.map fun data => bitbangRead output 6 nbits data) a' ∧
      Clocked P pins view [] a' (P.scan .data bits t).2 ∧
      ∀ i < nbits, decide (output (6 + i * 2 + 1) &&& readTdo ≠ 0) = (P.scan .data bits t).1.getD i false := by
  have hsize : bitbangSize = 128 := rfl
  have hempty : a.own.outputLen = 0 := hc.buffers.outputLen
  have hlead : Side.data.lead.length = 3 := rfl
  obtain ⟨a', hsend, hc', htdo⟩ := hc.scan h .data (List.ne_nil_of_length_pos (by omega) : bits ≠ [])
    (by rw [List.length_append, length_sideClocks, hlead, List.length_nil]; omega)
  refine ⟨a'.own.output, a', Program.Eventual.of_apply (fun fuel => tapData_apply hbits ?_)
    (hsend.bind (Program.Reaches.eventual (getOwn_returns.reaches.bind ?_))), hc', fun i hi => ?_⟩
  · rw [length_bitClocks]
    omega
  · rw [hempty]
    exact Program.reaches_pure _ _
  · rw [← htdo i (by omega), hlead]
    rfl

end Mcprog
