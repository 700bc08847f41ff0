import Mathlib.Data.List.GetD
import Mcprog.Library.TapRegister

/-!
# A unit behind a test access port

A unit has an instruction register and the data register that the instruction selects. A scan of
the one takes the same way through the controller as a scan of the other, on its own side of the
diagram. Five clocks with TMS high lead to Test-Logic-Reset from wherever the controller is.
-/

namespace Jtag

/-- A unit behind the controller. Test-Logic-Reset comes to the same however long it lasts. -/
structure TapUnit (τ : Type) where
  instruction : DataRegister τ
  data : DataRegister τ
  reset : τ → τ
  reset_reset : ∀ t, reset (reset t) = reset t

/-- The bits that come out of a register while others go in. -/
def DataRegister.outputs {τ : Type} (R : DataRegister τ) (t : τ) (bits : List Bool) : List Bool :=
  (List.range bits.length).map fun i => R.out t (bits.take i)

/-- A bit comes out for each one that goes in. -/
@[simp] theorem DataRegister.length_outputs {τ : Type} (R : DataRegister τ) (t : τ) (bits : List Bool) :
    (R.outputs t bits).length = bits.length := by
  rw [outputs, List.length_map, List.length_range]

/-- The bits that come out are those of the register, and then the ones that went in. -/
theorem DataRegister.getD_outputs {τ : Type} (R : DataRegister τ) (t : τ) {bits : List Bool} {i : Nat}
    (hi : i < bits.length) : (R.outputs t bits).getD i false = R.out t (bits.take i) := by
  rw [outputs, List.getD_eq_getElem?_getD, List.getElem?_map, List.getElem?_range hi]
  rfl

/-- The lower half of a word made of bits. -/
theorem setWidth_ofBits (bits : List Bool) : (ofBits 64 bits).setWidth 32 = ofBits 32 bits := by
  apply BitVec.eq_of_getLsbD_eq
  intro i hi
  rw [BitVec.getLsbD_setWidth, decide_eq_true hi, Bool.true_and, getLsbD_ofBits _ (by omega),
    getLsbD_ofBits _ hi]

theorem lowBits_zero (w n : Nat) : lowBits (0 : BitVec w) n = List.replicate n false := by
  refine List.eq_replicate_iff.mpr ⟨length_lowBits _ n, fun b hb => ?_⟩
  obtain ⟨i, -, rfl⟩ := List.mem_map.mp hb
  exact BitVec.getLsbD_zero

/-- A word that is shifted is made of the bits behind. -/
theorem setWidth_ushiftRight_ofBits (bits : List Bool) {n : Nat} (hn : n ≤ 32) :
    (ofBits 64 bits >>> n).setWidth 32 = ofBits 32 (bits.drop n) := by
  apply BitVec.eq_of_getLsbD_eq
  intro i hi
  rw [BitVec.getLsbD_setWidth, decide_eq_true hi, Bool.true_and, BitVec.getLsbD_ushiftRight,
    getLsbD_ofBits _ (by omega), getLsbD_ofBits _ hi, List.getD_eq_getElem?_getD, List.getD_eq_getElem?_getD,
    List.getElem?_drop]

/-- The two sides of the diagram. -/
inductive Side
  | data
  | instruction
  deriving DecidableEq, Repr

namespace Side

/-- The levels of TMS that lead to the shift state of a side from where the controller rests. -/
def lead : Side → List Bool
  | data => [true, false, false]
  | instruction => [true, true, false, false]

/-- The states of a data scan on either side. -/
def state : Side → TapState → TapState
  | instruction, .captureDr => .captureIr
  | instruction, .shiftDr => .shiftIr
  | instruction, .exit1Dr => .exit1Ir
  | instruction, .pauseDr => .pauseIr
  | instruction, .exit2Dr => .exit2Ir
  | instruction, .updateDr => .updateIr
  | _, s => s

theorem rests_update (side : Side) : (side.state .updateDr).Rests := by
  cases side
  · exact .inr (.inl rfl)
  · exact .inr (.inr rfl)

/-- A chain in a data scan, on either side. -/
def chain {τ : Type} (side : Side) (d : Chain τ) : Chain τ := { d with tap := side.state d.tap }

end Side

/-- The side of a state. -/
def TapState.side : TapState → Side
  | captureIr | shiftIr | exit1Ir | pauseIr | exit2Ir | updateIr => .instruction
  | _ => .data

/-- Clocks with one level of TDI. -/
def modeClocks (tdi : Bool) (modes : List Bool) : List Clock := modes.map (⟨·, tdi⟩)

@[simp] theorem length_modeClocks (tdi : Bool) (modes : List Bool) :
    (modeClocks tdi modes).length = modes.length := List.length_map _

namespace TapUnit

variable {τ : Type} (U : TapUnit τ)

/-- The register that is scanned on a side. -/
def register : Side → DataRegister τ
  | .data => U.data
  | .instruction => U.instruction

/-- TDO at a rising edge of TCK. -/
def tdo (c : Chain τ) : Bool := (U.register c.tap.side).out c.held c.shifted

/-- The unit after a clock. -/
def clock (c : Chain τ) (k : Clock) : Chain τ :=
  let shifted :=
    match c.tap with
    | .captureDr | .captureIr => []
    | .shiftDr | .shiftIr => c.shifted ++ [k.tdi]
    | _ => c.shifted
  let tap := c.tap.next k.tms
  let held :=
    match tap with
    | .updateDr => U.data.update c.held shifted
    | .updateIr => U.instruction.update c.held shifted
    | .testLogicReset => U.reset c.held
    | _ => c.held
  ⟨tap, shifted, held⟩

/-- The unit after the clocks. -/
def after (c : Chain τ) (clocks : List Clock) : Chain τ := clocks.foldl U.clock c

/-- The bits at TDO during the clocks. -/
def captured : Chain τ → List Clock → List Bool
  | _, [] => []
  | c, k :: clocks => U.tdo c :: captured (U.clock c k) clocks

theorem after_append (c : Chain τ) (ks ks' : List Clock) :
    U.after c (ks ++ ks') = U.after (U.after c ks) ks' := List.foldl_append ..

theorem captured_append (c : Chain τ) (ks ks' : List Clock) :
    U.captured c (ks ++ ks') = U.captured c ks ++ U.captured (U.after c ks) ks' := by
  induction ks generalizing c with
  | nil => rfl
  | cons k ks ih =>
    rw [List.cons_append, captured, captured, ih]
    rfl

@[simp] theorem length_captured (c : Chain τ) (clocks : List Clock) :
    (U.captured c clocks).length = clocks.length := by
  induction clocks generalizing c with
  | nil => rfl
  | cons k clocks ih => rw [captured, List.length_cons, List.length_cons, ih]

variable {U} {side : Side} {c d : Chain τ} {clocks : List Clock} {bits : List Bool} {tdi : Bool}

/-- In the shift state of a side its register is clocked. -/
theorem clock_shift (h : d.tap = .shiftDr) (k : Clock) :
    U.clock (side.chain d) k = side.chain ((U.register side).clock d k) := by
  obtain ⟨tap, shifted, held⟩ := d
  obtain ⟨tms, tdi⟩ := k
  obtain rfl : tap = .shiftDr := h
  cases side <;> cases tms <;> rfl

/-- In the state behind it TMS high lets the bits take effect. -/
theorem clock_exit1 (h : d.tap = .exit1Dr) {k : Clock} (hk : k.tms = true) :
    U.clock (side.chain d) k = side.chain ((U.register side).clock d k) := by
  obtain ⟨tap, shifted, held⟩ := d
  obtain ⟨tms, tdi⟩ := k
  obtain rfl : tap = .exit1Dr := h
  obtain rfl : tms = true := hk
  cases side <;> rfl

/-- While a register is shifted its bit comes out. -/
theorem tdo_shift (h : d.tap = .shiftDr) : U.tdo (side.chain d) = (U.register side).tdo d := by
  obtain ⟨tap, shifted, held⟩ := d
  obtain rfl : tap = .shiftDr := h
  cases side <;> rfl

/-- The same at the clock that ends the shifts. -/
theorem tdo_exit1 (h : d.tap = .exit1Dr) : U.tdo (side.chain d) = (U.register side).tdo d := by
  obtain ⟨tap, shifted, held⟩ := d
  obtain rfl : tap = .exit1Dr := h
  cases side <;> rfl

/-- While TMS is low the unit does what the register of the side does. -/
theorem after_low (h : d.tap = .shiftDr) (hlow : ∀ k ∈ clocks, k.tms = false) :
    U.after (side.chain d) clocks = side.chain ((U.register side).after d clocks) ∧
      U.captured (side.chain d) clocks = (U.register side).captured d clocks := by
  induction clocks generalizing d with
  | nil => exact ⟨rfl, rfl⟩
  | cons k clocks ih =>
    have hfirst : U.clock (side.chain d) k = side.chain ((U.register side).clock d k) := clock_shift h k
    have hstays : ((U.register side).clock d k).tap = .shiftDr := by
      rw [DataRegister.clock_shiftDr h (hlow k List.mem_cons_self)]
      exact h
    obtain ⟨hafter, hcaptured⟩ := ih hstays fun k' hk' => hlow k' (List.mem_cons_of_mem k hk')
    rw [← hfirst] at hafter hcaptured
    exact ⟨hafter, congrArg₂ List.cons (tdo_shift h) hcaptured⟩

/-- So it does in two clocks with TMS high, with which all bits take effect. -/
theorem after_exit {k₁ k₂ : Clock} (h : d.tap = .shiftDr) (h₁ : k₁.tms = true) (h₂ : k₂.tms = true) :
    U.after (side.chain d) [k₁, k₂] = side.chain ((U.register side).after d [k₁, k₂]) ∧
      U.captured (side.chain d) [k₁, k₂] = (U.register side).captured d [k₁, k₂] := by
  have hexit : ((U.register side).clock d k₁).tap = .exit1Dr := by
    unfold DataRegister.clock
    rw [h, h₁]
    rfl
  have hsecond : U.clock (side.chain ((U.register side).clock d k₁)) k₂ = _ := clock_exit1 hexit h₂
  rw [← clock_shift h] at hsecond
  refine ⟨hsecond, ?_⟩
  change [U.tdo (side.chain d), U.tdo (U.clock (side.chain d) k₁)] = _
  rw [tdo_shift h, clock_shift h, tdo_exit1 hexit]
  rfl

/-- The clocks that lead to a side shift nothing. -/
theorem after_lead (h : c.tap.Rests) (side : Side) (tdi : Bool) :
    U.after c (modeClocks tdi side.lead) = side.chain ⟨.shiftDr, [], c.held⟩ := by
  obtain ⟨tap, shifted, held⟩ := c
  cases side <;> rcases h with rfl | rfl | rfl <;> rfl

/-- The clocks of bits that leave the controller where it is. -/
def lowClocks (bits : List Bool) : List Clock := bits.map (⟨false, ·⟩)

/-- The mode stays low while bits are shifted. -/
theorem tms_lowClocks (bits : List Bool) : ∀ k ∈ lowClocks bits, k.tms = false := by
  intro k hk
  obtain ⟨_, -, rfl⟩ := List.mem_map.mp hk
  rfl

theorem map_tdi_lowClocks (bits : List Bool) : (lowClocks bits).map Clock.tdi = bits := by
  rw [lowClocks, List.map_map]
  exact List.map_id bits

/-- The bits of a scan but the last one are shifted in. -/
theorem after_lowClocks (front : List Bool) :
    U.after (side.chain ⟨.shiftDr, [], c.held⟩) (lowClocks front) = side.chain ⟨.shiftDr, front, c.held⟩ := by
  rw [(after_low rfl (tms_lowClocks front)).1, DataRegister.after_shiftDr rfl (tms_lowClocks front),
    map_tdi_lowClocks]
  rfl

/-- A scan lets its bits take effect. -/
theorem after_scan {update : Clock} (h : c.tap.Rests) (hbits : bits ≠ []) (hupdate : update.tms = true) :
    U.after c (modeClocks tdi side.lead ++ bitClocks bits ++ [update]) =
      ⟨side.state .updateDr, bits, (U.register side).update c.held bits⟩ := by
  obtain ⟨front, bit, rfl⟩ := (List.eq_nil_or_concat bits).resolve_left hbits
  rw [List.concat_eq_append, bitClocks_append_singleton, List.append_assoc, List.append_assoc,
    after_append, after_lead h, after_append]
  change U.after (U.after _ (lowClocks front)) _ = _
  rw [after_lowClocks, List.singleton_append, (after_exit rfl rfl hupdate).1,
    DataRegister.after_exit rfl rfl hupdate]
  rfl

/-- During a scan each bit comes out behind those that went in before it. -/
theorem getD_captured_scan {update : Clock} (h : c.tap.Rests) {i : Nat} (hi : i < bits.length) :
    (U.captured c (modeClocks tdi side.lead ++ bitClocks bits ++ [update])).getD (side.lead.length + i) false =
      (U.register side).out c.held (bits.take i) := by
  have hbits : bits ≠ [] := List.ne_nil_of_length_pos (Nat.zero_lt_of_lt hi)
  obtain ⟨front, bit, rfl⟩ := (List.eq_nil_or_concat bits).resolve_left hbits
  rw [List.concat_eq_append, List.length_append, List.length_singleton] at hi
  have hlead : (U.captured c (modeClocks tdi side.lead)).length = side.lead.length := by
    rw [length_captured, length_modeClocks]
  have hfront : (U.captured (side.chain ⟨.shiftDr, [], c.held⟩) (lowClocks front)).length = front.length := by
    rw [length_captured, lowClocks, List.length_map]
  rw [List.concat_eq_append, bitClocks_append_singleton, List.append_assoc, List.append_assoc, captured_append,
    List.getD_append_right _ _ _ _ (by rw [hlead]; exact Nat.le_add_right _ i), hlead, Nat.add_sub_cancel_left,
    after_lead h, captured_append]
  change (U.captured _ (lowClocks front) ++ U.captured (U.after _ (lowClocks front)) _).getD i false = _
  rcases Nat.lt_or_ge i front.length with hin | hlast
  · rw [List.getD_append _ _ _ _ (by rwa [hfront]), (after_low rfl (tms_lowClocks front)).2,
      DataRegister.getD_captured_shiftDr rfl (tms_lowClocks front) (by rwa [lowClocks, List.length_map]),
      List.nil_append, List.map_take, map_tdi_lowClocks, List.take_append_of_le_length hin.le]
  · obtain rfl : i = front.length := by omega
    rw [List.getD_append_right _ _ _ _ hfront.le, hfront, Nat.sub_self, after_lowClocks, List.take_left]
    exact tdo_shift rfl

/-- Five clocks with TMS high and one with TMS low reset the unit. -/
theorem after_reset (h : c.tap.Rests) (tdi : Bool) : ∃ shifted,
    U.after c (modeClocks tdi [true, true, true, true, true, false]) = ⟨.runTestIdle, shifted, U.reset c.held⟩ := by
  obtain ⟨tap, shifted, held⟩ := c
  have hreset : U.reset (U.reset (U.reset held)) = U.reset held := by rw [U.reset_reset, U.reset_reset]
  refine ⟨shifted, ?_⟩
  rcases h with rfl | rfl | rfl <;> exact congrArg (Chain.mk _ shifted) hreset

end TapUnit

end Jtag
