import Mathlib.Algebra.BigOperators.Group.Finset.Basic
import Mathlib.Tactic

/-!
# The test access port

The controller of IEEE 1149.1 changes its state with TMS at every clock and shifts TDI into
the selected data register while it is in Shift-DR. A scan of the data register is three
clocks that lead there, the bits, the last one of them with TMS high, and one clock that
leads to Update-DR.
-/

namespace Jtag

/-- The states of the controller. -/
inductive TapState
  | testLogicReset
  | runTestIdle
  | selectDrScan
  | captureDr
  | shiftDr
  | exit1Dr
  | pauseDr
  | exit2Dr
  | updateDr
  | selectIrScan
  | captureIr
  | shiftIr
  | exit1Ir
  | pauseIr
  | exit2Ir
  | updateIr
  deriving DecidableEq, Repr

/-- The state after a clock with the given TMS. -/
def TapState.next : TapState → Bool → TapState
  | testLogicReset, tms => if tms then testLogicReset else runTestIdle
  | runTestIdle, tms => if tms then selectDrScan else runTestIdle
  | selectDrScan, tms => if tms then selectIrScan else captureDr
  | captureDr, tms => if tms then exit1Dr else shiftDr
  | shiftDr, tms => if tms then exit1Dr else shiftDr
  | exit1Dr, tms => if tms then updateDr else pauseDr
  | pauseDr, tms => if tms then exit2Dr else pauseDr
  | exit2Dr, tms => if tms then updateDr else shiftDr
  | updateDr, tms => if tms then selectDrScan else runTestIdle
  | selectIrScan, tms => if tms then testLogicReset else captureIr
  | captureIr, tms => if tms then exit1Ir else shiftIr
  | shiftIr, tms => if tms then exit1Ir else shiftIr
  | exit1Ir, tms => if tms then updateIr else pauseIr
  | pauseIr, tms => if tms then exit2Ir else pauseIr
  | exit2Ir, tms => if tms then updateIr else shiftIr
  | updateIr, tms => if tms then selectDrScan else runTestIdle

/-- The states from which TMS high leads to Select-DR-Scan. -/
def TapState.Rests (s : TapState) : Prop := s = runTestIdle ∨ s = updateDr ∨ s = updateIr

/-- The inputs of the controller at a rising edge of TCK. -/
structure Clock where
  tms : Bool
  tdi : Bool
  deriving DecidableEq, Repr

/-- The state after the clocks. -/
def TapState.after (s : TapState) (clocks : List Clock) : TapState :=
  clocks.foldl (fun s c => s.next c.tms) s

/-- The bits that the clocks shift into the data register. -/
def TapState.shifted : TapState → List Clock → List Bool
  | _, [] => []
  | s, c :: clocks => (if s = shiftDr then [c.tdi] else []) ++ (s.next c.tms).shifted clocks

theorem TapState.after_append (s : TapState) (cs cs' : List Clock) :
    s.after (cs ++ cs') = (s.after cs).after cs' := List.foldl_append ..

theorem TapState.shifted_append (s : TapState) (cs cs' : List Clock) :
    s.shifted (cs ++ cs') = s.shifted cs ++ (s.after cs).shifted cs' := by
  induction cs generalizing s with
  | nil => rfl
  | cons c cs ih =>
    rw [List.cons_append, shifted, shifted, ih, List.append_assoc]
    rfl

/-- While TMS is low the controller stays in Shift-DR. -/
theorem TapState.after_shiftDr {cs : List Clock} (h : ∀ c ∈ cs, c.tms = false) :
    shiftDr.after cs = shiftDr := by
  induction cs with
  | nil => rfl
  | cons c cs ih =>
    have hc : shiftDr.next c.tms = shiftDr := by
      rw [h c List.mem_cons_self]
      rfl
    change (shiftDr.next c.tms).after cs = shiftDr
    rw [hc]
    exact ih fun c' hc' => h c' (List.mem_cons_of_mem c hc')

/-- While TMS is low each clock shifts a bit. -/
theorem TapState.shifted_shiftDr {cs : List Clock} (h : ∀ c ∈ cs, c.tms = false) :
    shiftDr.shifted cs = cs.map Clock.tdi := by
  induction cs with
  | nil => rfl
  | cons c cs ih =>
    have hc : shiftDr.next c.tms = shiftDr := by
      rw [h c List.mem_cons_self]
      rfl
    rw [shifted, if_pos rfl, hc, ih fun c' hc' => h c' (List.mem_cons_of_mem c hc')]
    rfl

/-- The clocks of a scan of the data register that shifts the bits. -/
def Scans (bits : List Bool) (clocks : List Clock) : Prop :=
  ∃ select capture shift body last update, clocks = [select, capture, shift] ++ (body ++ [last, update]) ∧
    (select.tms = true ∧ capture.tms = false ∧ shift.tms = false) ∧
    (∀ c ∈ body, c.tms = false) ∧ (last.tms = true ∧ update.tms = true) ∧
    (body ++ [last]).map Clock.tdi = bits

variable {s : TapState} {bits : List Bool} {clocks : List Clock}

/-- Three clocks lead to Shift-DR. -/
theorem TapState.Rests.after {a b c : Clock} (hs : s.Rests) (ha : a.tms = true)
    (hb : b.tms = false) (hc : c.tms = false) : s.after [a, b, c] = .shiftDr := by
  change ((s.next a.tms).next b.tms).next c.tms = .shiftDr
  rw [ha, hb, hc]
  rcases hs with rfl | rfl | rfl <;> rfl

/-- They shift nothing. -/
theorem TapState.Rests.shifted {a b c : Clock} (hs : s.Rests) (ha : a.tms = true)
    (hb : b.tms = false) : s.shifted [a, b, c] = [] := by
  simp only [TapState.shifted, ha, hb]
  rcases hs with rfl | rfl | rfl <;> rfl

/-- A scan that starts where the controller rests ends in Update-DR. -/
theorem Scans.after (h : Scans bits clocks) (hs : s.Rests) : s.after clocks = .updateDr := by
  obtain ⟨a, b, c, body, last, update, rfl, ⟨ha, hb, hc⟩, hbody, ⟨hlast, hupdate⟩, -⟩ := h
  rw [TapState.after_append, hs.after ha hb hc, TapState.after_append,
    TapState.after_shiftDr hbody]
  change (TapState.shiftDr.next last.tms).next update.tms = .updateDr
  rw [hlast, hupdate]
  rfl

/-- A scan that starts where the controller rests shifts its bits. -/
theorem Scans.shifted (h : Scans bits clocks) (hs : s.Rests) : s.shifted clocks = bits := by
  obtain ⟨a, b, c, body, last, update, rfl, ⟨ha, hb, hc⟩, hbody, ⟨hlast, -⟩, rfl⟩ := h
  rw [TapState.shifted_append, hs.shifted ha hb, hs.after ha hb hc, List.nil_append,
    TapState.shifted_append, TapState.shifted_shiftDr hbody, TapState.after_shiftDr hbody,
    List.map_append]
  simp only [TapState.shifted, hlast]
  rfl

/-- The clocks of the bits of a scan. -/
def bitClocks : List Bool → List Clock
  | [] => []
  | b :: bits => ⟨bits.length = 0, b⟩ :: bitClocks bits

@[simp] theorem length_bitClocks (bits : List Bool) : (bitClocks bits).length = bits.length := by
  induction bits with
  | nil => rfl
  | cons b bits ih => rw [bitClocks, List.length_cons, List.length_cons, ih]

/-- TMS is high with the last bit only. -/
theorem bitClocks_append_singleton (bits : List Bool) (b : Bool) :
    bitClocks (bits ++ [b]) = bits.map (⟨false, ·⟩) ++ [⟨true, b⟩] := by
  induction bits with
  | nil => rfl
  | cons b' bits ih =>
    have hmore : decide ((bits ++ [b]).length = 0) = false := by
      rw [List.length_append]
      exact decide_eq_false (Nat.succ_ne_zero _)
    rw [List.cons_append, bitClocks, ih, hmore]
    rfl

/-- Bits between the clocks that lead to Shift-DR and from it are a scan. -/
theorem scans_bitClocks {a b c update : Clock} (hbits : bits ≠ []) (ha : a.tms = true)
    (hb : b.tms = false) (hc : c.tms = false) (hupdate : update.tms = true) :
    Scans bits ([a, b, c] ++ bitClocks bits ++ [update]) := by
  obtain ⟨front, bit, rfl⟩ := (List.eq_nil_or_concat bits).resolve_left hbits
  refine ⟨a, b, c, front.map (⟨false, ·⟩), ⟨true, bit⟩, update, ?_, ⟨ha, hb, hc⟩, ?_, ⟨rfl, hupdate⟩, ?_⟩
  · rw [List.concat_eq_append, bitClocks_append_singleton, List.append_assoc, List.append_assoc]
    rfl
  · intro clock hclock
    obtain ⟨_, -, rfl⟩ := List.mem_map.mp hclock
    rfl
  · rw [List.concat_eq_append, List.map_append, List.map_map]
    exact congrArg (· ++ [bit]) (List.map_id front)

/-- The low bits of a word, the least significant first. -/
def lowBits {w : Nat} (x : BitVec w) (n : Nat) : List Bool := (List.range n).map x.getLsbD

variable {w : Nat} (x : BitVec w)

@[simp] theorem length_lowBits (n : Nat) : (lowBits x n).length = n := by
  rw [lowBits, List.length_map, List.length_range]

theorem lowBits_succ (n : Nat) : lowBits x (n + 1) = lowBits x n ++ [x.getLsbD n] := by
  rw [lowBits, List.range_succ, List.map_append]
  rfl

/-- The low bits in two parts. -/
theorem lowBits_add (m n : Nat) : lowBits x (m + n) = lowBits x m ++ lowBits (x >>> m) n := by
  induction n with
  | zero => exact (List.append_nil (lowBits x m)).symm
  | succ n ih => rw [← Nat.add_assoc, lowBits_succ, ih, lowBits_succ, List.append_assoc,
      BitVec.getLsbD_ushiftRight]

theorem take_lowBits {m n : Nat} (h : n ≤ m) : (lowBits x m).take n = lowBits x n := by
  obtain ⟨k, rfl⟩ := Nat.exists_eq_add_of_le h
  rw [lowBits_add]
  exact List.take_left' (length_lowBits x n)

/-- The low bits of a word lie in its low part. -/
theorem lowBits_setWidth {v n : Nat} (h : n ≤ v) : lowBits (x.setWidth v) n = lowBits x n := by
  refine List.map_congr_left fun i hi => ?_
  have hi' : i < v := (List.mem_range.mp hi).trans_le h
  rw [BitVec.getLsbD_setWidth, decide_eq_true hi', Bool.true_and]

/-- A number is the sum of its bits. -/
theorem toNat_eq_sum_bits {n : Nat} (hx : ∀ i, n ≤ i → x.getLsbD i = false) :
    x.toNat = ∑ i ∈ Finset.range n, (x.getLsbD i).toNat * 2 ^ i := by
  have hlow (m : Nat) : x.toNat % 2 ^ m = ∑ i ∈ Finset.range m, (x.getLsbD i).toNat * 2 ^ i := by
    induction m with
    | zero => rw [pow_zero, Nat.mod_one, Finset.sum_range_zero]
    | succ m ih =>
      rw [Nat.mod_pow_succ, ih, Finset.sum_range_succ, ← Nat.toNat_testBit, BitVec.testBit_toNat, Nat.mul_comm]
  rw [← hlow, Nat.mod_eq_of_lt]
  refine Nat.lt_pow_two_of_testBit _ fun i hi => ?_
  rw [BitVec.testBit_toNat]
  exact hx i hi

/-- The number with the given bits, the least significant first. -/
def ofBits (w : Nat) (bits : List Bool) : BitVec w := (BitVec.ofBoolListLE bits).setWidth w

theorem getLsbD_ofBits (bits : List Bool) {i : Nat} (hi : i < w) : (ofBits w bits).getLsbD i = bits.getD i false := by
  rw [ofBits, BitVec.getLsbD_setWidth, decide_eq_true hi, Bool.true_and, BitVec.getLsbD_ofBoolListLE]

theorem getD_lowBits {n i : Nat} (hi : i < n) : (lowBits x n).getD i false = x.getLsbD i := by
  rw [List.getD_eq_getElem?_getD, lowBits, List.getElem?_map, List.getElem?_range hi]
  rfl

end Jtag
