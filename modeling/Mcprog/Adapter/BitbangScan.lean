import Mcprog.Adapter.Exchange

/-!
# Scans of the bitbang adapter

The chip clocks the port where TCK rises between two samples. The samples of a data scan are
the clocks of a scan, whatever the level of TCK was before them, and they fit into the buffer
in every state in which the adapter can be.
-/

namespace Mcprog

open Interaction Jtag

/-- The clocks of the port for the samples, from a level of TCK on. -/
def risingEdges : Bool → List Byte → List Clock
  | _, [] => []
  | level, b :: samples =>
    (if level = false ∧ b &&& tck ≠ 0 then [⟨b &&& tms ≠ 0, b &&& tdi ≠ 0⟩] else []) ++
      risingEdges (b &&& tck ≠ 0) samples

/-- The two samples of each clock. -/
def clockSamples (clocks : List Clock) : List Byte :=
  clocks.flatMap fun c => [sample false c.tms c.tdi, sample true c.tms c.tdi]

@[simp] theorem length_clockSamples (clocks : List Clock) :
    (clockSamples clocks).length = 2 * clocks.length := by
  rw [clockSamples, List.length_flatMap]
  simp only [List.length_cons, List.length_nil, List.map_const', List.sum_replicate, smul_eq_mul]
  omega

/-- The clocks of two scans, one after the other. -/
theorem clockSamples_append (cs cs' : List Clock) :
    clockSamples (cs ++ cs') = clockSamples cs ++ clockSamples cs' := List.flatMap_append

/-- The port sees the clocks of which the samples are made. -/
theorem risingEdges_clockSamples (level : Bool) (clocks : List Clock) :
    risingEdges level (clockSamples clocks ++ [lastSample]) = clocks := by
  induction clocks generalizing level with
  | nil => cases level <;> rfl
  | cons c clocks ih =>
    obtain ⟨mode, data⟩ := c
    have htail := ih true
    have hlow : (sample false mode data &&& tck ≠ 0) = False := by
      cases mode <;> cases data <;> simp [sample, tck, tms, tdi, ntrst, nsysrst]
    have hhigh : (sample true mode data &&& tck ≠ 0) = True := by
      cases mode <;> cases data <;> simp [sample, tck, tms, tdi, ntrst, nsysrst]
    have hmode : decide (sample true mode data &&& tms ≠ 0) = mode := by
      cases mode <;> cases data <;> rfl
    have hdata : decide (sample true mode data &&& tdi ≠ 0) = data := by
      cases mode <;> cases data <;> rfl
    have hcons : clockSamples (⟨mode, data⟩ :: clocks) ++ [lastSample] =
        sample false mode data :: sample true mode data :: (clockSamples clocks ++ [lastSample]) := rfl
    rw [hcons, risingEdges, risingEdges]
    simp only [hlow, hhigh, hmode, hdata, and_false, and_true, if_false, decide_false, decide_true,
      if_true, List.nil_append, htail, List.singleton_append]

variable {σ : Type} {pipe : BulkPipe σ} {a a' : Attached Bitbang σ} {tr : List Transfer}

/-- A clock: the line for it goes down and up. -/
theorem adds_clock (mode data : Bool) :
    Adds (do bitbangWrite false mode data; bitbangWrite true mode data : UsbAction Bitbang σ Unit)
      (clockSamples [⟨mode, data⟩]) :=
  (adds_bitbangWrite false mode data).bind (adds_bitbangWrite true mode data)

theorem adds_bitbangStep (mode : Bool) :
    Adds (bitbangStep mode : UsbAction Bitbang σ Unit) (clockSamples [⟨mode, true⟩]) :=
  adds_clock mode true

/-- A clock before others. -/
theorem adds_clock_bind {mode data : Bool} {f : Unit → UsbAction Bitbang σ Unit} {clocks : List Clock}
    (h : Adds (f ()) (clockSamples clocks)) :
    Adds (do bitbangWrite false mode data; bitbangWrite true mode data; f ())
      (clockSamples (⟨mode, data⟩ :: clocks)) := by
  rw [← List.singleton_append, clockSamples_append]
  have hbind := (adds_clock (σ := σ) mode data).bind (f := f) h
  rwa [bind_assoc] at hbind

/-- A byte and a mask select a bit. -/
theorem mask_getLsbD (b : Byte) {k : Nat} (hk : k < 8) :
    decide (b &&& (1#8 <<< k) ≠ 0) = b.getLsbD k := by
  have hmask : 1#8 <<< k = BitVec.twoPow 8 k := (BitVec.twoPow_eq 8 k).symm
  have hne : BitVec.twoPow 8 k ≠ 0 := by
    intro hzero
    have hbit := congrArg (fun x => x.getLsbD k) hzero
    simp [hk] at hbit
  rw [hmask, BitVec.and_twoPow]
  cases b.getLsbD k with
  | false => simp
  | true => simpa using hne

/-- The bits of a stream from bit `k` of a byte on. -/
def streamBits (k : Nat) (byte : Byte) (bytes : List Byte) : List Bool :=
  (lowBits byte 8).drop k ++ bytes.flatMap fun b => lowBits b 8

/-- The bits that are left of a byte, and those of the bytes behind it. -/
theorem length_streamBits (k : Nat) (byte : Byte) (bytes : List Byte) :
    (streamBits k byte bytes).length = 8 - k + 8 * bytes.length := by
  rw [streamBits, List.length_append, List.length_drop, length_lowBits, List.length_flatMap]
  simp only [length_lowBits, List.map_const', List.sum_replicate, smul_eq_mul]
  omega

theorem streamBits_of_lt {k : Nat} (hk : k < 8) (byte : Byte) (bytes : List Byte) :
    streamBits k byte bytes = byte.getLsbD k :: streamBits (k + 1) byte bytes := by
  have hlen : k < (lowBits byte 8).length := by rwa [length_lowBits]
  have hbit : (lowBits byte 8)[k] = byte.getLsbD k := by
    simp only [lowBits, List.getElem_map, List.getElem_range]
  rw [streamBits, List.drop_eq_getElem_cons hlen, hbit]
  rfl

/-- After eight bits the next byte begins. -/
theorem streamBits_eight (byte b : Byte) (bytes : List Byte) :
    streamBits 8 byte (b :: bytes) = streamBits 0 b bytes := rfl

/-- One bit before those that are left. -/
theorem adds_dataBits_succ {left k : Nat} {mask byte byte' : Byte} {bytes : List Byte}
    {newdata : Option (List Byte)} (hk : k < 8)
    (hnext : nextBit mask byte' newdata = some (1#8 <<< k, byte, some bytes))
    (hleft : left ≤ (streamBits (k + 1) byte bytes).length)
    (hrest : Adds (dataBits left (1#8 <<< (k + 1)) byte (some bytes) : UsbAction Bitbang σ Unit)
      (clockSamples (bitClocks ((streamBits (k + 1) byte bytes).take left)))) :
    Adds (dataBits (left + 1) mask byte' newdata : UsbAction Bitbang σ Unit)
      (clockSamples (bitClocks ((streamBits k byte bytes).take (left + 1)))) := by
  have hlast : decide (((streamBits (k + 1) byte bytes).take left).length = 0) = decide (left = 0) := by
    rw [List.length_take_of_le hleft]
  rw [streamBits_of_lt hk, List.take_succ_cons, bitClocks, hlast, dataBits, hnext]
  dsimp only
  rw [mask_getLsbD byte hk, ← BitVec.shiftLeft_add]
  exact adds_clock_bind (f := fun _ => dataBits left _ byte (some bytes)) hrest

/-- From bit `k` of a byte on the stream goes on with the bytes that are left. -/
theorem adds_dataBits {left k : Nat} {byte : Byte} {bytes : List Byte} (hk : k ≤ 8)
    (hleft : left ≤ (streamBits k byte bytes).length) :
    Adds (dataBits left (1#8 <<< k) byte (some bytes) : UsbAction Bitbang σ Unit)
      (clockSamples (bitClocks ((streamBits k byte bytes).take left))) := by
  induction left generalizing k byte bytes with
  | zero => exact fun a _ => rfl
  | succ left ih =>
    rw [length_streamBits] at hleft
    rcases hk.lt_or_eq with hlt | rfl
    · have hmask : 1#8 <<< k ≠ 0 := by interval_cases k <;> decide
      have hleft' : left ≤ (streamBits (k + 1) byte bytes).length := by
        rw [length_streamBits]
        omega
      exact adds_dataBits_succ hlt (if_neg hmask) hleft' (ih hlt hleft')
    · cases bytes with
      | nil => simp at hleft
      | cons b bytes =>
        rw [List.length_cons] at hleft
        have hleft' : left ≤ (streamBits 1 b bytes).length := by
          rw [length_streamBits]
          omega
        rw [streamBits_eight]
        exact adds_dataBits_succ (by decide) rfl hleft' (ih (by decide) hleft')

/-- Without a stream zeros are sent. -/
theorem adds_dataBits_none (left : Nat) (mask : Byte) :
    Adds (dataBits left mask 0 none : UsbAction Bitbang σ Unit)
      (clockSamples (bitClocks (List.replicate left false))) := by
  induction left generalizing mask with
  | zero => exact fun a _ => rfl
  | succ left ih =>
    obtain ⟨m, hnext⟩ : ∃ m, nextBit mask 0 none = some (m, 0, none) := by
      unfold nextBit
      split
      · exact ⟨1, rfl⟩
      · exact ⟨mask, rfl⟩
    have hbit : decide ((0 : Byte) &&& m ≠ 0) = false :=
      decide_eq_false fun h => h (BitVec.zero_and)
    rw [List.replicate_succ, bitClocks, List.length_replicate, dataBits, hnext]
    dsimp only
    rw [hbit]
    exact adds_clock_bind (f := fun _ => dataBits left _ 0 none) (ih (m <<< 1))

/-- The low bits of a number, sent from its bytes. -/
theorem adds_dataBits_leBytes {nbits : Nat} (hn : nbits ≤ 64) (x : BitVec 64) :
    Adds (dataBits nbits 0 0 (some (leBytes 8 x)) : UsbAction Bitbang σ Unit)
      (clockSamples (bitClocks (lowBits x nbits))) := by
  have hbits : streamBits 8 0 (leBytes 8 x) = lowBits x 64 := by
    rw [streamBits, List.drop_eq_nil_of_le (by rw [length_lowBits]), List.nil_append, flatMap_leBytes]
  have hadds : Adds (dataBits nbits (1#8 <<< 8) 0 (some (leBytes 8 x)) : UsbAction Bitbang σ Unit) _ :=
    adds_dataBits (le_refl 8) (by rwa [hbits, length_lowBits])
  have hnone : (1#8 <<< 8 : Byte) = 0 := by decide
  rwa [hbits, take_lowBits x hn, hnone] at hadds

/-- The clocks that `tap_data` makes of the clocks of its bits. -/
def scanClocks (clocks : List Clock) : List Clock :=
  [⟨true, true⟩, ⟨false, true⟩, ⟨false, true⟩] ++ clocks ++ [⟨true, true⟩]

/-- The clocks of a scan shift its bits, and lead back to where they began. -/
theorem scans_scanClocks {bits : List Bool} (h : bits ≠ []) : Scans bits (scanClocks (bitClocks bits)) :=
  scans_bitClocks h rfl rfl rfl rfl

/-- What follows the clocks of `tap_data`. -/
theorem tapData_apply {fuel nbits : Nat} {newdata : Option (List Byte)} {olddata : Option (BitVec 64)}
    {clocks : List Clock} (hclocks : Adds (dataBits nbits 0 0 newdata : UsbAction Bitbang σ Unit) (clockSamples clocks))
    (hroom : a.own.outputLen + 2 * clocks.length + 8 ≤ bitbangSize) :
    tapData pipe fuel nbits newdata olddata a = (do
      bitbangSendRecv pipe fuel
      let output := (← getOwn).output
      return olddata.map fun data => bitbangRead output (a.own.outputLen + 6) nbits data :
        UsbAction Bitbang σ (Option (BitVec 64)))
      { a with own := (clockSamples (scanClocks clocks)).foldl Bitbang.push a.own } := by
  rw [tapData, (adds_bitbangStep true).bind_apply, (adds_bitbangStep false).bind_apply,
    (adds_bitbangStep false).bind_apply, getOwn_bind, hclocks.bind_apply,
    (adds_bitbangStep true).bind_apply]
  · have hoffset : (((clockSamples [⟨false, true⟩]).foldl Bitbang.push
        ((clockSamples [⟨false, true⟩]).foldl Bitbang.push
          ((clockSamples [⟨true, true⟩]).foldl Bitbang.push a.own)))).outputLen = a.own.outputLen + 6 := by
      simp
    dsimp only
    rw [hoffset, scanClocks, clockSamples_append, clockSamples_append, List.foldl_append,
      List.foldl_append]
    rfl
  all_goals
    simp
    omega

section TapData

variable {fuel nbits : Nat} {newdata : Option (List Byte)} {olddata : Option (BitVec 64)}
  {clocks : List Clock}

/-- Four clocks more than there are bits. -/
theorem length_clockSamples_scanClocks (clocks : List Clock) :
    (clockSamples (scanClocks clocks)).length = 2 * clocks.length + 8 := by
  rw [length_clockSamples, scanClocks, List.length_append, List.length_append]
  simp only [List.length_cons, List.length_nil]
  omega

/-- The device takes the clocks of the scan after what is in the buffer. -/
theorem tapData_returns {r : Option (BitVec 64)}
    (hclocks : Adds (dataBits nbits 0 0 newdata : UsbAction Bitbang σ Unit) (clockSamples clocks))
    (hroom : a.own.outputLen + 2 * clocks.length + 8 < bitbangSize)
    (h : (tapData pipe fuel nbits newdata olddata).Returns a r tr a') :
    taken tr = a.own.bytes 0 a.own.outputLen ++ clockSamples (scanClocks clocks) ++ [lastSample] ∧
      a'.own.outputLen = 0 := by
  rw [Program.Returns, tapData_apply hclocks hroom.le] at h
  obtain ⟨_, tr₁, a₁, tr₂, h₁, h₂, rfl⟩ := Program.returns_bind_iff.mp h
  have hroom' : ((clockSamples (scanClocks clocks)).foldl Bitbang.push a.own).outputLen < bitbangSize := by
    rw [outputLen_foldl_push, length_clockSamples_scanClocks]
    omega
  obtain ⟨htaken, hempty⟩ := bitbangSendRecv_returns h₁ hroom'
  rw [Program.Returns, getOwn_bind] at h₂
  obtain ⟨-, rfl, rfl⟩ := Program.returns_pure_iff.mp h₂
  refine ⟨?_, hempty⟩
  rw [List.append_nil, htaken, outputLen_foldl_push, bytes_foldl_push]

/-- A scan of the data register stays within its buffer, and leaves it empty. -/
theorem meets_tapData
    (hclocks : Adds (dataBits nbits 0 0 newdata : UsbAction Bitbang σ Unit) (clockSamples clocks))
    (hroom : a.own.outputLen + 2 * clocks.length + 8 < bitbangSize) :
    (tapData pipe fuel nbits newdata olddata).Meets a NoOverflow fun _ a' => a'.own.outputLen = 0 := by
  refine Program.Meets.of_apply ?_ (tapData_apply hclocks hroom.le)
  refine Program.Meets.bind (meets_bitbangSendRecv ?_) fun _ a' ha' => ?_
  · rw [outputLen_foldl_push, length_clockSamples_scanClocks]
    omega
  · exact Program.Reaches.meets (getOwn_returns.reaches.bind (Program.reaches_pure _ a')) ha'

end TapData

/-- The bits of an instruction are as many clocks. -/
theorem adds_instrBits (newinst : Word) (left : Nat) (mask : Word) :
    ∃ clocks, clocks.length = left ∧
      Adds (instrBits newinst left mask : UsbAction Bitbang σ Unit) (clockSamples clocks) := by
  induction left generalizing mask with
  | zero => exact ⟨[], rfl, fun a _ => rfl⟩
  | succ left ih =>
    obtain ⟨clocks, hlen, hclocks⟩ := ih (mask <<< 1)
    refine ⟨⟨left = 0, newinst &&& mask ≠ 0⟩ :: clocks, congrArg (· + 1) hlen, ?_⟩
    exact adds_clock_bind (f := fun _ => instrBits newinst left (mask <<< 1)) hclocks

/-- The same of a scan of the instruction register. -/
theorem meets_tapInstr {fuel nbits : Nat} {newinst : Word}
    (hroom : a.own.outputLen + 2 * nbits + 10 < bitbangSize) :
    (tapInstr pipe fuel nbits newinst).Meets a NoOverflow fun _ a' => a'.own.outputLen = 0 := by
  obtain ⟨clocks, hlen, hclocks⟩ := adds_instrBits (σ := σ) newinst nbits 1
  refine (adds_bitbangStep true).meets ?_ ((adds_bitbangStep true).meets ?_
    ((adds_bitbangStep false).meets ?_ ((adds_bitbangStep false).meets ?_ (Program.Meets.of_apply
      (hclocks.meets ?_ ((adds_bitbangStep true).meets ?_ (Program.Meets.bind
        (meets_bitbangSendRecv ?_) fun _ a' ha' => ?_))) (getOwn_bind _)))))
  case refine_8 => exact Program.Reaches.meets (getOwn_returns.reaches.bind (Program.reaches_pure _ a')) ha'
  all_goals
    simp [hlen]
    omega

/-- The run empties the buffer and does not overflow it. -/
def Empties {α : Type} (m : UsbAction Bitbang σ α) (a : Attached Bitbang σ) : Prop :=
  m.Meets a NoOverflow fun _ a' => a'.own.outputLen = 0

/-- A run that ends leaves the buffer empty. -/
theorem Empties.outputLen {α : Type} {m : UsbAction Bitbang σ α} {r : α} (hm : Empties m a)
    (h : m.Reaches a r a') : a'.own.outputLen = 0 := by
  unfold Empties at hm
  exact hm.reaches h

/-- A part begins with the empty buffer that the one before has left. -/
theorem Empties.bind {α β : Type} {m : UsbAction Bitbang σ α} {f : α → UsbAction Bitbang σ β}
    (hm : Empties m a) (hf : ∀ r a', a'.own.outputLen = 0 → Empties (f r) a') : Empties (m >>= f) a :=
  Program.Meets.bind hm hf

/-- What is made of the answer has nothing to do with the buffer. -/
theorem Empties.bind_pure {α β : Type} {m : UsbAction Bitbang σ α} {f : α → β} (hm : Empties m a) :
    Empties (m >>= fun r => pure (f r)) a :=
  hm.bind fun _ _ ha' => Program.meets_pure ha'

theorem adds_bitbangTapReset :
    ∃ xs, xs.length = 12 ∧ Adds (bitbangTapReset : UsbAction Bitbang σ Unit) xs :=
  ⟨_, rfl, (adds_bitbangStep true).bind ((adds_bitbangStep true).bind ((adds_bitbangStep true).bind
    ((adds_bitbangStep true).bind ((adds_bitbangStep true).bind (adds_bitbangStep false)))))⟩

/-- The clocks of the reset wait in the buffer for the scan behind it. -/
theorem empties_tapReset {α : Type} {m : UsbAction Bitbang σ α} (h0 : a.own.outputLen = 0)
    (h : ∀ a' : Attached Bitbang σ, a'.own.outputLen = 12 → Empties m a') :
    Empties (bitbangTapReset >>= fun _ => m) a := by
  obtain ⟨xs, hlen, hadds⟩ := adds_bitbangTapReset (σ := σ)
  refine hadds.meets ?_ (h _ ?_)
  · rw [h0, hlen]
    decide
  · rw [outputLen_foldl_push, h0, hlen]

/-- Samples are put into the buffer one by one. -/
theorem adds_bitbangPut (xs : List Byte) : Adds (xs.forM bitbangPut : UsbAction Bitbang σ Unit) xs := by
  induction xs with
  | nil => exact fun a _ => rfl
  | cons x xs ih =>
    have hput : Adds (bitbangPut x : UsbAction Bitbang σ Unit) [x] := by
      intro a ha
      have hroom : ¬ a.own.outputLen ≥ bitbangSize := by
        rw [List.length_singleton] at ha
        omega
      rw [Program.Returns, bitbangPut, getOwn_bind, if_neg hroom]
      rfl
    exact hput.bind ih

/-- A scan of the bytes of a number, from an empty buffer. -/
theorem empties_tapData_leBytes {fuel nbits : Nat} {x : BitVec 64} {olddata : Option (BitVec 64)}
    (h0 : a.own.outputLen = 0) (hn : nbits ≤ 57) :
    Empties (tapData pipe fuel nbits (some (leBytes 8 x)) olddata) a := by
  refine meets_tapData (adds_dataBits_leBytes (by omega) x) ?_
  rw [length_bitClocks, length_lowBits, h0]
  have hsize : bitbangSize = 128 := rfl
  omega

/-- The looks whether the processor is stopped, by induction on them. -/
theorem empties_bitbangStopped (fuel tries : Nat) (h0 : a.own.outputLen = 0) :
    Empties (bitbangStopped pipe fuel tries) a := by
  induction tries generalizing a with
  | zero =>
    refine Program.meets_stop ?_
    unfold NoOverflow
    decide
  | succ tries ih =>
    refine Empties.bind (meets_tapInstr (by rw [h0]; decide)) fun r a' ha' => ?_
    split
    · exact Program.meets_pure ha'
    · exact ih ha'

/-- Every call does so. -/
theorem empties_run {fuel : Nat} (call : BitbangCall) (h0 : a.own.outputLen = 0) :
    Empties (call.run pipe fuel) a := by
  have hlen (reglen : RegLen) : 9 + reglen.val ≤ 57 := by
    have := reglen.property
    omega
  cases call with
  | getIdcode =>
    refine Empties.bind_pure (empties_tapReset h0 fun a₁ h₁ => Empties.bind (meets_tapInstr ?_)
      fun _ a₂ h₂ => Empties.bind_pure (meets_tapData (adds_dataBits_none 32 0) ?_))
    · rw [h₁]
      decide
    · rw [h₂, length_bitClocks, List.length_replicate]
      decide
  | cpuStopped => exact Empties.bind_pure (Empties.bind_pure (meets_tapInstr (by rw [h0]; decide)))
  | stopCpu =>
    refine Empties.bind (meets_tapInstr (by rw [h0]; decide)) fun _ a' ha' => ?_
    exact empties_bitbangStopped fuel 50 ha'
  | resetCpu =>
    have hroom : a.own.outputLen < bitbangSize := by
      rw [h0]
      decide
    refine Empties.bind (meets_bitbangSendRecv hroom) fun _ a₁ h₁ => ?_
    refine (adds_bitbangPut resetSamples).meets ?_ (meets_bitbangSendRecv ?_)
    · rw [h₁]
      decide
    · rw [outputLen_foldl_push, h₁]
      decide
  | oncdRead reg reglen =>
    exact Empties.bind_pure (Empties.bind_pure (empties_tapData_leBytes h0 (hlen reglen)))
  | oncdWrite value reg reglen =>
    exact Empties.bind_pure (empties_tapData_leBytes h0 (hlen reglen))

/-- The adapter is opened with an empty buffer, and left so. -/
theorem empties_bitbangOpen {fuel : Nat} (h0 : a.own.outputLen = 0) : Empties (bitbangOpen pipe fuel) a := by
  refine empties_tapReset h0 fun a₁ h₁ => meets_bitbangSendRecv ?_
  rw [h₁]
  decide

/-- Between two calls the buffer is empty. -/
theorem Bitbang.Reachable.outputLen (h : Bitbang.Reachable pipe a) : a.own.outputLen = 0 := by
  induction h with
  | opened h => exact (empties_bitbangOpen rfl).outputLen h
  | called _ h ih => exact (empties_run _ ih).outputLen h

/-- On a device that keeps up the adapter is opened. -/
theorem BulkPipe.Prompt.exists_reachable (hp : pipe.Prompt) (usb : σ) :
    ∃ a, Bitbang.Reachable pipe a := by
  obtain ⟨xs, hlen, hadds⟩ := adds_bitbangTapReset (σ := σ)
  obtain ⟨a, ha⟩ : ∃ a : Attached Bitbang σ, a = ⟨⟨fun _ => 0, 0⟩, usb⟩ := ⟨_, rfl⟩
  have h0 : a.own.outputLen = 0 := by rw [ha]
  have hreset := hadds a (by rw [h0, hlen]; decide)
  obtain ⟨a₁, h₁⟩ := hp.bitbangSendRecv { a with own := xs.foldl Bitbang.push a.own }
    (Nat.lt_succ_self _) (by rw [outputLen_foldl_push, h0, hlen]; decide)
  have hopen : (bitbangOpen pipe (bitbangSize + 1).succ).Reaches ⟨⟨fun _ => 0, 0⟩, usb⟩ () a₁ := by
    rw [← ha]
    exact hreset.reaches.bind h₁
  exact ⟨a₁, .opened hopen⟩

section RegisterWrites

variable {fuel : Nat} {value reg : Word} {reglen : RegLen}

/-- The data of an access to a debug register are clocked out bit by bit. -/
theorem adds_oncdWriteData (value reg : Word) (reglen : RegLen) :
    Adds (dataBits (9 + reglen.val) 0 0 (some (leBytes 8 (oncdWriteData value reg reglen))) :
      UsbAction Bitbang σ Unit)
      (clockSamples (bitClocks (lowBits (oncdWriteData value reg reglen) (9 + reglen.val)))) :=
  adds_dataBits_leBytes (by have := reglen.property; omega) _

/-- The clocks of a register write are a scan of the low bits of its data. -/
theorem bitbangOncdWrite_scans (h0 : a.own.outputLen = 0)
    (h : (bitbangOncdWrite pipe fuel value reg reglen).Returns a () tr a') :
    ∃ clocks, Scans (lowBits (oncdWriteData value reg reglen) (9 + reglen.val)) clocks ∧
      ∀ level, risingEdges level (taken tr) = clocks := by
  obtain ⟨r, tr₁, a₁, tr₂, h₁, h₂, rfl⟩ := Program.returns_bind_iff.mp h
  obtain ⟨-, rfl, rfl⟩ := Program.returns_pure_iff.mp h₂
  have hroom : a.own.outputLen +
      2 * (bitClocks (lowBits (oncdWriteData value reg reglen) (9 + reglen.val))).length + 8 < bitbangSize := by
    have hsize : bitbangSize = 128 := rfl
    have hlen := reglen.property
    rw [h0, length_bitClocks, length_lowBits]
    omega
  have htaken := (tapData_returns (adds_oncdWriteData value reg reglen) hroom h₁).1
  refine ⟨_, scans_scanClocks ?_, fun level => ?_⟩
  · exact List.ne_nil_of_length_pos (by rw [length_lowBits]; omega)
  · rw [List.append_nil, htaken, h0]
    exact risingEdges_clockSamples level _

/-- On a device that keeps up a register write is done. -/
theorem BulkPipe.Prompt.bitbangOncdWrite (hp : pipe.Prompt) (h0 : a.own.outputLen = 0)
    (hfuel : bitbangSize + 1 < fuel) : ∃ a', (bitbangOncdWrite pipe fuel value reg reglen).Reaches a () a' := by
  obtain ⟨clocks, hclocks⟩ : ∃ clocks,
      clocks = bitClocks (lowBits (oncdWriteData value reg reglen) (9 + reglen.val)) := ⟨_, rfl⟩
  have hadds := adds_oncdWriteData (σ := σ) value reg reglen
  rw [← hclocks] at hadds
  have hroom : a.own.outputLen + 2 * clocks.length + 8 < bitbangSize := by
    have hsize : bitbangSize = 128 := rfl
    have hlen := reglen.property
    rw [h0, hclocks, length_bitClocks, length_lowBits]
    omega
  obtain ⟨a₁, ha₁⟩ : ∃ a₁ : Attached Bitbang σ,
      a₁ = ⟨(clockSamples (scanClocks clocks)).foldl Bitbang.push a.own, a.usb⟩ := ⟨_, rfl⟩
  have hroom₁ : a₁.own.outputLen < bitbangSize := by
    rw [ha₁, outputLen_foldl_push, length_clockSamples_scanClocks]
    omega
  obtain ⟨a₂, h₂⟩ := hp.bitbangSendRecv a₁ hfuel hroom₁
  have hscan : ∃ r, (tapData pipe fuel (9 + reglen.val)
      (some (leBytes 8 (oncdWriteData value reg reglen))) none).Reaches a r a₂ := by
    have hrest : (do
        Mcprog.bitbangSendRecv pipe fuel
        let output := (← getOwn).output
        return (none : Option (BitVec 64)).map fun data =>
          bitbangRead output (a.own.outputLen + 6) (9 + reglen.val) data :
        UsbAction Bitbang σ (Option (BitVec 64))).Reaches a₁ none a₂ :=
      h₂.bind (getOwn_returns.reaches.bind (Program.reaches_pure _ a₂))
    obtain ⟨tr, hr⟩ := hrest
    refine ⟨none, tr, ?_⟩
    rw [Program.Returns, tapData_apply hadds hroom.le, ← ha₁]
    exact hr
  obtain ⟨r, hr⟩ := hscan
  exact ⟨a₂, hr.bind (Program.reaches_pure () a₂)⟩

end RegisterWrites

end Mcprog
