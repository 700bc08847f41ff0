import Mcprog.Adapter.BitbangRefines
import Mcprog.Adapter.MpsseAdapter

/-!
# The bitbang adapter as its callers see it

Where each reply comes in one piece, every call of the adapter does to the processor what the
register-level adapter does to it. The two serial adapters share only that, and so a caller of the
methods that both of them have gets the same answers from both.
-/

namespace Mcprog

open Interaction Cells Jtag

variable {σ τ χ α : Type} {pipe : BulkPipe σ} {P : DebugPort τ} {respond : χ → Byte → χ × Byte}
  {pins : χ → PortPins τ} {view : σ → χ × List Byte} {a a' : Attached Bitbang σ} {t : τ}

namespace Clocked

/-- The clocks that reset the controller wait in the buffer. -/
theorem tapReset (hc : Clocked P pins view [] a t) :
    ∃ a₁, (bitbangTapReset : UsbAction Bitbang σ Unit).Reaches a () a₁ ∧
      Clocked P pins view (modeClocks true [true, true, true, true, true, false]) a₁ (P.reset t) := by
  have hadds : Adds (bitbangTapReset : UsbAction Bitbang σ Unit)
      (clockSamples (modeClocks true [true, true, true, true, true, false])) :=
    (adds_bitbangStep true).bind ((adds_bitbangStep true).bind ((adds_bitbangStep true).bind
      ((adds_bitbangStep true).bind ((adds_bitbangStep true).bind (adds_bitbangStep false)))))
  have hreset := hadds a (by rw [hc.buffers.outputLen]; decide)
  obtain ⟨shifted, hafter⟩ := TapUnit.after_reset (U := P.toTapUnit) hc.rests true
  have hafter' : P.after (pins (view a.usb).1).chain (modeClocks true [true, true, true, true, true, false]) =
      ⟨.runTestIdle, shifted, P.reset t⟩ := by
    rw [← hc.held]
    exact hafter
  refine ⟨_, hreset.reaches, hc.buffers.push _, hc.pending, ?_, ?_⟩
  · rw [hafter']
    exact .inl rfl
  · rw [hafter']

theorem getIdcode (h : pipe.Samples P respond pins view) (hc : Clocked P pins view [] a t) :
    ∃ a', Program.Eventual (fun fuel => bitbangGetIdcode pipe fuel) a (P.getIdcode t).1 a' ∧
      Clocked P pins view [] a' (P.getIdcode t).2 := by
  obtain ⟨a₁, hreset, hc₁⟩ := hc.tapReset
  obtain ⟨a₂, hinstr, hc₂⟩ := hc₁.tapInstr h tapIdcode (by decide)
  rw [show (P.instr tapIdcode (P.reset t)).2 = P.reset t from P.idcode_selected t] at hc₂
  obtain ⟨output, a', hdata, hc', htdo⟩ := hc₂.tapData h (some 0) (adds_dataBits_none 32 0) List.length_replicate
    (by decide) (by decide)
  have hcode : ((((some 0 : Option (BitVec 64)).map fun data => bitbangRead output 6 32 data).getD 0).setWidth 32 : Word) =
      (P.getIdcode t).1 := by
    have hzero (i : Nat) : (0 : BitVec 64).getLsbD i = false := BitVec.getLsbD_zero
    change (bitbangRead output 6 32 (0 : BitVec 64)).setWidth 32 = _
    rw [bitbangRead_eq_ofBits (by rw [DebugPort.scan, DataRegister.length_outputs, List.length_replicate]) htdo
      fun i _ => hzero i, setWidth_ofBits]
    rfl
  refine ⟨a', (Program.Reaches.eventual hreset).bind (hinstr.bind (hdata.bind (Program.Reaches.eventual ?_))), hc'⟩
  rw [hcode]
  exact Program.reaches_pure _ _

theorem cpuStopped (h : pipe.Samples P respond pins view) (hc : Clocked P pins view [] a t) :
    ∃ a', Program.Eventual
        (fun fuel => (do return (← bitbangCpuStopped pipe fuel) ≠ 0 : UsbAction Bitbang σ Bool)) a
        (P.cpuStopped t).1 a' ∧ Clocked P pins view [] a' (P.cpuStopped t).2 := by
  obtain ⟨a', hinstr, hc'⟩ := hc.tapInstr h tapDebugEnable (by decide)
  have hpoll := hinstr.bind (f := fun _ ir => pure (ir &&& 4)) (Program.Reaches.eventual (Program.reaches_pure _ _))
  exact ⟨a', hpoll.bind (f := fun _ ir => pure (decide (ir ≠ 0)))
    (Program.Reaches.eventual (Program.reaches_pure _ _)), hc'⟩

/-- The polls come to the same, and so does their end. -/
theorem stopped (h : pipe.Samples P respond pins view) (tries : Nat) (hc : Clocked P pins view [] a t) :
    Corresponds (Clocked P pins view []) (fun fuel => (bitbangStopped pipe fuel tries).handle a) (P.stopped tries t) := by
  induction tries generalizing a t with
  | zero => exact ⟨0, fun _ _ => rfl⟩
  | succ tries ih =>
    obtain ⟨a', ⟨enough, hinstr⟩, hc'⟩ := hc.tapInstr h tapDebugEnable (by decide)
    rw [DebugPort.stopped]
    split
    · rename_i hstop
      refine ⟨a', hc', enough, fun fuel hfuel => (hinstr fuel hfuel).handle_bind.trans ?_⟩
      rw [if_pos hstop]
      rfl
    · rename_i hgo
      refine (ih hc').congr ⟨enough, fun fuel hfuel => (hinstr fuel hfuel).handle_bind.trans ?_⟩
      rw [if_neg hgo]

theorem stopCpu (h : pipe.Samples P respond pins view) (hc : Clocked P pins view [] a t) :
    Corresponds (Clocked P pins view []) (fun fuel => (bitbangStopCpu pipe fuel).handle a) (P.stopCpu t) := by
  obtain ⟨a₁, ⟨enough, hinstr⟩, hc₁⟩ := hc.tapInstr h tapDebugRequest (by decide)
  exact (hc₁.stopped h 50).congr ⟨enough, fun fuel hfuel => (hinstr fuel hfuel).handle_bind⟩

/-- An exchange of an empty buffer brings TCK low. -/
theorem sendRecv (h : pipe.Samples P respond pins view) (hc : Clocked P pins view [] a t) :
    ∃ a', Program.Eventual (fun fuel => bitbangSendRecv pipe fuel) a () a' ∧ Clocked P pins view [] a' t ∧
      (pins (view a'.usb).1).level = false := by
  have hempty : a.own.outputLen = 0 := hc.buffers.outputLen
  obtain ⟨a', hsend, hempty', hpending, hchip, -⟩ := h.sendRecv (by rw [hempty]; decide) hc.pending
  have hsamples : samples a.own = clockSamples [] ++ [lastSample] := by
    rw [samples, hempty]
    rfl
  have hpins : pins (view a'.usb).1 = ⟨(pins (view a.usb).1).chain, false⟩ := by
    rw [hchip, h.pins_echo, hsamples, DebugPort.pins_clockSamples]
    rfl
  refine ⟨a', hsend, ⟨⟨hempty', by rw [hempty']; rfl⟩, hpending, ?_, ?_⟩, by rw [hpins]⟩
  · rw [hpins]
    exact hc.rests
  · rw [hpins]
    exact hc.held

/-- The samples of a hardware reset. -/
theorem pins_resetSamples (p : PortPins τ) (hlevel : p.level = false) :
    (resetSamples ++ [lastSample]).foldl P.pinStep p = ⟨{ p.chain with held := P.hardReset p.chain.held }, false⟩ := by
  obtain ⟨chain, level⟩ := p
  obtain rfl : level = false := hlevel
  have hreset (c : Chain τ) : P.pinStep ⟨c, false⟩ ((ntrst ||| nsysrst ||| tms ||| tdi) &&& ~~~nsysrst) =
      ⟨{ c with held := P.hardReset c.held }, false⟩ := rfl
  have hidle (c : Chain τ) : P.pinStep ⟨c, false⟩ (ntrst ||| nsysrst ||| tms ||| tdi) = ⟨c, false⟩ := rfl
  have hlast (c : Chain τ) : P.pinStep ⟨c, false⟩ lastSample = ⟨c, false⟩ := DebugPort.pinStep_low _ _ _
  change P.pinStep (P.pinStep (P.pinStep (P.pinStep (P.pinStep (P.pinStep (P.pinStep ⟨chain, false⟩ _) _) _) _) _) _) _ = _
  rw [hreset, hreset, hreset, hreset, hreset, hidle, hlast]
  simp only [P.hardReset_hardReset]

theorem resetCpu (h : pipe.Samples P respond pins view) (hc : Clocked P pins view [] a t) :
    ∃ a', Program.Eventual (fun fuel => bitbangResetCpu pipe fuel) a () a' ∧
      Clocked P pins view [] a' (P.hardReset t) := by
  obtain ⟨a₁, hsend, hc₁, hlevel⟩ := hc.sendRecv h
  have hempty : a₁.own.outputLen = 0 := hc₁.buffers.outputLen
  have hput := adds_bitbangPut (σ := σ) resetSamples a₁ (by rw [hempty]; decide)
  obtain ⟨own₂, hown₂⟩ : ∃ own₂, own₂ = resetSamples.foldl Bitbang.push a₁.own := ⟨_, rfl⟩
  rw [← hown₂] at hput
  have hlen₂ : own₂.outputLen = 6 := by
    rw [hown₂, outputLen_foldl_push, hempty]
    rfl
  have hsamples₂ : samples own₂ = resetSamples ++ [lastSample] := by
    rw [samples, hown₂, outputLen_foldl_push, bytes_foldl_push, hempty]
    rfl
  obtain ⟨a', hsend', hempty', hpending', hchip', -⟩ := h.sendRecv (a := ⟨own₂, a₁.usb⟩)
    (by rw [hlen₂]; decide) hc₁.pending
  have hpins' := h.pins_echo (view a₁.usb).1 (samples own₂)
  rw [← hchip', hsamples₂, pins_resetSamples _ hlevel] at hpins'
  refine ⟨a', hsend.bind ((Program.Reaches.eventual hput.reaches).bind hsend'), ⟨hempty', by rw [hempty']; rfl⟩,
    hpending', ?_, ?_⟩
  · rw [hpins']
    exact hc₁.rests
  · rw [hpins', ← hc₁.held]
    rfl

/-- The number of a register that is read fits below the word. -/
theorem getLsbD_readNumber (reg : Fin 512) {i : Nat} (hi : 9 ≤ i) :
    ((BitVec.ofNat 32 reg.val ||| BitVec.ofNat 32 irdRead).signExtend 64).getLsbD i = false := by
  have hsmall (j : Nat) (hj : 9 ≤ j) : (BitVec.ofNat 32 reg.val ||| BitVec.ofNat 32 irdRead).getLsbD j = false := by
    have hreg : reg.val.testBit j = false :=
      Nat.testBit_lt_two_pow (reg.isLt.trans_le (Nat.pow_le_pow_right (show 0 < 2 by decide) hj))
    have hread : irdRead.testBit j = false :=
      Nat.testBit_lt_two_pow (lt_of_lt_of_le (show irdRead < 2 ^ 9 by decide)
        (Nat.pow_le_pow_right (show 0 < 2 by decide) hj))
    rw [BitVec.getLsbD_or, BitVec.getLsbD_ofNat, BitVec.getLsbD_ofNat, hreg, hread, Bool.and_false]
    rfl
  have hmsb : (BitVec.ofNat 32 reg.val ||| BitVec.ofNat 32 irdRead).msb = false := by
    rw [BitVec.msb_eq_getLsbD_last]
    exact hsmall 31 (by decide)
  rw [BitVec.getLsbD_signExtend, hmsb, hsmall i hi]
  simp

theorem oncdRead (h : pipe.Samples P respond pins view) (reg : Fin 512) (reglen : RegLen)
    (hc : Clocked P pins view [] a t) :
    ∃ a', Program.Eventual (fun fuel => bitbangOncdRead pipe fuel (BitVec.ofNat 32 reg.val) reglen.val) a
        (P.oncdRead (BitVec.ofNat 32 reg.val) reglen.val t).1 a' ∧
      Clocked P pins view [] a' (P.oncdRead (BitVec.ofNat 32 reg.val) reglen.val t).2 := by
  have hlen := reglen.property
  obtain ⟨data, hdata⟩ : ∃ data : BitVec 64,
      data = (BitVec.ofNat 32 reg.val ||| BitVec.ofNat 32 irdRead).signExtend 64 := ⟨_, rfl⟩
  obtain ⟨output, a', hscan, hc', htdo⟩ := hc.tapData h (some data)
    (adds_dataBits_leBytes (by omega : 9 + reglen.val ≤ 64) data) (length_lowBits _ _) (by omega) (by omega)
  have hvalue : ((((some data).map fun data => bitbangRead output 6 (9 + reglen.val) data).getD 0 >>> 9).setWidth 32 :
      Word) =
      (P.oncdRead (BitVec.ofNat 32 reg.val) reglen.val t).1 := by
    change (bitbangRead output 6 (9 + reglen.val) data >>> 9).setWidth 32 = _
    rw [bitbangRead_eq_ofBits (by rw [DebugPort.scan, DataRegister.length_outputs, length_lowBits]) htdo
      fun i hi => by rw [hdata]; exact getLsbD_readNumber reg (by omega),
      setWidth_ushiftRight_ofBits _ (by decide), hdata]
    rfl
  refine ⟨a', ?_, by rw [hdata] at hc'; exact hc'⟩
  have hgoal := hscan.bind (f := fun _ (data : Option (BitVec 64)) => pure ((data.getD 0 >>> 9).setWidth 32 : Word))
    (Program.Reaches.eventual (Program.reaches_pure _ _))
  rw [hvalue] at hgoal
  rw [hdata] at hgoal
  exact hgoal

theorem oncdWrite (h : pipe.Samples P respond pins view) (value reg : Word) (reglen : RegLen)
    (hc : Clocked P pins view [] a t) :
    ∃ a', Program.Eventual (fun fuel => bitbangOncdWrite pipe fuel value reg reglen.val) a () a' ∧
      Clocked P pins view [] a' (P.oncdWrite value reg reglen.val t) := by
  have hlen := reglen.property
  obtain ⟨_, a', hscan, hc', -⟩ := hc.tapData h none (adds_oncdWriteData value reg reglen) (length_lowBits _ _)
    (by omega) (by omega)
  exact ⟨a', hscan.bind (Program.Reaches.eventual (Program.reaches_pure _ _)), hc'⟩

end Clocked

/-- The FT232R adapter over its bulk endpoints, with the mandatory methods only. `close` gives the
device back and does nothing to the port. -/
def bitbangAdapter (pipe : BulkPipe σ) (fuel : Nat) : Adapter (Attached Bitbang σ) where
  close a := .ok ((), a)
  getIdcode := (bitbangGetIdcode pipe fuel).handle
  cpuStopped := (do return (← bitbangCpuStopped pipe fuel) ≠ 0 : UsbAction Bitbang σ Bool).handle
  stopCpu := (bitbangStopCpu pipe fuel).handle
  resetCpu := (bitbangResetCpu pipe fuel).handle
  oncdWrite value reg nbits := (bitbangOncdWrite pipe fuel value (BitVec.ofNat 32 reg) nbits).handle
  oncdRead reg nbits := (bitbangOncdRead pipe fuel (BitVec.ofNat 32 reg) nbits).handle
  blockWords := 0
  programBlockWords := 0
  stepCpu := none
  runCpu := none
  readBlock := none
  writeBlock := none
  writeNwords := none
  programBlock32 := none
  programBlock32Unprotect := none
  programBlock32Protect := none
  programBlock64 := none
  programBlock32Micron := none
  blockWords_pos h := by simp at h
  programBlockWords_pos h := by simp at h
  unprotect_of_protect h := by simp at h

variable {s : Session (Attached Bitbang σ)} {m : Session τ}

/-- At every call the adapter corresponds to the register-level one. -/
theorem bitbangAdapter_corresponds (h : pipe.Samples P respond pins view) (call : AdapterCall)
    (hs : Session.Pairs (Clocked P pins view []) s m) :
    Corresponds (Session.Pairs (Clocked P pins view [])) (fun fuel => (bitbangAdapter pipe fuel).device call s)
      (P.adapter.device call m) := by
  cases call with
  | close => exact ⟨s, hs, 0, fun _ _ => rfl⟩
  | getIdcode =>
    obtain ⟨a', hcode, hc⟩ := hs.2.getIdcode h
    exact hs.lift (f := fun fuel => (bitbangAdapter pipe fuel).getIdcode) (g := P.adapter.getIdcode)
      (corresponds_of_reaches hcode hc)
  | cpuStopped =>
    obtain ⟨a', hstopped, hc⟩ := hs.2.cpuStopped h
    exact hs.lift (f := fun fuel => (bitbangAdapter pipe fuel).cpuStopped) (g := P.adapter.cpuStopped)
      (corresponds_of_reaches hstopped hc)
  | stopCpu =>
    refine hs.lift ?_
    exact hs.2.stopCpu h
  | resetCpu =>
    obtain ⟨a', hreset, hc⟩ := hs.2.resetCpu h
    exact hs.lift (f := fun fuel => (bitbangAdapter pipe fuel).resetCpu) (g := P.adapter.resetCpu)
      (corresponds_of_reaches hreset hc)
  | oncdWrite value reg nbits =>
    obtain ⟨a', hwrite, hc⟩ := hs.2.oncdWrite h value (BitVec.ofNat 32 reg.val) nbits
    exact hs.lift (f := fun fuel => (bitbangAdapter pipe fuel).oncdWrite value reg.val nbits.val)
      (g := P.adapter.oncdWrite value reg.val nbits.val) (corresponds_of_reaches hwrite hc)
  | oncdRead reg nbits =>
    obtain ⟨a', hread, hc⟩ := hs.2.oncdRead h reg nbits
    exact hs.lift (f := fun fuel => (bitbangAdapter pipe fuel).oncdRead reg.val nbits.val)
      (g := P.adapter.oncdRead reg.val nbits.val) (corresponds_of_reaches hread hc)
  | stepCpu => exact corresponds_nullMethod
  | runCpu => exact corresponds_nullMethod
  | readBlock nwords addr => exact corresponds_nullMethod
  | writeBlock addr data => exact corresponds_nullMethod
  | writeNwords args => exact corresponds_nullMethod
  | programBlock32 args => exact corresponds_nullMethod
  | programBlock32Unprotect args => exact corresponds_nullMethod
  | programBlock32Protect args => exact corresponds_nullMethod
  | programBlock64 args => exact corresponds_nullMethod
  | programBlock32Micron addr data => exact corresponds_nullMethod

/-- Whatever a caller asks, its run over the pins ends as its run over the registers does. -/
theorem bitbangAdapter_run (h : pipe.Samples P respond pins view) (caller : Caller AdapterCall.Reply α)
    (hs : Session.Pairs (Clocked P pins view []) s m) :
    Corresponds (Session.Pairs (Clocked P pins view [])) (fun fuel => caller.run (bitbangAdapter pipe fuel).device s)
      (caller.run P.adapter.device m) :=
  caller.corresponds_run (fun call _ _ hs => bitbangAdapter_corresponds h call hs) hs

/-- What the FT2232 adapter has of its own are the block methods. -/
theorem device_ft2232 {call : AdapterCall} (h : call.Mandatory) :
    (ft2232 P.adapter).device call = P.adapter.device call := by
  cases call with
  | close => rfl
  | getIdcode => rfl
  | cpuStopped => rfl
  | stopCpu => rfl
  | resetCpu => rfl
  | oncdWrite value reg nbits => rfl
  | oncdRead reg nbits => rfl
  | _ => exact h.elim

variable {υ : Type} {pipe' : BulkPipe υ} {view' : υ → Chip τ × List Byte} {s' : Session (Attached MpssePort υ)}

/-- A caller of the mandatory methods gets the same answers from both adapters, or the same exit, in
front of the same processor. -/
theorem adapters_agree (h : pipe.Samples P respond pins view) (h' : pipe'.Drives P view')
    {caller : Caller AdapterCall.Reply α} (hcaller : caller.Makes AdapterCall.Mandatory)
    (hs : Session.Pairs (Clocked P pins view []) s m) (hs' : Session.Pairs (Waiting P view') s' m) :
    ∃ enough, ∀ fuel ≥ enough, (caller.run (mpsseAdapter pipe' fuel).device s').map Prod.fst =
      (caller.run (bitbangAdapter pipe fuel).device s).map Prod.fst := by
  have hmpsse : Corresponds (Session.Pairs (Waiting P view'))
      (fun fuel => caller.run (mpsseAdapter pipe' fuel).device s') (caller.run (ft2232 P.adapter).device m) :=
    caller.corresponds_run (fun call _ _ hs => mpsseAdapter_corresponds h' call hs) hs'
  have hbitbang : Corresponds (Session.Pairs (Clocked P pins view []))
      (fun fuel => caller.run (bitbangAdapter pipe fuel).device s) (caller.run P.adapter.device m) :=
    caller.corresponds_run (fun call _ _ hs => bitbangAdapter_corresponds h call hs) hs
  rw [hcaller.run_eq (fun _ hcall => device_ft2232 hcall) m] at hmpsse
  exact hmpsse.agree hbitbang

/-- The pins of a processor, with the bytes that wait. -/
structure PinDevice (τ : Type) where
  pins : PortPins τ
  pending : List Byte

/-- What a sample does, and the byte that comes back for it. -/
def DebugPort.pinReply (P : DebugPort τ) (p : PortPins τ) (b : Byte) : PortPins τ × Byte :=
  (P.pinStep p b, if P.tdo p.chain then readTdo else 0)

/-- A device that takes every sample and delivers what waits. -/
def pinPipe (P : DebugPort τ) : BulkPipe (PinDevice τ) where
  write bytes s := (some bytes.length, ⟨(echo P.pinReply s.pins bytes).1, s.pending ++ (echo P.pinReply s.pins bytes).2⟩)
  read size s :=
    (some (([0x32, 0x60] ++ s.pending.take (size - 2)).take size), { s with pending := s.pending.drop (size - 2) })
  write_le h := (Option.some.inj h).symm.le
  read_le h := by
    rw [← Option.some.inj h]
    exact List.length_take_le _ _

theorem read_pinPipe {P : DebugPort τ} {size : Nat} (hsize : 2 ≤ size) (s : PinDevice τ) :
    ((pinPipe P).read size s).1 = some ([0x32, 0x60] ++ s.pending.take (size - 2)) := by
  have hlen : ([0x32, 0x60] ++ s.pending.take (size - 2)).length ≤ size := by
    rw [List.length_append, List.length_take]
    simp only [List.length_cons, List.length_nil]
    omega
  exact congrArg some (List.take_of_length_le hlen)

theorem samples_pinPipe (P : DebugPort τ) : (pinPipe P).Samples P P.pinReply id fun s => (s.pins, s.pending) where
  write bytes s hmore := by
    refine ⟨bytes.length, rfl, List.length_pos_iff.mpr hmore, ?_⟩
    rw [List.take_length]
    rfl
  read size s hsize := by
    refine ⟨[0x32, 0x60], s.pending.take (size - 2), read_pinPipe hsize.le s, rfl,
      (List.take_append_drop _ _).symm, rfl, fun hmore => ?_⟩
    have hpos : 0 < s.pending.length := List.length_pos_iff.mpr hmore
    exact List.length_pos_iff.mp (by rw [List.length_take]; omega)
  step _ _ := rfl
  tdo c b := by
    change decide ((if P.tdo c.chain then readTdo else 0) &&& readTdo ≠ 0) = P.tdo c.chain
    cases P.tdo c.chain <;> decide
  whole size s hmore hroom := by
    dsimp only at hroom
    refine ⟨_, read_pinPipe (by omega) s, ?_⟩
    rw [List.take_of_length_le (by omega), List.length_append, Nat.add_comm]
    rfl

/-- The adapter and the pins when they are switched on. -/
def freshPins (t : τ) : Attached Bitbang (PinDevice τ) :=
  ⟨⟨fun _ => 0, 0⟩, ⟨⟨⟨.runTestIdle, [], t⟩, true⟩, []⟩⟩

theorem clocked_freshPins (P : DebugPort τ) (t : τ) :
    Clocked P id (fun s : PinDevice τ => (s.pins, s.pending)) [] (freshPins t) t :=
  ⟨⟨rfl, rfl⟩, rfl, .inl rfl, rfl⟩

set_option maxRecDepth 4000 in
theorem bitbangAdapter_run_stop : ∃ s' enough, ∀ fuel ≥ enough,
    stopCaller.run (bitbangAdapter (pinPipe (ramPort 0x20777001)) fuel).device
      ⟨0, freshPins ⟨3, false, 0, 0, 0, fun _ => 0⟩⟩ = .ok ((0x20777001, true), s') := by
  have hrun := bitbangAdapter_run (samples_pinPipe (ramPort 0x20777001)) stopCaller
    (s := ⟨0, freshPins ⟨3, false, 0, 0, 0, fun _ => 0⟩⟩) (m := ⟨0, ⟨3, false, 0, 0, 0, fun _ => 0⟩⟩)
    ⟨rfl, clocked_freshPins _ _⟩
  have hend : stopCaller.run (ramPort 0x20777001).adapter.device ⟨0, ⟨3, false, 0, 0, 0, fun _ => 0⟩⟩ =
      .ok ((0x20777001, true), ⟨0, ⟨5, true, 0, 0, 0, fun _ => 0⟩⟩) := rfl
  rw [hend] at hrun
  obtain ⟨s', -, enough, henough⟩ := hrun
  exact ⟨s', enough, henough⟩

theorem makes_stopCaller : stopCaller.Makes AdapterCall.Mandatory :=
  .call trivial fun _ => .call trivial fun _ => .call trivial fun _ => .done _

/-- Both adapters in front of one processor. -/
theorem adapters_agree_stop : ∃ enough, ∀ fuel ≥ enough,
    (stopCaller.run (mpsseAdapter (portPipe (ramPort 0x20777001)) fuel).device
      ⟨0, freshDevice ⟨3, false, 0, 0, 0, fun _ => 0⟩⟩).map Prod.fst =
    (stopCaller.run (bitbangAdapter (pinPipe (ramPort 0x20777001)) fuel).device
      ⟨0, freshPins ⟨3, false, 0, 0, 0, fun _ => 0⟩⟩).map Prod.fst :=
  adapters_agree (samples_pinPipe _) (drives_portPipe _) makes_stopCaller
    (m := ⟨0, ⟨3, false, 0, 0, 0, fun _ => 0⟩⟩) ⟨rfl, clocked_freshPins _ _⟩ ⟨rfl, waiting_freshDevice _ _⟩

end Mcprog
