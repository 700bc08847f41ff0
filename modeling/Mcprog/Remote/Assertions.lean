import Mcprog.Remote.ErrorReplies
import Mcprog.Target.Assertions

/-!
# Assertions and the packets of a debugger

The handlers and the methods of the target state by assertions what they expect of a packet. A
debugger can send packets of which this is not true.
-/

namespace Mcprog

open Cells Interaction Program

/-- A packet with which an assertion fails: one with a byte 0, one that writes no bytes of the
registers or too many of them, one that writes a register with other than 4 bytes, and one that
reads nothing. -/
inductive Asserting : List Byte → Prop
  | zero {text : List Byte} (h : 0 ∈ text) : Asserting text
  | writeRegisters {text data : List Byte} (hdata : rpDecodeData text dataBytesMax = some data)
    (h : data.length = 0 ∨ regBytes < data.length) : Asserting (ascii 'G' :: text)
  | writeRegister {text data : List Byte} {regNo : Word}
    (hdata : rpDecodeRegAssignment text dataBytesMax = some (regNo, data)) (h : data.length ≠ 4) :
    Asserting (ascii 'P' :: text)
  | readMemory {text : List Byte} {addr : BitVec 64} (h : rpDecodeMem text = some (addr, 0)) :
    Asserting (ascii 'm' :: text)

variable {σ ε : Type} {A : Adapter σ} {t : Target}

/-- What is asked of a string in the output buffer: `rp_putpkt` finds its end. -/
def Fits (text : List Byte) : Prop := text.length < inOutBufSize

/-- An assertion has failed, in a handler or when an answer is sent. An array that is overrun is not an assertion:
`qRcmd` with more than 2000 digits, or an odd number of them, is not counted here. -/
def Aborted (o : Outcome ProxyEvent (Session σ) Fatal Proxy) : Prop :=
  (∃ text, o.result = .error (.assertion text)) ∨
    ∃ e ∈ o.trace, ∃ reply, e.answer = some reply ∧ inOutBufSize < reply.length

/-- The target is connected: `elvees_connect` has said that it can be restarted, and has written
a status string. -/
structure Proxy.Connected (p : Proxy) : Prop where
  canRestart : p.canRestart = true
  statusString : Fits p.statusString

/-- A program without failed assertions, of which the answers satisfy `P`. -/
abbrev Passes {α : Type} (m : Program ε (Session σ) Fatal α) (P : α → Prop) : Prop :=
  Ends m Fatal.NoAssertion P

/-- An assertion that holds does not fail. -/
theorem passes_assert {c : Prop} [Decidable c] {text : String} (h : c) :
    Passes (assert c text : Program ε (Session σ) Fatal Unit) fun _ => True := by
  rw [assert, if_pos h]
  exact ends_pure trivial

/-- A program without assertions passes, whatever it answers. -/
theorem AssertionFree.passes {α : Type} {m : Program ε (Session σ) Fatal α} (h : AssertionFree m) :
    Passes m fun _ => True := ⟨h, ensures_true m⟩

/-- The number of bytes of a read that goes up to the end of the addresses. -/
theorem readSize_bounds {addr reqSize : BitVec 64} (haddr : ¬addr > maxAddress) (hpos : reqSize > 0)
    (hlimit : reqSize.toNat ≤ dataBytesMax) {size : BitVec 64}
    (hsize : size = if addr + reqSize > maxAddress + 1 then maxAddress + 1 - addr else reqSize) :
    0 < size.toNat ∧ size.toNat ≤ dataBytesMax := by
  have hmax : maxAddress.toNat = 0xFFFFFFFF := rfl
  have hend : (maxAddress + 1).toNat = 0x100000000 := rfl
  have hbytes : dataBytesMax = 0x10000 := rfl
  rw [gt_iff_lt, BitVec.lt_def, hmax] at haddr
  rw [gt_iff_lt, BitVec.lt_def] at hpos
  change 0 < reqSize.toNat at hpos
  rw [hsize]
  split_ifs with h
  · rw [gt_iff_lt, BitVec.lt_def, hend, BitVec.toNat_add] at h
    rw [BitVec.toNat_sub, hend]
    omega
  · omega

section Methods

variable (hA : A.Unasserting)

include hA

/-- The registers are read without a failed assertion, and all of their bytes are counted. -/
theorem elveesReadRegisters_passes (d : ReadData) :
    Passes (elveesReadRegisters A t d) fun r => r.1 = .ok ∧ r.2.1.len = regBytes := by
  have hfrom : ∀ n i t d, AssertionFree (readRegistersFrom A i n t d) := by
    intro n
    induction n with
    | zero => exact fun _ _ _ => stopsFor_pure
    | succ n ih => exact fun _ t _ => (hA.readRegister t _).bind fun _ => ih _ _ _
  exact (hfrom _ _ _ _).passes.bind fun _ _ => ends_pure ⟨rfl, rfl⟩

/-- The registers are written where there is at least one byte, and no more than they have. -/
theorem elveesWriteRegisters_passes {buf : List Byte} (hpos : buf.length > 0)
    (hlen : buf.length ≤ regBytes) : Passes (elveesWriteRegisters A t buf) fun _ => True := by
  have hfrom : ∀ n i t, AssertionFree (writeRegistersFrom A i n t buf) := by
    intro n
    induction n with
    | zero => exact fun _ _ => stopsFor_pure
    | succ n ih =>
      exact fun _ t => stopsFor_ite (fun _ => stopsFor_pure) fun _ =>
        (hA.writeRegister t _ _).bind fun _ => ih _ _
  exact (passes_assert hpos).bind fun _ _ => (passes_assert hlen).bind fun _ _ =>
    (hfrom _ _ _).passes.bind fun _ _ => ends_pure trivial

/-- One register is read: the answer has four bytes where there is one. -/
theorem elveesReadSingleRegister_passes (regNo : Word) (d : ReadData) :
    Passes (elveesReadSingleRegister A t regNo d) fun r =>
      r.1 ≠ .nosupp ∧ (r.1 = .ok → r.2.1.len = 4) :=
  ends_ite (fun _ => ends_pure ⟨nofun, nofun⟩) fun _ =>
    (hA.readRegister t _).passes.bind fun _ _ => ends_pure ⟨nofun, fun _ => rfl⟩

/-- One register is written from four bytes. -/
theorem elveesWriteSingleRegister_passes (regNo : Word) {buf : List Byte} (hlen : buf.length = 4) :
    Passes (elveesWriteSingleRegister A t regNo buf) fun _ => True :=
  (passes_assert hlen).bind fun _ _ => ends_ite (fun _ => ends_pure trivial) fun _ =>
    (hA.writeRegister t _ _).passes.bind fun _ _ => ends_pure trivial

/-- The last bytes of a read come from one word, and nothing is asserted of them. -/
theorem readMemLast_assertionFree (addr reqSize : BitVec 64) (buf : Buffer Byte) (pos : Nat) :
    AssertionFree (readMemLast A addr reqSize buf pos) :=
  (hA.readWord _).bind fun _ => stopsFor_pure

/-- Nothing is asserted of the words of a read. -/
theorem readMemWords_assertionFree (addr reqSize : BitVec 64) (buf : Buffer Byte) (pos : Nat) :
    AssertionFree (readMemWords A addr reqSize buf pos) :=
  stopsFor_ite (fun _ => (hA.block_read _ _).bind fun _ => stopsFor_ite (fun _ => stopsFor_pure)
    fun _ => readMemLast_assertionFree hA _ _ _ _) fun _ => readMemLast_assertionFree hA _ _ _ _

/-- A read of some bytes, within the limit of the caller, is answered with some bytes within it. -/
theorem elveesReadMem_passes (addr : BitVec 64) (buf : Buffer Byte) {reqSize : BitVec 64}
    (hpos : reqSize > 0) (hlimit : reqSize.toNat ≤ dataBytesMax) (actualSize : Nat) :
    Passes (elveesReadMem A addr buf reqSize actualSize) fun r =>
      r.1 ≠ .nosupp ∧ (r.1 = .ok → 0 < r.2.2 ∧ r.2.2 ≤ dataBytesMax) := by
  refine (passes_assert hpos).bind fun _ _ => ends_ite (fun _ => ends_pure ⟨nofun, nofun⟩) fun haddr => ?_
  have hsize := readSize_bounds haddr hpos hlimit rfl
  have hwords := fun addr reqSize buf pos => (readMemWords_assertionFree hA addr reqSize buf pos).passes
  refine ends_ite (fun _ => (hA.readWord _).passes.bind fun _ _ => ?_) fun _ =>
    (hwords _ _ _ _).bind fun _ _ => ends_pure ⟨nofun, fun _ => hsize⟩
  exact ends_ite (fun _ => ends_pure ⟨nofun, fun _ => hsize⟩) fun _ =>
    (hwords _ _ _ _).bind fun _ _ => ends_pure ⟨nofun, fun _ => hsize⟩

/-- Nothing is asserted of what is written to the memory. -/
theorem elveesWriteMem_assertionFree (addr : BitVec 64) (buf : List Byte) :
    AssertionFree (elveesWriteMem A t addr buf) := by
  have hlast : ∀ addr buf, AssertionFree (writeMemLast A t addr buf) := fun _ _ =>
    (hA.readWord _).bind fun _ => hA.writeWord t _ _
  have hwords : ∀ addr buf, AssertionFree (writeMemWords A t addr buf) := fun _ _ =>
    stopsFor_ite (fun _ => (hA.block_write t _ _ _).bind fun _ => stopsFor_ite
      (fun _ => stopsFor_pure) fun _ => hlast _ _) fun _ => hlast _ _
  refine stopsFor_ite (fun _ => stopsFor_pure) fun _ => stopsFor_ite (fun _ => stopsFor_pure) fun _ =>
    stopsFor_ite (fun _ => stopsFor_pure) fun _ => stopsFor_ite (fun _ => ?_) fun _ =>
    (hwords _ _).bind fun _ => stopsFor_pure
  exact (hA.readWord _).bind fun _ => (hA.writeWord t _ _).bind fun _ => stopsFor_ite
    (fun _ => stopsFor_pure) fun _ => (hwords _ _).bind fun _ => stopsFor_pure

/-- The status string of a stopped target has 27 characters. -/
theorem stopStatus_passes {sig : String} (hsig : (asciiText sig).length = 2) :
    Passes (stopStatus A t sig) fun r => r.1.length = 27 := by
  have hreg : ∀ t n, Passes (elveesOutTreg A t n) fun r => r.1.length = 12 := fun t n =>
    (hA.readRegister t n).passes.bind fun _ _ => ends_pure (by simp [wordBytes])
  refine (hreg _ _).bind fun _ hpc => (hreg _ _).bind fun _ hfp => ends_pure ?_
  simp [hsig, hpc, hfp]

/-- A connection leaves a status string that fits the output buffer. -/
theorem elveesConnect_passes : Passes (elveesConnect A t) fun r => r.1 = .ok ∧ Fits r.2.1 :=
  (hA.stop t).passes.bind fun _ _ => ((stopStatus_passes hA rfl).mapEvents _).bind fun _ h =>
    ends_pure ⟨rfl, by rw [Fits, h]; decide⟩

theorem elveesRestart_passes : Passes (elveesRestart A t) fun r => r.1 = .ok :=
  (hA.restart t).passes.bind fun _ _ => ends_pure rfl

/-- A look at the target keeps the status string while it runs, and writes one that fits when it stops. -/
theorem elveesWaitPartial_passes (statusString : List Byte) :
    Passes (elveesWaitPartial A t statusString) fun w => w.implemented = true ∧
      (w.more = true → w.statusString = statusString) ∧ (w.more = false → Fits w.statusString) := by
  refine (hA.isStopped t).passes.bind fun r _ => ends_ite (fun _ => ?_) fun _ =>
    ends_pure ⟨rfl, fun _ => rfl, nofun⟩
  refine ((stopStatus_passes hA ?_).mapEvents _).bind fun _ h =>
    ends_pure ⟨rfl, nofun, fun _ => by rw [Fits, h]; decide⟩
  split
  · rfl
  · rfl

end Methods

/-- A handler without failed assertions, with an answer that fits. -/
abbrev Answered (m : Control σ Handled) : Prop := Passes m fun h => Fits h.outBuf

theorem answered_answerWith {outBuf : List Byte} (h : Fits outBuf) :
    Answered (answerWith t outBuf : Control σ Handled) := ends_pure h

/-- Each of the three short answers fits. -/
theorem fits_rpWriteRetval (ret : RetVal) : Fits (rpWriteRetval ret) := by
  cases ret with
  | ok => rw [Fits]; decide
  | err => rw [Fits]; decide
  | nosupp => rw [Fits]; decide

/-- The digits of the registers are cut where the buffer ends. -/
theorem fits_rpEncodeRegs (d : ReadData) {outBuf : List Byte} (h : Fits outBuf) :
    Fits ((rpEncodeRegs d inOutBufSize).getD outBuf) := by
  rw [rpEncodeRegs]
  split
  · exact h
  · have hlen : ∀ i, (if d.avail.get i ≠ 0 then rpEncodeByte (d.data.get i)
        else [ascii 'x', ascii 'x']).length = 2 := by
      intro i
      split
      · rfl
      · rfl
    rw [Option.getD_some, Fits, List.length_flatMap]
    simp only [hlen, List.map_const', List.sum_replicate, List.length_range, smul_eq_mul]
    omega

/-- The digits of a read are cut where the buffer ends. -/
theorem fits_rpEncodeData (data : Buffer Byte) (len : Nat) {outBuf : List Byte} (h : Fits outBuf) :
    Fits ((rpEncodeData data len inOutBufSize).getD outBuf) := by
  rw [rpEncodeData]
  split
  · exact h
  · rw [Option.getD_some, Fits, List.length_flatMap]
    simp only [rpEncodeByte, List.length_cons, List.length_nil, List.map_const', List.sum_replicate,
      List.length_range, smul_eq_mul]
    omega

/-- An answer made of registers, where the method has one and its length is in the bounds that are asserted. -/
theorem answered_answerRegs {r : RetVal × ReadData × Target} {outBuf : List Byte} (hout : Fits outBuf)
    (hr : r.1 ≠ .nosupp) (hlen : r.1 = .ok → 0 < r.2.1.len ∧ r.2.1.len ≤ dataBytesMax) :
    Answered (answerRegs r outBuf : Control σ Handled) := by
  obtain ⟨ret, d, t⟩ := r
  cases ret with
  | ok =>
    obtain ⟨hpos, hmax⟩ := hlen rfl
    exact (passes_assert hmax).bind fun _ _ => (passes_assert hpos).bind fun _ _ =>
      answered_answerWith (fits_rpEncodeRegs d hout)
  | err => exact answered_answerWith (fits_rpWriteRetval _)
  | nosupp => exact absurd rfl hr

/-- A text that starts with a character. -/
theorem eq_cons_of_headD {text : List Byte} {c : Byte} (hc : c ≠ 0) (h : text.headD 0 = c) :
    text = c :: text.tail := by
  cases text with
  | nil => exact absurd h.symm hc
  | cons b rest => rw [← show b = c from h, List.tail_cons]

section Handlers

variable (hA : A.Unasserting) {inBuf outBuf : List Byte}

include hA

theorem answered_readRegisters (amb : Ambient) (hout : Fits outBuf) :
    Answered (handleReadRegistersCommand A t amb outBuf) := by
  refine ((elveesReadRegisters_passes hA _).mapEvents _).bind fun r hr => ?_
  refine answered_answerRegs hout (by rw [hr.1]; nofun) fun _ => ?_
  rw [hr.2]
  decide

/-- `G` is answered where its data have as many bytes as the method asserts. -/
theorem answered_writeRegisters (h : ∀ data, rpDecodeData inBuf.tail dataBytesMax = some data →
    data.length > 0 ∧ data.length ≤ regBytes) : Answered (handleWriteRegistersCommand A t inBuf) := by
  rw [handleWriteRegistersCommand]
  cases hdata : rpDecodeData inBuf.tail dataBytesMax with
  | none => exact answered_answerWith (fits_rpWriteRetval _)
  | some data =>
    obtain ⟨hpos, hlen⟩ := h data hdata
    exact ((elveesWriteRegisters_passes hA hpos hlen).mapEvents _).bind fun r _ =>
      answered_answerWith (fits_rpWriteRetval _)

/-- `p` is answered whatever register it names. -/
theorem answered_readSingleRegister (amb : Ambient) (hout : Fits outBuf) :
    Answered (handleReadSingleRegisterCommand A t amb inBuf outBuf) := by
  rw [handleReadSingleRegisterCommand]
  split
  · exact answered_answerWith (fits_rpWriteRetval _)
  · refine ((elveesReadSingleRegister_passes hA _ _).mapEvents _).bind fun r hr => ?_
    refine answered_answerRegs hout hr.1 fun hok => ?_
    rw [hr.2 hok]
    decide

/-- `P` is answered where its data are four bytes. -/
theorem answered_writeSingleRegister (h : ∀ regNo data,
    rpDecodeRegAssignment inBuf.tail dataBytesMax = some (regNo, data) → data.length = 4) :
    Answered (handleWriteSingleRegisterCommand A t inBuf) := by
  rw [handleWriteSingleRegisterCommand]
  cases hdata : rpDecodeRegAssignment inBuf.tail dataBytesMax with
  | none => exact answered_answerWith (fits_rpWriteRetval _)
  | some r =>
    obtain ⟨regNo, data⟩ := r
    have hlen := h regNo data hdata
    refine (passes_assert ?_).bind fun _ _ => ?_
    · rw [hlen]
      decide
    · exact ((elveesWriteSingleRegister_passes hA regNo hlen).mapEvents _).bind fun _ _ =>
        answered_answerWith (fits_rpWriteRetval _)

/-- `m` is answered unless it asks for no bytes. -/
theorem answered_readMemory (amb : Ambient) (hout : Fits outBuf)
    (h : ∀ addr, rpDecodeMem inBuf.tail ≠ some (addr, 0)) :
    Answered (handleReadMemoryCommand A t amb inBuf outBuf) := by
  rw [handleReadMemoryCommand]
  cases hmem : rpDecodeMem inBuf.tail with
  | none => exact answered_answerWith (fits_rpWriteRetval _)
  | some r =>
    obtain ⟨addr, len⟩ := r
    have hlen : 0 < len.toNat := by
      rw [Nat.pos_iff_ne_zero]
      intro hzero
      exact h addr (by rw [hmem, BitVec.eq_of_toNat_eq (y := 0) hzero])
    obtain ⟨size, hsize⟩ : ∃ size, size = if len > readLimit then readLimit else len := ⟨_, rfl⟩
    have hbounds : 0 < size.toNat ∧ size.toNat ≤ 184 := by
      have hlimit : readLimit.toNat = 184 := rfl
      rw [hsize]
      split_ifs with hif
      · omega
      · rw [gt_iff_lt, BitVec.lt_def, hlimit] at hif
        omega
    have hwide : (size.setWidth 64).toNat = size.toNat := by
      rw [BitVec.toNat_setWidth]
      omega
    have hpos : size.setWidth 64 > 0 := by
      rw [gt_iff_lt, BitVec.lt_def, hwide]
      exact hbounds.1
    have hlimit : (size.setWidth 64).toNat ≤ dataBytesMax := by
      rw [hwide]
      exact le_trans hbounds.2 (by decide)
    dsimp only
    rw [← hsize]
    refine ((elveesReadMem_passes hA addr amb.read.data hpos hlimit _).mapEvents _).bind fun r hr => ?_
    obtain ⟨ret, buf, n⟩ := r
    cases ret with
    | ok =>
      obtain ⟨hpos, hmax⟩ := hr.2 rfl
      exact (passes_assert hmax).bind fun _ _ => (passes_assert hpos).bind fun _ _ =>
        answered_answerWith (fits_rpEncodeData _ _ hout)
    | err => exact answered_answerWith (fits_rpWriteRetval _)
    | nosupp => exact absurd rfl hr.1

/-- A packet that writes to the memory is answered, whatever its data are. -/
theorem answered_writeMemory : Answered (handleWriteMemory A t inBuf) := by
  have hcommand : Passes (handleWriteMemoryCommand (fun addr data =>
      calls (elveesWriteMem A t addr data)) inBuf) Fits := by
    have hret := fits_rpWriteRetval .err
    unfold handleWriteMemoryCommand
    refine ends_ite (fun _ => ?_) fun _ => ends_pure hret
    split
    · exact ends_pure hret
    · refine ends_ite (fun _ => ends_pure hret) fun _ => ?_
      split
      · exact ends_pure hret
      · exact ends_ite (fun _ => ends_pure hret) fun _ =>
          (assertionFree_calls (elveesWriteMem_assertionFree hA _ _)).passes.bind fun _ _ =>
            ends_pure (fits_rpWriteRetval _)
  exact hcommand.bind fun _ h => answered_answerWith h

/-- A packet for a breakpoint is answered, whatever its type is. -/
theorem answered_breakpoint : Answered (handleBreakpointCommand A t inBuf) := by
  have hadd : ∀ type addr, AssertionFree (elveesAddBreak A type addr) := by
    intro type addr
    unfold elveesAddBreak
    split
    · exact (hA.addBreak _ _).bind fun _ => stopsFor_pure
    · exact (hA.addBreak _ _).bind fun _ => stopsFor_pure
    · exact (hA.addBreak _ _).bind fun _ => stopsFor_pure
    · exact (hA.addBreak _ _).bind fun _ => stopsFor_pure
    · exact stopsFor_pure
  rw [handleBreakpointCommand]
  split
  · exact answered_answerWith (fits_rpWriteRetval _)
  · refine (assertionFree_calls ?_).passes.bind fun _ _ => answered_answerWith (fits_rpWriteRetval _)
    exact stopsFor_ite (fun _ => hadd _ _) fun _ => (hA.removeBreak _).bind fun _ => stopsFor_pure

omit hA in
/-- A command of the monitor ends the program only where it runs over its arrays, which is no assertion. -/
theorem elveesRemcmd_error {text : List Byte} {e : Fatal} (h : elveesRemcmd text = .error e) :
    e = .overrun := by
  unfold elveesRemcmd at h
  split at h
  · exact nomatch h
  · split at h
    · exact (Except.error.inj h).symm
    · exact nomatch h
    · split at h
      · exact (Except.error.inj h).symm
      · split at h
        · exact nomatch h
        · split at h
          · exact nomatch h
          · exact nomatch h

omit hA in
/-- The queries are answered, unless one of them runs over its arrays. -/
theorem answered_query (amb : Ambient) (pkt : Packet) (hout : Fits outBuf) :
    Answered (handleQueryCommand t amb pkt outBuf : Control σ Handled) := by
  have hret : ∀ ret, Answered (answerWith t (rpWriteRetval ret) : Control σ Handled) :=
    fun ret => answered_answerWith (fits_rpWriteRetval ret)
  have hcrc : Fits (crcQuery pkt.text) := by
    rw [crcQuery]
    split
    · exact fits_rpWriteRetval _
    · exact fits_rpWriteRetval _
  have hlist : Fits (listQuery amb pkt.text) := by
    rw [listQuery]
    split
    · exact fits_rpWriteRetval _
    · split
      · exact fits_rpWriteRetval _
      · exact fits_rpWriteRetval _
  have hoffsets : Fits offsetsQuery := by
    rw [Fits]
    decide
  unfold handleQueryCommand
  refine ends_ite (fun _ => answered_answerWith hout) fun _ =>
    ends_ite (fun _ => answered_answerWith hoffsets) fun _ =>
    ends_ite (fun _ => answered_answerWith hcrc) fun _ => ends_ite (fun _ => hret _) fun _ =>
    ends_ite (fun _ => ?_) fun _ => ends_ite (fun _ => answered_answerWith hlist) fun _ => hret _
  split
  · rename_i e he
    rw [elveesRemcmd_error he]
    exact ends_stop fun _ => nofun
  · exact ends_pure (fits_rpWriteRetval _)

/-- Every handler passes on a packet with which no assertion fails. -/
theorem answered_handlePacket (amb : Ambient) {pkt : Packet} (hout : Fits outBuf)
    (hpkt : ¬Asserting pkt.text) : Answered (handlePacket A t amb pkt outBuf) := by
  have hret : ∀ ret, Answered (answerWith t (rpWriteRetval ret) : Control σ Handled) :=
    fun ret => answered_answerWith (fits_rpWriteRetval ret)
  have hthread : Fits (handleThreadCommands pkt.text outBuf) := by
    unfold handleThreadCommands
    split
    · exact hout
    · split
      · split
        · exact fits_rpWriteRetval _
        · exact fits_rpWriteRetval _
      · exact hout
  have halive : Fits (handleThreadAliveCommand amb pkt.text) := by
    unfold handleThreadAliveCommand
    split
    · exact fits_rpWriteRetval _
    · dsimp only
      split
      · exact fits_rpWriteRetval _
      · split
        · exact fits_rpWriteRetval _
        · exact fits_rpWriteRetval _
  unfold handlePacket
  refine ends_ite (fun _ => answered_readRegisters hA amb hout) fun _ =>
    ends_ite (fun hG => answered_writeRegisters hA fun data hdata => ?_) fun _ =>
    ends_ite (fun _ => answered_answerWith hthread) fun _ =>
    ends_ite (fun hm => answered_readMemory hA amb hout fun addr hmem => ?_) fun _ =>
    ends_ite (fun _ => answered_writeMemory hA) fun _ =>
    ends_ite (fun _ => answered_readSingleRegister hA amb hout) fun _ =>
    ends_ite (fun hP => answered_writeSingleRegister hA fun regNo data hdata => ?_) fun _ =>
    ends_ite (fun _ => answered_query amb pkt hout) fun _ =>
    ends_ite (fun _ => answered_answerWith (fits_rpWriteRetval _)) fun _ =>
    ends_ite (fun _ => answered_answerWith halive) fun _ =>
    ends_ite (fun _ => answered_breakpoint hA) fun _ => answered_answerWith hout
  · have htext := eq_cons_of_headD (by decide) hG
    by_contra hlen
    exact hpkt (htext ▸ .writeRegisters hdata (by omega))
  · exact hpkt (eq_cons_of_headD (by decide) hm ▸ .readMemory hmem)
  · by_contra hlen
    exact hpkt (eq_cons_of_headD (by decide) hP ▸ .writeRegister hdata hlen)

/-- A running command has a status string only once the target has stopped. -/
theorem handleRunningCommands_passes (running : Bool) {statusString : List Byte}
    (hstatus : Fits statusString) (hout : Fits outBuf) :
    Passes (handleRunningCommands A t running statusString inBuf outBuf) fun r =>
      Fits r.outBuf ∧ Fits r.statusString := by
  have hresume : ∀ sig addrText, AssertionFree (resumeTarget A t inBuf sig addrText) := by
    intro sig addrText
    have hcurrent : ∀ step, AssertionFree (elveesResumeFromCurrent A t step sig) := fun step =>
      (stopsFor_ite (fun _ => hA.step t) fun _ => hA.resume t).bind fun _ => stopsFor_pure
    unfold resumeTarget
    refine stopsFor_ite (fun _ => stopsFor_pure) fun _ => ?_
    split
    · exact hcurrent _
    · split
      · exact stopsFor_pure
      · exact (hA.run t _).bind fun _ => stopsFor_pure
  rw [handleRunningCommands]
  split
  · exact ends_pure ⟨fits_rpWriteRetval .err, hstatus⟩
  · refine (hresume _ _).passes.bind fun r _ => ends_ite
      (fun _ => ends_pure ⟨fits_rpWriteRetval r.1, hstatus⟩) fun _ => ?_
    refine (elveesWaitPartial_passes hA statusString).bind fun w hw => ?_
    have hnew : Fits w.statusString := by
      cases hmore : w.more with
      | true => rwa [hw.2.1 hmore]
      | false => exact hw.2.2 hmore
    refine ends_ite (fun _ => ends_pure ⟨fits_rpWriteRetval w.ret, hnew⟩) fun _ =>
      ends_ite (fun himp => absurd hw.1 himp) fun _ =>
      ends_ite (fun _ => (passes_assert (show _ < _ from hnew)).bind fun _ _ => ends_pure ⟨hnew, hnew⟩)
        fun _ => ends_pure ⟨hout, hnew⟩

end Handlers

/-- An answer that is sent fits. -/
def ProxyEvent.AnswerFits (e : ProxyEvent) : Prop := ∀ reply, e.answer = some reply → Fits reply

/-- A part of the proxy that does not abort, and leaves an answer with `P`. -/
structure Unaborted {α : Type} (m : ProxyProgram σ α) (P : α → Prop) : Prop where
  passes : Passes m P
  issues : Issues m ProxyEvent.AnswerFits

namespace Unaborted

variable {α β : Type} {m : ProxyProgram σ α} {f : α → ProxyProgram σ β} {P : α → Prop} {Q : β → Prop}

/-- Two parts of the proxy, one after the other. -/
theorem bind (hm : Unaborted m P) (hf : ∀ a, P a → Unaborted (f a) Q) : Unaborted (m >>= f) Q :=
  ⟨hm.passes.bind fun a h => (hf a h).passes,
    hm.issues.bind_ensures hm.passes.2 fun a h => (hf a h).issues⟩

/-- An answer is given, and nothing is sent. -/
theorem pure {a : α} (h : P a) : Unaborted (pure a : ProxyProgram σ α) P := ⟨ends_pure h, issues_pure⟩

/-- Whichever way the proxy goes, it does not abort. -/
theorem ite {c : Prop} [Decidable c] {m' : ProxyProgram σ α} (hm : c → Unaborted m P)
    (hm' : ¬ c → Unaborted m' P) : Unaborted (if c then m else m') P := by
  by_cases h : c
  · rw [if_pos h]
    exact hm h
  · rw [if_neg h]
    exact hm' h

/-- A method of the target inside the proxy. -/
theorem onTarget {m : Control σ α} (h : Passes m P) : Unaborted (onTarget m) P :=
  ⟨h.mapEvents _, issues_mapEvents fun _ => nofun⟩

theorem emit {e : ProxyEvent} (h : e.AnswerFits) :
    Unaborted (emit e : ProxyProgram σ Unit) fun _ => True :=
  ⟨AssertionFree.passes stopsFor_emit, issues_emit h⟩

/-- A part of the proxy that does not abort has not aborted. -/
theorem not_aborted {m : ProxyProgram σ Proxy} {P : Proxy → Prop} (h : Unaborted m P) (s : Session σ) :
    ¬Aborted (m s) := by
  rintro (⟨text, hr⟩ | ⟨e, he, reply, hanswer, hlen⟩)
  · exact h.passes.1 s _ hr text rfl
  · have hfits := h.issues s e he reply hanswer
    rw [Fits] at hfits
    omega

end Unaborted

section MainLoop

variable (hA : A.Unasserting) {p : Proxy}

omit hA in
/-- An assertion of the proxy itself that holds. -/
theorem unaborted_assert {c : Prop} [Decidable c] {text : String} (h : c) :
    Unaborted (assert c text : ProxyProgram σ Unit) fun _ => True := by
  rw [assert, if_pos h]
  exact .pure trivial

omit hA in
/-- What is in the output buffer is sent. -/
theorem unaborted_putAnswer (hp : p.Connected) {e : ProxyEvent} (he : e.AnswerFits) :
    Unaborted (putAnswer p e : ProxyProgram σ Proxy) Proxy.Connected := by
  have hsend : Unaborted (if p.inputError then Pure.pure () else emit e : ProxyProgram σ Unit)
      fun _ => True := Unaborted.ite (fun _ => .pure trivial) fun _ => .emit he
  exact hsend.bind fun _ _ => .pure hp

omit hA in
/-- An event that is no answer. -/
theorem answerFits_of_none {e : ProxyEvent} (h : e.answer = none) : e.AnswerFits :=
  fun _ heq => nomatch h.symm.trans heq

omit hA in
/-- `rp_putpkt` finds the end of a text that fits. -/
theorem answerFits_reply {text : List Byte} (h : Fits text) : (ProxyEvent.reply text).AnswerFits :=
  fun _ heq => Option.some.inj heq ▸ h

omit hA in
/-- The same of a reply that tells why the target has stopped. -/
theorem answerFits_stopReply {text : List Byte} (h : Fits text) :
    (ProxyEvent.stopReply text).AnswerFits := fun _ heq => Option.some.inj heq ▸ h

omit hA in
/-- A handler that answers leaves the proxy connected. -/
theorem unaborted_handled (hp : p.Connected) {m : Control σ Handled} (hm : Answered m) :
    Unaborted (processHandled p m) Proxy.Connected := by
  have hconsole : ∀ texts, Unaborted (consoleOutput texts : ProxyProgram σ Unit) fun _ => True := by
    intro texts
    induction texts with
    | nil => exact .pure trivial
    | cons text texts ih => exact (Unaborted.emit (answerFits_of_none rfl)).bind fun _ _ => ih
  exact (Unaborted.onTarget hm).bind fun h hfits => (hconsole _).bind fun _ _ =>
    unaborted_putAnswer (p := { p with target := h.target }) ⟨hp.canRestart, hp.statusString⟩
      (answerFits_reply hfits)

include hA

/-- The packets that resume the target leave the proxy connected. -/
theorem unaborted_running (hp : p.Connected) {inBuf outBuf : List Byte} (hout : Fits outBuf) :
    Unaborted (processRunning A p inBuf outBuf) Proxy.Connected := by
  refine (Unaborted.onTarget (handleRunningCommands_passes hA _ hp.statusString hout)).bind
    fun r hr => ?_
  have hp' : Proxy.Connected { p with
      target := r.target, statusString := r.statusString, targetRunning := r.targetRunning } :=
    ⟨hp.canRestart, hr.2⟩
  exact Unaborted.ite (fun _ => .pure hp') fun _ => Unaborted.ite
    (fun _ => unaborted_putAnswer hp' (answerFits_stopReply hr.1))
    fun _ => unaborted_putAnswer hp' (answerFits_reply hr.1)

/-- Nothing is asserted when the target is closed. -/
theorem elveesClose_passes (t : Target) : Passes (elveesClose A t) fun _ => True :=
  (hA.resume t).passes

/-- A session is ended without a failed assertion. -/
theorem unaborted_closeSession (hp : p.Connected) :
    Unaborted (closeSession A p) Proxy.Connected :=
  (Unaborted.onTarget (elveesClose_passes hA _)).bind fun _ _ => (Unaborted.emit (answerFits_of_none rfl)).bind
    fun _ _ => .pure ⟨hp.canRestart, hp.statusString⟩

/-- What happens where the target cannot be restarted. -/
theorem unaborted_restartFailed (hp : p.Connected) (t : Target) (ret : Int) :
    Unaborted (do
      let t ← onTarget (elveesClose A t)
      emit (.reply (rpWriteRetval .err))
      emit .closed
      return (ret, { p with target := t }) : ProxyProgram σ (Int × Proxy)) fun r => r.2.Connected :=
  (Unaborted.onTarget (elveesClose_passes hA _)).bind fun _ _ =>
    (Unaborted.emit (answerFits_reply (fits_rpWriteRetval .err))).bind fun _ _ =>
    (Unaborted.emit (answerFits_of_none rfl)).bind fun _ _ => .pure ⟨hp.canRestart, hp.statusString⟩

/-- `k` leaves the proxy connected, whatever it makes of the session. -/
theorem unaborted_kill (hp : p.Connected) : Unaborted (processKill A p) Proxy.Connected := by
  have hkill : Unaborted (handleKillCommand A p) fun r => r.2.Connected := by
    refine Unaborted.ite (fun _ => (unaborted_closeSession hA hp).bind fun p' hp' => ?_) fun _ =>
      Unaborted.ite (fun _ => .pure hp) fun _ => ?_
    · exact Unaborted.ite (fun hno => absurd hp'.canRestart hno) fun _ => .pure hp'
    · refine (Unaborted.onTarget (elveesRestart_passes hA)).bind fun r hr => ?_
      obtain ⟨ret, t⟩ := r
      obtain rfl : ret = .ok := hr
      exact (unaborted_assert (by decide)).bind fun _ _ => Unaborted.ite
        (fun _ => unaborted_restartFailed hA hp t 0)
        fun _ => .pure ⟨hp.canRestart, hp.statusString⟩
  exact hkill.bind fun r hr => .pure ⟨hr.canRestart, hr.statusString⟩

/-- `R` leaves the proxy connected, with an answer or without. -/
theorem unaborted_restart (hp : p.Connected) {outBuf : List Byte} (hout : Fits outBuf) :
    Unaborted (processRestart A p outBuf) Proxy.Connected := by
  have hrestart : Unaborted (handleRestartTargetCommand A p) fun r => r.2.Connected := by
    refine Unaborted.ite (fun _ => .pure hp) fun _ => (unaborted_assert hp.canRestart).bind fun _ _ => ?_
    refine (Unaborted.onTarget (elveesRestart_passes hA)).bind fun r _ => ?_
    exact Unaborted.ite (fun _ => unaborted_restartFailed hA hp r.2 (-1))
      fun _ => .pure ⟨hp.canRestart, hp.statusString⟩
  refine hrestart.bind fun r hr => ?_
  have hp' : Proxy.Connected { r.2 with
      doConnect := r.1, doReinitialize := if r.1 = -1 then true else Proxy.doReinitialize r.2 } :=
    ⟨hr.canRestart, hr.statusString⟩
  exact Unaborted.ite (fun _ => .pure hp') fun _ => unaborted_putAnswer hp' (answerFits_reply hout)

/-- `D` is answered before the session ends. -/
theorem unaborted_detach (hp : p.Connected) {outBuf : List Byte} (hout : Fits outBuf) :
    Unaborted (handleDetachCommand A p outBuf) Proxy.Connected :=
  (Unaborted.onTarget (elveesClose_passes hA _)).bind fun _ _ =>
    (Unaborted.emit (answerFits_reply hout)).bind fun _ _ => (Unaborted.emit (answerFits_of_none rfl)).bind fun _ _ =>
    Unaborted.ite (fun hno => absurd hp.canRestart hno) fun _ => .pure ⟨hp.canRestart, hp.statusString⟩

/-- A packet with which no assertion fails. -/
theorem unaborted_packet (hp : p.Connected) {pkt : Packet} (amb : Ambient)
    (hpkt : ¬Asserting pkt.text) : Unaborted (processPacket A p pkt amb) Proxy.Connected := by
  have hnosupp := fits_rpWriteRetval .nosupp
  have hzero : 0 ∉ pkt.text := fun h => hpkt (.zero h)
  refine (unaborted_assert hzero).bind fun _ _ => ?_
  refine Unaborted.ite (fun _ => ?_) fun _ =>
    Unaborted.ite (fun _ => unaborted_putAnswer hp (answerFits_reply hp.statusString)) fun _ =>
    Unaborted.ite (fun _ => unaborted_running hA hp hnosupp) fun _ =>
    Unaborted.ite (fun _ => (unaborted_detach hA hp hnosupp).bind fun _ hp' =>
      .pure ⟨hp'.canRestart, hp'.statusString⟩) fun _ =>
    Unaborted.ite (fun _ => unaborted_kill hA hp) fun _ =>
    Unaborted.ite (fun _ => unaborted_restart hA hp hnosupp) fun _ =>
    unaborted_handled hp (answered_handlePacket hA amb hnosupp hpkt)
  exact Unaborted.ite
    (fun _ => unaborted_putAnswer (p := { p with extendedProtocol := true })
      ⟨hp.canRestart, hp.statusString⟩ (answerFits_reply (fits_rpWriteRetval .ok)))
    fun _ => unaborted_putAnswer hp (answerFits_reply hnosupp)

/-- The target is connected, or it will be before the next packet is taken. -/
structure Proxy.Prepared (p : Proxy) : Prop where
  canRestart : p.canRestart = true ∨ p.doReinitialize = true ∨ p.doConnect ≠ 0
  statusString : Fits p.statusString

omit hA in
/-- A connected proxy is prepared for what comes. -/
theorem Proxy.Connected.prepared (h : p.Connected) : p.Prepared := ⟨.inl h.canRestart, h.statusString⟩

omit hA in
/-- The proxy is prepared before its first input. -/
theorem started_prepared (t : Target) : (Proxy.started t).Prepared :=
  ⟨.inr (.inl rfl), (by decide : 0 < inOutBufSize)⟩

omit hA in
/-- An error on the connection ends the session, and a new one may begin. -/
theorem afterInputError_prepared (hp : p.Prepared) : (afterInputError A p).Ensures Proxy.Prepared := by
  refine ensures_ite (fun _ => ?_) fun _ => ensures_pure hp
  have hclose : (closeSession A { p with inputError := false }).Ensures fun p' =>
      p'.statusString = p.statusString :=
    ensures_bind fun _ => ensures_bind fun _ => ensures_pure rfl
  exact hclose.bind fun p' h => ensures_pure ⟨.inr (.inl rfl), h ▸ hp.statusString⟩

omit hA in
/-- A new session begins with the target to be connected. -/
theorem acceptSession_prepared (hp : p.Prepared) : (acceptSession p : ProxyProgram σ Proxy).Ensures
    fun p' => Fits p'.statusString ∧ (p'.doConnect = 0 → p'.canRestart = true) := by
  refine ensures_ite (fun _ => ensures_bind fun _ => ensures_pure ⟨hp.statusString, nofun⟩) fun hre =>
    ensures_pure ⟨hp.statusString, fun hcon => ?_⟩
  rcases hp.canRestart with h | h | h
  · exact h
  · exact absurd h hre
  · exact absurd hcon h

/-- Where a turn goes on to a packet the target is connected. -/
theorem connectTarget_connected (hstatus : Fits p.statusString)
    (hcan : p.doConnect = 0 → p.canRestart = true) :
    (connectTarget A p).Ensures fun r => r.2.Connected := by
  refine ensures_ite (fun _ => ?_) fun hcon => ensures_pure ⟨hcan (not_not.mp hcon), hstatus⟩
  refine ((elveesConnect_passes hA).2.mapEvents _).bind fun r hr => ?_
  obtain ⟨ret, statusString, t⟩ := r
  obtain ⟨rfl, hfits⟩ : ret = .ok ∧ Fits statusString := hr
  exact ensures_ite (fun h => absurd rfl h) fun _ => ensures_pure ⟨rfl, hfits⟩

/-- A look at the running target leaves the proxy connected. -/
theorem pollTarget_connected (hp : p.Connected) : (pollTarget A p).Ensures Proxy.Connected := by
  refine ensures_ite (fun _ => ?_) fun _ => ensures_pure hp
  refine ((elveesWaitPartial_passes hA p.statusString).2.mapEvents _).bind fun w hw =>
    ensures_bind fun _ => ?_
  have hnew : Fits w.statusString := by
    cases hmore : w.more with
    | true => rw [hw.2.1 hmore]; exact hp.statusString
    | false => exact hw.2.2 hmore
  exact ensures_ite (fun _ => ensures_bind fun _ => ensures_pure ⟨hp.canRestart, hnew⟩) fun _ =>
    ensures_ite (fun _ => ensures_bind fun _ => ensures_bind fun _ => ensures_pure ⟨hp.canRestart, hnew⟩)
      fun _ => ensures_pure ⟨hp.canRestart, hnew⟩

end MainLoop

/-- The program ends at a failed assertion, before anything else can end it. -/
def Asserts {α : Type} (m : Program ε (Session σ) Fatal α) (s : Session σ) : Prop :=
  ∃ text, (m s).result = .error (.assertion text)

/-- Where the first part fails an assertion, so does the whole. -/
theorem Asserts.bind {α β : Type} {m : Program ε (Session σ) Fatal α}
    {f : α → Program ε (Session σ) Fatal β} {s : Session σ} (h : Asserts m s) :
    Asserts (m >>= f) s := by
  obtain ⟨text, h⟩ := h
  exact ⟨text, by rw [bind_apply, h]⟩

/-- An assertion that does not hold fails. -/
theorem asserts_assert {c : Prop} [Decidable c] {text : String} {s : Session σ} (h : ¬c) :
    Asserts (assert c text : Program ε (Session σ) Fatal Unit) s := by
  rw [assert, if_neg h]
  exact ⟨text, rfl⟩

/-- What follows an assertion that holds. -/
theorem asserts_after {α : Type} {c : Prop} [Decidable c] {text : String} {s : Session σ}
    {f : Unit → Program ε (Session σ) Fatal α} (hc : c) (h : Asserts (f ()) s) :
    Asserts (assert c text >>= f) s := by
  rw [assert, if_pos hc, pure_bind]
  exact h

/-- The registers are not written from no bytes, nor from more than they have. -/
theorem asserts_writeRegisters {data : List Byte} (h : data.length = 0 ∨ regBytes < data.length)
    (s : Session σ) : Asserts (elveesWriteRegisters A t data) s := by
  rcases h with h | h
  · exact (asserts_assert (by omega)).bind
  · exact asserts_after (by omega) (asserts_assert (by omega)).bind

/-- A register is not written from other than four bytes. -/
theorem asserts_writeSingleRegister {data : List Byte} (h : data.length ≠ 4) (regNo : Word)
    (s : Session σ) : Asserts (elveesWriteSingleRegister A t regNo data) s :=
  (asserts_assert h).bind

theorem asserts_readMem {reqSize : BitVec 64} (h : ¬reqSize > 0) (addr : BitVec 64) (buf : Buffer Byte)
    (actualSize : Nat) (s : Session σ) : Asserts (elveesReadMem A addr buf reqSize actualSize) s :=
  (asserts_assert h).bind

/-- A packet that reads nothing, or has other than four bytes for a register, or a bad number of
bytes for the registers. -/
theorem asserts_packet {p : Proxy} {pkt : Packet} (amb : Ambient) (hpkt : Asserting pkt.text)
    (s : Session σ) : Asserts (processPacket A p pkt amb) s := by
  by_cases hzero : 0 ∈ pkt.text
  · exact (asserts_assert (not_not.mpr hzero)).bind
  refine asserts_after hzero ?_
  obtain ⟨text, behind⟩ := pkt
  cases hpkt with
  | zero h => exact absurd h hzero
  | @writeRegisters text data hdata h =>
    have hhandle : Asserts (handleWriteRegistersCommand A p.target (ascii 'G' :: text)) s := by
      rw [handleWriteRegistersCommand, List.tail_cons, hdata]
      exact Asserts.bind (asserts_writeRegisters (t := p.target) h s)
    exact Asserts.bind (m := onTarget _) hhandle
  | @writeRegister text data regNo hdata h =>
    have hhandle : Asserts (handleWriteSingleRegisterCommand A p.target (ascii 'P' :: text)) s := by
      rw [handleWriteSingleRegisterCommand, List.tail_cons, hdata]
      dsimp only
      by_cases hlen : data.length < dataBytesMax
      · exact asserts_after hlen (Asserts.bind (asserts_writeSingleRegister (t := p.target) h regNo s))
      · exact (asserts_assert hlen).bind
    exact Asserts.bind (m := onTarget _) hhandle
  | @readMemory text addr h =>
    have hhandle : Asserts (handleReadMemoryCommand A p.target amb (ascii 'm' :: text)
        (rpWriteRetval .nosupp)) s := by
      have hnone : ¬((if (0 : Word) > readLimit then readLimit else 0).setWidth 64 > (0 : BitVec 64)) := by
        decide
      rw [handleReadMemoryCommand, List.tail_cons, h]
      exact Asserts.bind (m := calls _) (asserts_readMem (A := A) hnone addr amb.read.data
        (if (0 : Word) > readLimit then readLimit else 0).toNat s)
    exact Asserts.bind (m := onTarget _) hhandle

/-- For every packet that comes while the target is connected, an assertion fails exactly where
the packet has a byte 0, writes no bytes of the registers or more than there are, writes a register
with other than 4 bytes, or reads nothing. -/
theorem processPacket_aborted_iff (hA : A.Unasserting) {p : Proxy} (hp : p.Connected) (pkt : Packet)
    (amb : Ambient) (s : Session σ) :
    Aborted (processPacket A p pkt amb s) ↔ Asserting pkt.text := by
  constructor
  · intro h
    by_contra hpkt
    exact (unaborted_packet hA hp amb hpkt).not_aborted s h
  · exact fun h => .inl (asserts_packet amb h s)

/-- An adapter that answers from a script has no assertions. -/
theorem scripted_unasserting (idcode default : Word) : (scripted idcode default).Unasserting where
  close _ _ := nofun
  cpuStopped _ _ := nofun
  stopCpu _ _ := nofun
  resetCpu _ _ := nofun
  oncdWrite _ _ _ _ _ := nofun
  oncdRead reg nbits d e h := by
    change (if reg = oncdOmdr then .ok (d.headD default, d.tail)
      else if reg = oncdOscr then .ok (oscrRdym, d) else .ok (0, d)) = Except.error e at h
    split_ifs at h
  stepCpu _ := nofun
  runCpu _ := nofun
  readBlock _ := nofun
  writeBlock _ := nofun

/-- A proxy with a target that has just been connected. -/
def Proxy.fresh : Proxy := { Proxy.started Target.allocated with canRestart := true, doConnect := 0 }

/-- The proxy of the example is connected. -/
theorem fresh_connected : Proxy.fresh.Connected := ⟨rfl, (by decide : 0 < inOutBufSize)⟩

/-- A packet that reads four bytes. -/
theorem processPacket_aborted_iff_read :
    Aborted (processPacket (scripted mc12Id 0) Proxy.fresh ⟨asciiText "m0,4", []⟩ .zero ⟨0, []⟩) ↔
      Asserting (asciiText "m0,4") :=
  processPacket_aborted_iff (scripted_unasserting mc12Id 0) fresh_connected ⟨asciiText "m0,4", []⟩ .zero
    ⟨0, []⟩

/-- A packet that reads nothing is received, and the proxy aborts. -/
theorem processPacket_aborts :
    (rpGetpkt true inOutBufSize ⟨fun _ => 0, []⟩
      ((frame (asciiText "m0,0") (ascii 'f') (ascii '9')).map some)).ret = .packet 4 ∧
    (scripted mc12Id 0).Unasserting ∧ Proxy.fresh.Connected ∧
    Aborted (processPacket (scripted mc12Id 0) Proxy.fresh ⟨asciiText "m0,0", []⟩ .zero ⟨0, []⟩) :=
  ⟨rfl, scripted_unasserting mc12Id 0, fresh_connected, .inl ⟨"req_size > 0", rfl⟩⟩

section Runs

variable (hA : A.Unasserting) {p : Proxy}

include hA

/-- A packet leaves the target connected. -/
theorem processPacket_connected (hp : p.Connected) (pkt : Packet) (amb : Ambient) :
    (processPacket A p pkt amb).Ensures Proxy.Connected := by
  by_cases hpkt : Asserting pkt.text
  · intro s p' tr s' hr
    obtain ⟨text, herr⟩ := asserts_packet (A := A) (p := p) amb hpkt s
    rw [show processPacket A p pkt amb s = _ from hr] at herr
    exact nomatch herr
  · exact (unaborted_packet hA hp amb hpkt).passes.2

/-- An input that is no packet leaves the proxy connected. -/
theorem processInput_connected (hp : p.Connected) (input : Input) :
    (processInput A p input).Ensures Proxy.Connected := by
  cases input with
  | packet pkt amb => exact ensures_bind fun _ => processPacket_connected hA hp pkt amb
  | timeout => exact pollTarget_connected hA hp
  | interrupt =>
    exact ensures_ite (fun _ => ensures_bind fun _ => ensures_pure ⟨hp.canRestart, hp.statusString⟩)
      fun _ => ensures_pure hp
  | ack => exact ensures_pure hp
  | nak => exact ensures_pure hp
  | error => exact ensures_pure ⟨hp.canRestart, hp.statusString⟩

/-- In every run the next packet finds the target connected. -/
theorem proxyTurns_prepared (hp : p.Prepared) (inputs : List Input) :
    (proxyTurns A p inputs).Ensures Proxy.Prepared := by
  induction inputs generalizing p with
  | nil => exact ensures_pure hp
  | cons input inputs ih =>
    refine Ensures.bind ?_ fun p' hp' => ih hp'
    refine (afterInputError_prepared hp).bind fun p₁ hp₁ => (acceptSession_prepared hp₁).bind fun p₂ hp₂ =>
      (connectTarget_connected hA hp₂.1 hp₂.2).bind fun r hr => ?_
    exact ensures_ite (fun _ s p' tr s' h => (processInput_connected hA hr input s p' tr s' h).prepared)
      fun _ => ensures_pure hr.prepared

end Runs

end Mcprog
