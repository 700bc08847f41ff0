import Mcprog.Remote.MainLoop
import Mcprog.Target.FollowsControl

/-!
# The proxy over an adapter that stands for another one

Every packet of a debugger is answered over an adapter as it is over the one that it stands for, so
the sessions are the same from the first connection on.
-/

namespace Mcprog

open Cells Interaction Program

variable {σ τ α : Type} {R : σ → τ → Prop} {A : Nat → Adapter σ} {B : Adapter τ}

/-- An assertion looks at nothing outside of the program. -/
theorem follow_assert {ε : Type} (c : Prop) [Decidable c] (text : String) :
    Follow R (fun _ => (assert c text : Program ε (Session σ) Fatal Unit)) (assert c text) :=
  Tracks.ite (fun _ => tracks_pure ()) fun _ => tracks_stop _

/-- An answer is handed on as it is. -/
theorem follow_answerWith (t : Target) (outBuf : List Byte) :
    Follow R (fun _ => answerWith t outBuf) (answerWith t outBuf) := tracks_pure _

/-- The digits are made of what has been read, and of nothing else. -/
theorem follow_answerRegs (r : RetVal × ReadData × Target) (outBuf : List Byte) :
    Follow R (fun _ => answerRegs r outBuf) (answerRegs r outBuf) := by
  obtain ⟨ret, d, t⟩ := r
  cases ret with
  | ok => exact (follow_assert _ _).bind fun _ => (follow_assert _ _).bind fun _ => follow_answerWith _ _
  | err => exact follow_answerWith _ _
  | nosupp => exact tracks_stop _

/-- What is sent to the debugger is no call of the adapter. -/
theorem follow_putAnswer (p : Proxy) (answer : ProxyEvent) :
    Follow R (fun _ => putAnswer p answer) (putAnswer p answer) :=
  (Tracks.ite (fun _ => tracks_pure ()) fun _ => tracks_emit _).bind fun _ => tracks_pure p

/-- The output of the monitor goes to the debugger alone. -/
theorem follow_consoleOutput (texts : List (List Byte)) :
    Follow R (fun _ => consoleOutput texts) (consoleOutput texts) := by
  induction texts with
  | nil => exact tracks_pure ()
  | cons text texts ih => exact (tracks_emit _).bind fun _ => ih

/-- A debugger is waited for without a call of the adapter. -/
theorem follow_acceptSession (p : Proxy) : Follow R (fun _ => acceptSession p) (acceptSession p) :=
  Tracks.ite (fun _ => (tracks_emit _).bind fun _ => tracks_pure _) fun _ => tracks_pure _

/-- No query reaches the adapter. -/
theorem follow_handleQueryCommand (t : Target) (amb : Ambient) (pkt : Packet) (outBuf : List Byte) :
    Follow R (fun _ => handleQueryCommand t amb pkt outBuf) (handleQueryCommand t amb pkt outBuf) := by
  refine Tracks.ite (fun _ => follow_answerWith _ _) fun _ => Tracks.ite (fun _ => follow_answerWith _ _) fun _ =>
    Tracks.ite (fun _ => follow_answerWith _ _) fun _ => Tracks.ite (fun _ => follow_answerWith _ _) fun _ =>
    Tracks.ite (fun _ => ?_) fun _ => Tracks.ite (fun _ => follow_answerWith _ _) fun _ => follow_answerWith _ _
  cases elveesRemcmd (pkt.text.drop 6 ++ 0 :: pkt.behind) with
  | error e => exact tracks_stop _
  | ok r => exact tracks_pure _

/-- A write of memory, over the method of a target. -/
theorem follow_handleWriteMemoryCommand {ε : Type}
    {write : Nat → BitVec 64 → List Byte → Program ε (Session σ) Fatal RetVal}
    {write' : BitVec 64 → List Byte → Program ε (Session τ) Fatal RetVal}
    (hwrite : ∀ addr data, Follow R (fun fuel => write fuel addr data) (write' addr data)) (inBuf : List Byte) :
    Follow R (fun fuel => handleWriteMemoryCommand (write fuel) inBuf) (handleWriteMemoryCommand write' inBuf) := by
  refine Tracks.ite (fun _ => ?_) fun _ => tracks_pure _
  cases rpDecodeMem (inBuf.tail.takeWhile (· ≠ ascii ':')) with
  | none => exact tracks_pure _
  | some r =>
    refine Tracks.ite (fun _ => tracks_pure _) fun _ => ?_
    cases rpDecodeData (inBuf.tail.dropWhile (· ≠ ascii ':')).tail dataBytesMax with
    | none => exact tracks_pure _
    | some data =>
      exact Tracks.ite (fun _ => tracks_pure _) fun _ => (hwrite _ _).bind fun _ => tracks_pure _

/-- A packet that only the target answers, over its handler. -/
theorem follow_processHandled (p : Proxy) {m : Nat → Control σ Handled} {m' : Control τ Handled}
    (hm : Follow R m m') : Follow R (fun fuel => processHandled p (m fuel)) (processHandled p m') :=
  (hm.mapEvents _).bind fun _ => (follow_consoleOutput _).bind fun _ => follow_putAnswer _ _

namespace ReachesMemoryAs

variable (h : ReachesMemoryAs R A B) (t : Target)

include h

/-- The word that holds the last bytes is read on both. -/
theorem readMemLast (addr reqSize : BitVec 64) (buf : Buffer Byte) (pos : Nat) :
    Follow R (fun fuel => Mcprog.readMemLast (A fuel) addr reqSize buf pos)
      (Mcprog.readMemLast B addr reqSize buf pos) :=
  (h.targetReadWord _).bind fun _ => tracks_pure _

/-- The words of a request, by induction on their number. -/
theorem readMemWords (addr reqSize : BitVec 64) (buf : Buffer Byte) (pos : Nat) :
    Follow R (fun fuel => Mcprog.readMemWords (A fuel) addr reqSize buf pos)
      (Mcprog.readMemWords B addr reqSize buf pos) := by
  refine Tracks.ite (fun _ => (h.targetReadBlock _ _).bind fun words => ?_) fun _ => h.readMemLast _ _ _ _
  exact Tracks.ite (fun _ => tracks_pure _) fun _ => h.readMemLast _ _ _ _

/-- `elvees_read_mem` decides by the address and the size alone, which are the same on both. -/
theorem elveesReadMem (addr : BitVec 64) (buf : Buffer Byte) (reqSize : BitVec 64) (actualSize : Nat) :
    Follow R (fun fuel => Mcprog.elveesReadMem (A fuel) addr buf reqSize actualSize)
      (Mcprog.elveesReadMem B addr buf reqSize actualSize) := by
  refine (follow_assert _ _).bind fun _ => Tracks.ite (fun _ => tracks_pure _) fun _ => Tracks.ite (fun _ => ?_) fun _ => ?_
  · refine (h.targetReadWord _).bind fun data => Tracks.ite (fun _ => tracks_pure _) fun _ => ?_
    exact (h.readMemWords _ _ _ _).bind fun _ => tracks_pure _
  · exact (h.readMemWords _ _ _ _).bind fun _ => tracks_pure _

/-- The last word is read, changed and written back. -/
theorem writeMemLast (addr : BitVec 64) (buf : List Byte) :
    Follow R (fun fuel => Mcprog.writeMemLast (A fuel) t addr buf) (Mcprog.writeMemLast B t addr buf) :=
  (h.targetReadWord _).bind fun _ => h.targetWriteWord t _ _

/-- The words of a request are written, by induction on the bytes that are left. -/
theorem writeMemWords (addr : BitVec 64) (buf : List Byte) :
    Follow R (fun fuel => Mcprog.writeMemWords (A fuel) t addr buf) (Mcprog.writeMemWords B t addr buf) := by
  refine Tracks.ite (fun _ => (h.targetWriteBlock t _ _ _).bind fun _ => ?_) fun _ => h.writeMemLast t _ _
  exact Tracks.ite (fun _ => tracks_pure ()) fun _ => h.writeMemLast t _ _

/-- `elvees_write_mem`, on both. -/
theorem elveesWriteMem (addr : BitVec 64) (buf : List Byte) :
    Follow R (fun fuel => Mcprog.elveesWriteMem (A fuel) t addr buf) (Mcprog.elveesWriteMem B t addr buf) := by
  refine Tracks.ite (fun _ => tracks_pure _) fun _ => Tracks.ite (fun _ => tracks_pure _) fun _ =>
    Tracks.ite (fun _ => tracks_pure _) fun _ => Tracks.ite (fun _ => ?_) fun _ => ?_
  · refine (h.targetReadWord _).bind fun data => (h.targetWriteWord t _ _).bind fun _ =>
      Tracks.ite (fun _ => tracks_pure _) fun _ => ?_
    exact (h.writeMemWords t _ _).bind fun _ => tracks_pure _
  · exact (h.writeMemWords t _ _).bind fun _ => tracks_pure _

/-- What the packet asks for is decoded before anything is read. -/
theorem handleReadMemoryCommand (amb : Ambient) (inBuf outBuf : List Byte) :
    Follow R (fun fuel => Mcprog.handleReadMemoryCommand (A fuel) t amb inBuf outBuf)
      (Mcprog.handleReadMemoryCommand B t amb inBuf outBuf) := by
  unfold Mcprog.handleReadMemoryCommand
  cases rpDecodeMem inBuf.tail with
  | none => exact follow_answerWith _ _
  | some r =>
    refine ((h.elveesReadMem _ _ _ _).mapEvents _).bind fun r => ?_
    obtain ⟨ret, buf, len⟩ := r
    cases ret with
    | ok => exact (follow_assert _ _).bind fun _ => (follow_assert _ _).bind fun _ => follow_answerWith _ _
    | err => exact follow_answerWith _ _
    | nosupp => exact tracks_stop _

/-- What the packet asks for is decoded before anything is written. -/
theorem handleWriteMemory (inBuf : List Byte) :
    Follow R (fun fuel => Mcprog.handleWriteMemory (A fuel) t inBuf) (Mcprog.handleWriteMemory B t inBuf) :=
  (follow_handleWriteMemoryCommand (fun addr data => (h.elveesWriteMem t addr data).mapEvents _) inBuf).bind
    fun _ => follow_answerWith _ _

/-- The packets `M` and `m`. -/
theorem processPacket (p : Proxy) (pkt : Packet) (amb : Ambient)
    (hkind : pkt.text.headD 0 = ascii 'M' ∨ pkt.text.headD 0 = ascii 'm') :
    Follow R (fun fuel => Mcprog.processPacket (A fuel) p pkt amb) (Mcprog.processPacket B p pkt amb) := by
  have hhandle : Follow R (fun fuel => Mcprog.handlePacket (A fuel) p.target amb pkt (rpWriteRetval .nosupp))
      (Mcprog.handlePacket B p.target amb pkt (rpWriteRetval .nosupp)) := by
    unfold Mcprog.handlePacket
    rcases hkind with hc | hc
    · simp only [hc]
      exact h.handleWriteMemory p.target pkt.text
    · simp only [hc]
      exact h.handleReadMemoryCommand p.target amb pkt.text _
  unfold Mcprog.processPacket
  rcases hkind with hc | hc
  · simp only [hc]
    exact (follow_assert _ _).bind fun _ => follow_processHandled p hhandle
  · simp only [hc]
    exact (follow_assert _ _).bind fun _ => follow_processHandled p hhandle

end ReachesMemoryAs

namespace StandsFor

variable (h : StandsFor R A B) (t : Target)

include h

/-- The registers in their order, by induction on how many are left. -/
theorem readRegistersFrom (n i : Nat) (d : ReadData) :
    Follow R (fun fuel => Mcprog.readRegistersFrom (A fuel) i n t d) (Mcprog.readRegistersFrom B i n t d) := by
  induction n generalizing i t d with
  | zero => exact tracks_pure _
  | succ n ih => exact (h.targetReadRegister t i).bind fun r => ih r.2 _ _

/-- `elvees_read_registers`, on both. -/
theorem elveesReadRegisters (d : ReadData) :
    Follow R (fun fuel => Mcprog.elveesReadRegisters (A fuel) t d) (Mcprog.elveesReadRegisters B t d) :=
  (h.readRegistersFrom t _ _ d).bind fun _ => tracks_pure _

/-- The bytes of the registers in their order. What the first one leaves of the target is the same on both. -/
theorem writeRegistersFrom (n i : Nat) (buf : List Byte) :
    Follow R (fun fuel => Mcprog.writeRegistersFrom (A fuel) i n t buf) (Mcprog.writeRegistersFrom B i n t buf) := by
  induction n generalizing i t with
  | zero => exact tracks_pure _
  | succ n ih =>
    exact Tracks.ite (fun _ => tracks_pure _) fun _ => (h.targetWriteRegister t i _).bind fun t => ih t _

/-- `elvees_write_registers`, behind its two assertions. -/
theorem elveesWriteRegisters (buf : List Byte) :
    Follow R (fun fuel => Mcprog.elveesWriteRegisters (A fuel) t buf) (Mcprog.elveesWriteRegisters B t buf) :=
  (follow_assert _ _).bind fun _ => (follow_assert _ _).bind fun _ =>
    (h.writeRegistersFrom t _ _ buf).bind fun _ => tracks_pure _

/-- `elvees_read_single_register`, on both. -/
theorem elveesReadSingleRegister (regNo : Word) (d : ReadData) :
    Follow R (fun fuel => Mcprog.elveesReadSingleRegister (A fuel) t regNo d)
      (Mcprog.elveesReadSingleRegister B t regNo d) :=
  Tracks.ite (fun _ => tracks_pure _) fun _ => (h.targetReadRegister t _).bind fun _ => tracks_pure _

/-- `elvees_write_single_register`, behind its assertion. -/
theorem elveesWriteSingleRegister (regNo : Word) (buf : List Byte) :
    Follow R (fun fuel => Mcprog.elveesWriteSingleRegister (A fuel) t regNo buf)
      (Mcprog.elveesWriteSingleRegister B t regNo buf) :=
  (follow_assert _ _).bind fun _ => Tracks.ite (fun _ => tracks_pure _) fun _ =>
    (h.targetWriteRegister t _ _).bind fun _ => tracks_pure _

/-- A register for the status string. -/
theorem elveesOutTreg (regNo : Nat) :
    Follow R (fun fuel => Mcprog.elveesOutTreg (A fuel) t regNo) (Mcprog.elveesOutTreg B t regNo) :=
  (h.targetReadRegister t regNo).bind fun _ => tracks_pure _

/-- The status string tells the program counter and the frame pointer. -/
theorem stopStatus (sig : String) :
    Follow R (fun fuel => Mcprog.stopStatus (A fuel) t sig) (Mcprog.stopStatus B t sig) :=
  (h.elveesOutTreg t _).bind fun r => (h.elveesOutTreg r.2 _).bind fun _ => tracks_pure _

/-- `elvees_close`, on both. -/
theorem elveesClose : Follow R (fun fuel => Mcprog.elveesClose (A fuel) t) (Mcprog.elveesClose B t) := h.targetResume t

/-- `elvees_connect` stops the processor, and then writes the status string. -/
theorem elveesConnect : Follow R (fun fuel => Mcprog.elveesConnect (A fuel) t) (Mcprog.elveesConnect B t) :=
  (h.targetStop t).bind fun t => ((h.stopStatus t _).mapEvents _).bind fun _ => tracks_pure _

/-- `elvees_restart`, on both. -/
theorem elveesRestart : Follow R (fun fuel => Mcprog.elveesRestart (A fuel) t) (Mcprog.elveesRestart B t) :=
  (h.targetRestart t).bind fun _ => tracks_pure _

/-- `elvees_resume_from_current`: a step, or a run. -/
theorem elveesResumeFromCurrent (step : Bool) (sig : Word) :
    Follow R (fun fuel => Mcprog.elveesResumeFromCurrent (A fuel) t step sig)
      (Mcprog.elveesResumeFromCurrent B t step sig) :=
  (Tracks.ite (fun _ => h.targetStep t) fun _ => h.targetResume t).bind fun _ => tracks_pure _

/-- `elvees_resume_from_addr`: the program counter, and then as before. -/
theorem elveesResumeFromAddr (step : Bool) (sig : Word) (addr : BitVec 64) :
    Follow R (fun fuel => Mcprog.elveesResumeFromAddr (A fuel) t step sig addr)
      (Mcprog.elveesResumeFromAddr B t step sig addr) :=
  (h.targetRun t _).bind fun _ => tracks_pure _

/-- `elvees_wait_partial` asks the processor, and goes on as the answer says. The answers are the same on both.
-/
theorem elveesWaitPartial (statusString : List Byte) :
    Follow R (fun fuel => Mcprog.elveesWaitPartial (A fuel) t statusString)
      (Mcprog.elveesWaitPartial B t statusString) := by
  refine (h.targetIsStopped t).bind fun r => Tracks.ite (fun _ => ?_) fun _ => tracks_pure _
  exact ((h.stopStatus r.2 _).mapEvents _).bind fun _ => tracks_pure _

/-- `elvees_add_break`, on both. -/
theorem elveesAddBreak (type : Int) (addr : BitVec 64) :
    Follow R (fun fuel => Mcprog.elveesAddBreak (A fuel) type addr) (Mcprog.elveesAddBreak B type addr) := by
  unfold Mcprog.elveesAddBreak
  split
  · exact (h.targetAddBreak _ _).bind fun _ => tracks_pure _
  · exact (h.targetAddBreak _ _).bind fun _ => tracks_pure _
  · exact (h.targetAddBreak _ _).bind fun _ => tracks_pure _
  · exact (h.targetAddBreak _ _).bind fun _ => tracks_pure _
  · exact tracks_pure _

/-- `elvees_remove_break`, on both. -/
theorem elveesRemoveBreak (type : Int) (addr : BitVec 64) :
    Follow R (fun fuel => Mcprog.elveesRemoveBreak (A fuel) type addr) (Mcprog.elveesRemoveBreak B type addr) :=
  (h.targetRemoveBreak _).bind fun _ => tracks_pure _

/-- The handler of `g`. -/
theorem handleReadRegistersCommand (amb : Ambient) (outBuf : List Byte) :
    Follow R (fun fuel => Mcprog.handleReadRegistersCommand (A fuel) t amb outBuf)
      (Mcprog.handleReadRegistersCommand B t amb outBuf) :=
  ((h.elveesReadRegisters t _).mapEvents _).bind fun _ => follow_answerRegs _ _

/-- The handler of `G`. -/
theorem handleWriteRegistersCommand (inBuf : List Byte) :
    Follow R (fun fuel => Mcprog.handleWriteRegistersCommand (A fuel) t inBuf)
      (Mcprog.handleWriteRegistersCommand B t inBuf) := by
  unfold Mcprog.handleWriteRegistersCommand
  cases rpDecodeData inBuf.tail dataBytesMax with
  | none => exact follow_answerWith _ _
  | some data => exact ((h.elveesWriteRegisters t data).mapEvents _).bind fun _ => follow_answerWith _ _

/-- The handler of `p`. -/
theorem handleReadSingleRegisterCommand (amb : Ambient) (inBuf outBuf : List Byte) :
    Follow R (fun fuel => Mcprog.handleReadSingleRegisterCommand (A fuel) t amb inBuf outBuf)
      (Mcprog.handleReadSingleRegisterCommand B t amb inBuf outBuf) := by
  unfold Mcprog.handleReadSingleRegisterCommand
  cases rpDecodeUint32 none inBuf.tail with
  | none => exact follow_answerWith _ _
  | some r => exact ((h.elveesReadSingleRegister t _ _).mapEvents _).bind fun _ => follow_answerRegs _ _

/-- The handler of `P`. -/
theorem handleWriteSingleRegisterCommand (inBuf : List Byte) :
    Follow R (fun fuel => Mcprog.handleWriteSingleRegisterCommand (A fuel) t inBuf)
      (Mcprog.handleWriteSingleRegisterCommand B t inBuf) := by
  unfold Mcprog.handleWriteSingleRegisterCommand
  cases rpDecodeRegAssignment inBuf.tail dataBytesMax with
  | none => exact follow_answerWith _ _
  | some r =>
    exact (follow_assert _ _).bind fun _ => ((h.elveesWriteSingleRegister t _ _).mapEvents _).bind fun _ =>
      follow_answerWith _ _

/-- The processor goes on, from an address where one is given. -/
theorem resumeTarget (inBuf : List Byte) (sig : Word) (addrText : Option (List Byte)) :
    Follow R (fun fuel => Mcprog.resumeTarget (A fuel) t inBuf sig addrText)
      (Mcprog.resumeTarget B t inBuf sig addrText) := by
  refine Tracks.ite (fun _ => tracks_pure _) fun _ => ?_
  cases addrText with
  | none => exact h.elveesResumeFromCurrent t _ _
  | some text =>
    cases hdecode : rpDecodeUint64 none text with
    | none =>
      simp only [hdecode]
      exact tracks_pure _
    | some r =>
      simp only [hdecode]
      exact h.elveesResumeFromAddr t _ _ _

/-- The handler of the packets that resume the target. -/
theorem handleRunningCommands (running : Bool) (statusString inBuf outBuf : List Byte) :
    Follow R (fun fuel => Mcprog.handleRunningCommands (A fuel) t running statusString inBuf outBuf)
      (Mcprog.handleRunningCommands B t running statusString inBuf outBuf) := by
  unfold Mcprog.handleRunningCommands
  cases runningArgs inBuf with
  | none => exact tracks_pure _
  | some args =>
    refine (h.resumeTarget t inBuf _ _).bind fun r => Tracks.ite (fun _ => tracks_pure _) fun _ => ?_
    refine (h.elveesWaitPartial r.2 _).bind fun w => Tracks.ite (fun _ => tracks_pure _) fun _ =>
      Tracks.ite (fun _ => ?_) fun _ => Tracks.ite (fun _ => ?_) fun _ => tracks_pure _
    · exact (follow_assert _ _).bind fun _ => tracks_pure _
    · exact (follow_assert _ _).bind fun _ => tracks_pure _

/-- The handler of `z` and `Z`. -/
theorem handleBreakpointCommand (inBuf : List Byte) :
    Follow R (fun fuel => Mcprog.handleBreakpointCommand (A fuel) t inBuf)
      (Mcprog.handleBreakpointCommand B t inBuf) := by
  unfold Mcprog.handleBreakpointCommand
  cases rpDecodeBreak inBuf with
  | none => exact follow_answerWith _ _
  | some r =>
    exact ((Tracks.ite (fun _ => h.elveesAddBreak _ _) fun _ => h.elveesRemoveBreak _ _).mapEvents _).bind
      fun _ => follow_answerWith _ _

/-- A packet goes to the handler that its first character names, on both. -/
theorem handlePacket (amb : Ambient) (pkt : Packet) (outBuf : List Byte) :
    Follow R (fun fuel => Mcprog.handlePacket (A fuel) t amb pkt outBuf) (Mcprog.handlePacket B t amb pkt outBuf) :=
  Tracks.ite (fun _ => h.handleReadRegistersCommand t _ _) fun _ =>
  Tracks.ite (fun _ => h.handleWriteRegistersCommand t _) fun _ =>
  Tracks.ite (fun _ => follow_answerWith _ _) fun _ =>
  Tracks.ite (fun _ => h.handleReadMemoryCommand t _ _ _) fun _ =>
  Tracks.ite (fun _ => h.handleWriteMemory t _) fun _ =>
  Tracks.ite (fun _ => h.handleReadSingleRegisterCommand t _ _ _) fun _ =>
  Tracks.ite (fun _ => h.handleWriteSingleRegisterCommand t _) fun _ =>
  Tracks.ite (fun _ => follow_handleQueryCommand t _ _ _) fun _ =>
  Tracks.ite (fun _ => follow_answerWith _ _) fun _ =>
  Tracks.ite (fun _ => follow_answerWith _ _) fun _ =>
  Tracks.ite (fun _ => h.handleBreakpointCommand t _) fun _ => follow_answerWith _ _

variable (p : Proxy)

/-- The end of a session, with the target that it closes. -/
theorem closeSession : Follow R (fun fuel => Mcprog.closeSession (A fuel) p) (Mcprog.closeSession B p) :=
  ((h.elveesClose _).mapEvents _).bind fun _ => (tracks_emit _).bind fun _ => tracks_pure _

/-- The connection is lost: the session ends. -/
theorem afterInputError : Follow R (fun fuel => Mcprog.afterInputError (A fuel) p) (Mcprog.afterInputError B p) :=
  Tracks.ite (fun _ => (h.closeSession _).bind fun _ => tracks_pure _) fun _ => tracks_pure _

/-- The target is connected before the first packet. -/
theorem connectTarget : Follow R (fun fuel => Mcprog.connectTarget (A fuel) p) (Mcprog.connectTarget B p) := by
  refine Tracks.ite (fun _ => ((h.elveesConnect _).mapEvents _).bind fun r => ?_) fun _ => tracks_pure _
  exact Tracks.ite (fun _ => (h.closeSession _).bind fun _ => tracks_pure _) fun _ => tracks_pure _

/-- The handler of `k`. -/
theorem handleKillCommand : Follow R (fun fuel => Mcprog.handleKillCommand (A fuel) p) (Mcprog.handleKillCommand B p) := by
  refine Tracks.ite (fun _ => (h.closeSession _).bind fun p => ?_) fun _ => Tracks.ite (fun _ => tracks_pure _) fun _ => ?_
  · exact Tracks.ite (fun _ => tracks_stop _) fun _ => tracks_pure _
  · refine ((h.elveesRestart _).mapEvents _).bind fun r => (follow_assert _ _).bind fun _ =>
      Tracks.ite (fun _ => ?_) fun _ => tracks_pure _
    exact ((h.elveesClose _).mapEvents _).bind fun _ => (tracks_emit _).bind fun _ => (tracks_emit _).bind fun _ =>
      tracks_pure _

/-- The handler of `R`. -/
theorem handleRestartTargetCommand :
    Follow R (fun fuel => Mcprog.handleRestartTargetCommand (A fuel) p) (Mcprog.handleRestartTargetCommand B p) := by
  refine Tracks.ite (fun _ => tracks_pure _) fun _ => (follow_assert _ _).bind fun _ =>
    ((h.elveesRestart _).mapEvents _).bind fun r => Tracks.ite (fun _ => ?_) fun _ => tracks_pure _
  exact ((h.elveesClose _).mapEvents _).bind fun _ => (tracks_emit _).bind fun _ => (tracks_emit _).bind fun _ =>
    tracks_pure _

/-- The handler of `D`. -/
theorem handleDetachCommand (outBuf : List Byte) :
    Follow R (fun fuel => Mcprog.handleDetachCommand (A fuel) p outBuf) (Mcprog.handleDetachCommand B p outBuf) := by
  refine ((h.elveesClose _).mapEvents _).bind fun t => (tracks_emit _).bind fun _ => (tracks_emit _).bind fun _ => ?_
  exact Tracks.ite (fun _ => tracks_stop _) fun _ => tracks_pure _

/-- The packets that resume the target, with their answers. -/
theorem processRunning (inBuf outBuf : List Byte) :
    Follow R (fun fuel => Mcprog.processRunning (A fuel) p inBuf outBuf) (Mcprog.processRunning B p inBuf outBuf) := by
  refine ((h.handleRunningCommands _ _ _ _ _).mapEvents _).bind fun r => Tracks.ite (fun _ => tracks_pure _) fun _ => ?_
  exact Tracks.ite (fun _ => follow_putAnswer _ _) fun _ => follow_putAnswer _ _

/-- `k`, with what it makes of the session. -/
theorem processKill : Follow R (fun fuel => Mcprog.processKill (A fuel) p) (Mcprog.processKill B p) :=
  (h.handleKillCommand p).bind fun _ => tracks_pure _

/-- `R`, with its answer. -/
theorem processRestart (outBuf : List Byte) :
    Follow R (fun fuel => Mcprog.processRestart (A fuel) p outBuf) (Mcprog.processRestart B p outBuf) :=
  (h.handleRestartTargetCommand p).bind fun _ => Tracks.ite (fun _ => tracks_pure _) fun _ => follow_putAnswer _ _

/-- A packet and its answer, whatever it asks for. -/
theorem processPacket (pkt : Packet) (amb : Ambient) :
    Follow R (fun fuel => Mcprog.processPacket (A fuel) p pkt amb) (Mcprog.processPacket B p pkt amb) := by
  refine (follow_assert _ _).bind fun _ => Tracks.ite (fun _ => ?_) fun _ =>
    Tracks.ite (fun _ => follow_putAnswer _ _) fun _ => Tracks.ite (fun _ => h.processRunning p _ _) fun _ =>
    Tracks.ite (fun _ => ?_) fun _ => Tracks.ite (fun _ => h.processKill p) fun _ =>
    Tracks.ite (fun _ => h.processRestart p _) fun _ => follow_processHandled p (h.handlePacket p.target amb pkt _)
  · exact Tracks.ite (fun _ => follow_putAnswer _ _) fun _ => follow_putAnswer _ _
  · exact (h.handleDetachCommand p _).bind fun _ => tracks_pure _

/-- The running target is looked at. -/
theorem pollTarget : Follow R (fun fuel => Mcprog.pollTarget (A fuel) p) (Mcprog.pollTarget B p) := by
  refine Tracks.ite (fun _ => ((h.elveesWaitPartial _ _).mapEvents _).bind fun w => (follow_assert _ _).bind fun _ => ?_)
    fun _ => tracks_pure _
  refine Tracks.ite (fun _ => (tracks_emit _).bind fun _ => tracks_pure _) fun _ =>
    Tracks.ite (fun _ => ?_) fun _ => tracks_pure _
  exact (follow_assert _ _).bind fun _ => (tracks_emit _).bind fun _ => tracks_pure _

/-- The running target is stopped for the debugger. -/
theorem interruptTarget : Follow R (fun fuel => Mcprog.interruptTarget (A fuel) p) (Mcprog.interruptTarget B p) :=
  Tracks.ite (fun _ => ((h.targetStop _).mapEvents _).bind fun _ => tracks_pure _) fun _ => tracks_pure _

/-- Any input of the main loop. -/
theorem processInput (input : Input) :
    Follow R (fun fuel => Mcprog.processInput (A fuel) p input) (Mcprog.processInput B p input) := by
  cases input with
  | error => exact tracks_pure _
  | interrupt => exact h.interruptTarget p
  | timeout => exact h.pollTarget p
  | ack => exact tracks_pure _
  | nak => exact tracks_pure _
  | packet pkt amb => exact (tracks_emit _).bind fun _ => h.processPacket p pkt amb

/-- A turn of the main loop: a session is begun where there is none, and then the input is taken. -/
theorem proxyTurn (input : Input) :
    Follow R (fun fuel => Mcprog.proxyTurn (A fuel) p input) (Mcprog.proxyTurn B p input) := by
  refine (h.afterInputError p).bind fun p => (follow_acceptSession p).bind fun p => (h.connectTarget p).bind fun r => ?_
  exact Tracks.ite (fun _ => h.processInput r.2 input) fun _ => tracks_pure _

/-- Every session, whatever comes from the debuggers. -/
theorem proxyTurns (inputs : List Input) :
    Follow R (fun fuel => Mcprog.proxyTurns (A fuel) p inputs) (Mcprog.proxyTurns B p inputs) := by
  induction inputs generalizing p with
  | nil => exact tracks_pure _
  | cons input inputs ih => exact (h.proxyTurn p input).bind fun p => ih p

end StandsFor

end Mcprog
