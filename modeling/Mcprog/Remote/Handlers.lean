import Mcprog.Remote.Methods
import Mcprog.Remote.WriteMemory

/-!
# The handlers of packets

One function of `gdbproxy.c` for each kind of packet that a target answers. A handler is
given the text of the packet and writes its answer to the output buffer.
-/

namespace Mcprog

open Cells Interaction

variable {σ : Type}

/-- What a handler finds besides the packet: what its local variables hold before they are
assigned, and whether `malloc` fails. -/
structure Ambient where
  read : ReadData
  alive : Word
  mallocFails : Bool

/-- A packet: its text, and what lies behind its terminator. -/
structure Packet where
  text : List Byte
  behind : List Byte

/-- What a handler leaves: the output buffer, the target, and what went to the console. -/
structure Handled where
  outBuf : List Byte
  target : Target
  console : List (List Byte)

/-- A handler that leaves the target alone. -/
def answerWith (t : Target) (outBuf : List Byte) : Control σ Handled := return ⟨outBuf, t, []⟩

/-- `rp_decode_reg_assignment`. -/
def rpDecodeRegAssignment (text : List Byte) (outSize : Nat) : Option (Word × List Byte) := do
  let (regNo, text) ← rpDecodeUint32 (some (ascii '=')) text
  let data ← rpDecodeData text (outSize - 8 - 1)
  return (regNo, data)

/-- `rp_decode_break`, for a packet that is not empty. -/
def rpDecodeBreak (inBuf : List Byte) : Option (Byte × BitVec 64 × Word) := do
  let val ← rpHexNibble (inBuf.getD 1 0)
  if val > 4 then none
  else if inBuf.getD 2 0 ≠ ascii ',' then none
  else do
    let (addr, text) ← rpDecodeUint64 (some (ascii ',')) (inBuf.drop 3)
    let (len, _) ← rpDecodeUint32 none text
    return (val, addr, len)

/-- `rp_decode_list_query`: the largest number of threads. -/
def rpDecodeListQuery (text : List Byte) : Option Byte := do
  let _ ← rpHexNibble (text.getD 0 0)
  rpDecodeByte (text.getD 1 0) (text.getD 2 0)

/-- `rp_encode_byte`. -/
def rpEncodeByte (b : Byte) : List Byte := [hexChar (b >>> 4), hexChar b]

/-- `rp_encode_regs`. -/
def rpEncodeRegs (d : ReadData) (outSize : Nat) : Option (List Byte) :=
  if d.len * 2 ≥ outSize then none
  else some ((List.range d.len).flatMap fun i =>
    if d.avail.get i ≠ 0 then rpEncodeByte (d.data.get i) else [ascii 'x', ascii 'x'])

/-- `rp_encode_data`. -/
def rpEncodeData (data : Buffer Byte) (len outSize : Nat) : Option (List Byte) :=
  if len * 2 ≥ outSize then none
  else some ((List.range len).flatMap fun i => rpEncodeByte (data.get i))

/-- The end of the handlers that read registers. -/
def answerRegs (r : RetVal × ReadData × Target) (outBuf : List Byte) : Control σ Handled :=
  match r.1 with
  | .ok => do
    assert (r.2.1.len ≤ dataBytesMax) "len <= RP_PARAM_DATABYTES_MAX"
    assert (r.2.1.len > 0) "data_len > 0"
    answerWith r.2.2 ((rpEncodeRegs r.2.1 inOutBufSize).getD outBuf)
  | .err => answerWith r.2.2 (rpWriteRetval .err)
  | .nosupp => Program.stop (.assertion "0")

/-- `handle_read_registers_command`. -/
def handleReadRegistersCommand (A : Adapter σ) (t : Target) (amb : Ambient) (outBuf : List Byte) :
    Control σ Handled := do
  let r ← calls (elveesReadRegisters A t amb.read)
  answerRegs r outBuf

/-- `handle_write_registers_command`. -/
def handleWriteRegistersCommand (A : Adapter σ) (t : Target) (inBuf : List Byte) : Control σ Handled :=
  match rpDecodeData inBuf.tail dataBytesMax with
  | none => answerWith t (rpWriteRetval .err)
  | some data => do
    let (ret, t) ← calls (elveesWriteRegisters A t data)
    answerWith t (rpWriteRetval ret)

/-- `handle_read_single_register_command`. -/
def handleReadSingleRegisterCommand (A : Adapter σ) (t : Target) (amb : Ambient)
    (inBuf outBuf : List Byte) : Control σ Handled :=
  match rpDecodeUint32 none inBuf.tail with
  | none => answerWith t (rpWriteRetval .err)
  | some (regNo, _) => do
    let r ← calls (elveesReadSingleRegister A t regNo amb.read)
    answerRegs r outBuf

/-- `handle_write_single_register_command`. -/
def handleWriteSingleRegisterCommand (A : Adapter σ) (t : Target) (inBuf : List Byte) :
    Control σ Handled :=
  match rpDecodeRegAssignment inBuf.tail dataBytesMax with
  | none => answerWith t (rpWriteRetval .err)
  | some (regNo, data) => do
    assert (data.length < dataBytesMax) "len < RP_PARAM_DATABYTES_MAX"
    let (ret, t) ← calls (elveesWriteSingleRegister A t regNo data)
    answerWith t (rpWriteRetval ret)

/-- The longest read of memory in one packet. -/
def readLimit : Word := (400 - 32) / 2

/-- `handle_read_memory_command`. -/
def handleReadMemoryCommand (A : Adapter σ) (t : Target) (amb : Ambient) (inBuf outBuf : List Byte) :
    Control σ Handled :=
  match rpDecodeMem inBuf.tail with
  | none => answerWith t (rpWriteRetval .err)
  | some (addr, len) => do
    let len := if len > readLimit then readLimit else len
    let r ← calls (elveesReadMem A addr amb.read.data (len.setWidth 64) len.toNat)
    match r.1 with
    | .ok => do
      assert (r.2.2 ≤ dataBytesMax) "len <= RP_PARAM_DATABYTES_MAX"
      assert (r.2.2 > 0) "data_len > 0"
      answerWith t ((rpEncodeData r.2.1 r.2.2 inOutBufSize).getD outBuf)
    | .err => answerWith t (rpWriteRetval .err)
    | .nosupp => Program.stop (.assertion "0")

/-- `handle_write_memory_command` with the method of this target. -/
def handleWriteMemory (A : Adapter σ) (t : Target) (inBuf : List Byte) : Control σ Handled := do
  let outBuf ← handleWriteMemoryCommand (fun addr data => calls (elveesWriteMem A t addr data)) inBuf
  answerWith t outBuf

/-- What a running command leaves besides the output buffer. -/
structure Running where
  outBuf : List Byte
  target : Target
  statusString : List Byte
  /-- `rp_target_running`. -/
  targetRunning : Bool
  /-- The output buffer has the status string of a target that has stopped. -/
  stopped : Bool

/-- The signal and the address of a running command, or nothing where the signal is bad. -/
def runningArgs (inBuf : List Byte) : Option (Word × Option (List Byte)) :=
  if inBuf.headD 0 ∈ asciiText "CSW" then
    if ascii ';' ∈ inBuf.tail then do
      let (sig, text) ← rpDecodeUint32 (some (ascii ';')) inBuf.tail
      return (sig, some text)
    else do
      let (sig, _) ← rpDecodeUint32 none inBuf.tail
      return (sig, none)
  else if inBuf.tail = [] then some (0, none)
  else some (0, some inBuf.tail)

/-- Let the target go as the command says, or nothing where its address is bad. -/
def resumeTarget (A : Adapter σ) (t : Target) (inBuf : List Byte) (sig : Word)
    (addrText : Option (List Byte)) : Control σ (RetVal × Target) :=
  let step : Bool := inBuf.headD 0 ∈ asciiText "Ss"
  if inBuf.headD 0 ∈ asciiText "Ww" then return (elveesGoWaiting sig, t)
  else
    match addrText with
    | none => elveesResumeFromCurrent A t step sig
    | some text =>
      match rpDecodeUint64 none text with
      | none => return (.err, t)
      | some (addr, _) => elveesResumeFromAddr A t step sig addr

/-- `handle_running_commands`. -/
def handleRunningCommands (A : Adapter σ) (t : Target) (running : Bool)
    (statusString inBuf outBuf : List Byte) : Control σ Running :=
  match runningArgs inBuf with
  | none => return ⟨rpWriteRetval .err, t, statusString, running, false⟩
  | some (sig, addrText) => do
    let (ret, t) ← resumeTarget A t inBuf sig addrText
    if ret ≠ .ok then return ⟨rpWriteRetval ret, t, statusString, running, false⟩
    else do
      let w ← elveesWaitPartial A t statusString
      if w.ret ≠ .ok then return ⟨rpWriteRetval w.ret, w.target, w.statusString, false, false⟩
      else if ¬ w.implemented then do
        assert (elveesWait.2 = true) "implemented"
        return ⟨rpWriteRetval elveesWait.1, w.target, w.statusString, false, false⟩
      else if ¬ w.more then do
        assert (w.statusString.length < inOutBufSize) "strlen(status_string) < status_string_len"
        return ⟨w.statusString, w.target, w.statusString, false, true⟩
      else return ⟨outBuf, w.target, w.statusString, true, false⟩

/-- `handle_search_memory_command`. -/
def handleSearchMemoryCommand (inBuf : List Byte) : List Byte :=
  let decoded : Option Unit := do
    let (_, text) ← rpDecodeUint64 (some (ascii ':')) inBuf.tail
    let (_, text) ← rpDecodeUint32 (some (ascii ',')) text
    let _ ← rpDecodeUint32 none text
  rpWriteRetval (if decoded.isNone then .err else .nosupp)

/-- `handle_thread_commands`. -/
def handleThreadCommands (inBuf outBuf : List Byte) : List Byte :=
  if inBuf.length = 1 ∨ inBuf.getD 2 0 = ascii '-' then outBuf
  else if inBuf.getD 1 0 ∈ asciiText "cg" then
    match rpDecodeUint64 none (inBuf.drop 2) with
    | none => rpWriteRetval .err
    | some (ref, _) => rpWriteRetval (elveesSetThread ref)
  else outBuf

/-- `handle_thread_alive_command`. -/
def handleThreadAliveCommand (amb : Ambient) (inBuf : List Byte) : List Byte :=
  match rpDecodeUint64 none inBuf.tail with
  | none => rpWriteRetval .err
  | some (ref, _) =>
    let (ret, alive) := elveesIsThreadAlive ref amb.alive
    if ret ≠ .ok then rpWriteRetval ret
    else if alive ≠ 0 then rpWriteRetval .ok
    else rpWriteRetval .err

/-- The queries that are not supported by any target. -/
def unsupportedQueries : List (List Byte) :=
  ["Symbol:", "TStatus:", "ThreadExtraInfo,", "fThreadInfo:", "sThreadInfo:", "fProcessInfo",
    "sProcessInfo"].map asciiText

/-- The answer to the query for a checksum. -/
def crcQuery (inBuf : List Byte) : List Byte :=
  let decoded : Option (BitVec 64 × Word) := do
    let (addr, text) ← rpDecodeUint64 (some (ascii ',')) (inBuf.drop 5)
    let (len, _) ← rpDecodeUint32 none text
    return (addr, len)
  match decoded with
  | none => rpWriteRetval .err
  | some (addr, len) => rpWriteRetval (elveesCrcQuery addr len)

/-- The answer to the query for the list of threads. -/
def listQuery (amb : Ambient) (inBuf : List Byte) : List Byte :=
  match rpDecodeListQuery (inBuf.drop 2) with
  | none => rpWriteRetval .err
  | some _ => if amb.mallocFails then rpWriteRetval .err else rpWriteRetval elveesQuery

/-- The answer to the query for the offsets. -/
def offsetsQuery : List Byte :=
  let (ret, text, data, bss) := elveesOffsetsQuery
  if ret = .ok then
    asciiText "Text=" ++ hexNumber text.toNat ++ asciiText ";Data=" ++ hexNumber data.toNat ++
      asciiText ";Bss=" ++ hexNumber bss.toNat
  else rpWriteRetval ret

/-- `handle_query_command`. A query for a process is always decoded. -/
def handleQueryCommand (t : Target) (amb : Ambient) (pkt : Packet) (outBuf : List Byte) :
    Control σ Handled :=
  if pkt.text.length = 1 then answerWith t outBuf
  else if (asciiText "Offsets").isPrefixOf pkt.text.tail then answerWith t offsetsQuery
  else if (asciiText "CRC:").isPrefixOf pkt.text.tail then answerWith t (crcQuery pkt.text)
  else if unsupportedQueries.any (·.isPrefixOf pkt.text.tail) then answerWith t (rpWriteRetval .nosupp)
  else if (asciiText "Rcmd,").isPrefixOf pkt.text.tail then
    match elveesRemcmd (pkt.text.drop 6 ++ 0 :: pkt.behind) with
    | .error e => Program.stop e
    | .ok (console, ret) => return ⟨rpWriteRetval ret, t, console⟩
  else if pkt.text.getD 1 0 = ascii 'L' then answerWith t (listQuery amb pkt.text)
  else answerWith t (rpWriteRetval elveesQuery)

/-- `handle_breakpoint_command`. -/
def handleBreakpointCommand (A : Adapter σ) (t : Target) (inBuf : List Byte) : Control σ Handled :=
  match rpDecodeBreak inBuf with
  | none => answerWith t (rpWriteRetval .err)
  | some (type, addr, _) => do
    let ret ← calls (if inBuf.headD 0 = ascii 'Z' then elveesAddBreak A type.toNat addr
      else elveesRemoveBreak A type.toNat addr)
    answerWith t (rpWriteRetval ret.retVal)

/-- The handlers of the packets that only the target answers. -/
def handlePacket (A : Adapter σ) (t : Target) (amb : Ambient) (pkt : Packet) (outBuf : List Byte) :
    Control σ Handled :=
  let c := pkt.text.headD 0
  if c = ascii 'g' then handleReadRegistersCommand A t amb outBuf
  else if c = ascii 'G' then handleWriteRegistersCommand A t pkt.text
  else if c = ascii 'H' then answerWith t (handleThreadCommands pkt.text outBuf)
  else if c = ascii 'm' then handleReadMemoryCommand A t amb pkt.text outBuf
  else if c = ascii 'M' then handleWriteMemory A t pkt.text
  else if c = ascii 'p' then handleReadSingleRegisterCommand A t amb pkt.text outBuf
  else if c = ascii 'P' then handleWriteSingleRegisterCommand A t pkt.text
  else if c = ascii 'q' then handleQueryCommand t amb pkt outBuf
  else if c = ascii 't' then answerWith t (handleSearchMemoryCommand pkt.text)
  else if c = ascii 'T' then answerWith t (handleThreadAliveCommand amb pkt.text)
  else if c = ascii 'Z' ∨ c = ascii 'z' then handleBreakpointCommand A t pkt.text
  else answerWith t outBuf

end Mcprog
