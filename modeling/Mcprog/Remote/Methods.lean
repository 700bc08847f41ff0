import Mcprog.Remote.Breakpoint
import Mcprog.Remote.Decode
import Mcprog.Target.Control

/-!
# The methods of the target

What `remote-elvees.c` offers to the proxy. The methods that read fill the buffers of their
caller, the others only say how they have ended.
-/

namespace Mcprog

open Cells Interaction

variable {σ τ ε : Type}

/-- `assert`. -/
def assert (c : Prop) [Decidable c] (text : String) : Program ε σ Fatal Unit :=
  if c then pure () else Program.stop (.assertion text)

/-- The codes of the characters of a text. -/
def asciiText (text : String) : List Byte := text.toList.map ascii

/-- The bytes of a word, the low one first. -/
def wordBytes (w : Word) : List Byte :=
  [w.setWidth 8, (w >>> 8).setWidth 8, (w >>> 16).setWidth 8, (w >>> 24).setWidth 8]

/-- Replace bytes of a word, from the one with the number `k` on. -/
def setBytes (w : Word) (k : Nat) : List Byte → Word
  | [] => w
  | b :: bs => setBytes ((w &&& ~~~((0xFF : Word) <<< (8 * k))) ||| (b.setWidth 32 <<< (8 * k))) (k + 1) bs

theorem getLsbD_byteMask (i : Nat) : (0xFF : Word).getLsbD i = decide (i < 8) := by
  have hmask : (0xFF : Word) = (BitVec.allOnes 8).setWidth 32 := rfl
  rw [hmask, BitVec.getLsbD_setWidth, BitVec.getLsbD_allOnes]
  by_cases h : i < 8
  · simp [h, show i < 32 by omega]
  · simp [h]

/-- A byte of a word of which one byte is replaced. -/
theorem byte_replaced (w : Word) (b : Byte) {j k : Nat} (hj : j < 4) (hk : k < 4) :
    ((w &&& ~~~((0xFF : Word) <<< (8 * j)) ||| (b.setWidth 32 <<< (8 * j))) >>> (8 * k)).setWidth 8 =
      if k = j then b else (w >>> (8 * k)).setWidth 8 := by
  apply BitVec.eq_of_getLsbD_eq
  intro i hi
  simp only [BitVec.getLsbD_setWidth, BitVec.getLsbD_ushiftRight, BitVec.getLsbD_or,
    BitVec.getLsbD_and, BitVec.getLsbD_not, BitVec.getLsbD_shiftLeft, getLsbD_byteMask]
  rcases Nat.lt_trichotomy k j with hlt | rfl | hlt
  · have hbelow : 8 * k + i < 8 * j := by omega
    simp [hi, hbelow, hlt.ne, show 8 * k + i < 32 by omega]
  · simp [hi, show 8 * k + i < 32 by omega, show i < 32 by omega]
  · have habove : ¬8 * k + i < 8 * j := by omega
    have hfar : ¬8 * k + i - 8 * j < 8 := by omega
    have hnone : b.getLsbD (8 * k + i - 8 * j) = false := BitVec.getLsbD_of_ge _ _ (by omega)
    simp [hi, habove, hfar, hnone, hlt.ne', show 8 * k + i < 32 by omega]

/-- The bytes that a word is made of are its bytes. -/
theorem wordBytes_setBytes (w : Word) (a b c d : Byte) :
    wordBytes (setBytes w 0 [a, b, c, d]) = [a, b, c, d] := by
  have hbyte : ∀ k < 4, ((setBytes w 0 [a, b, c, d]) >>> (8 * k)).setWidth 8 =
      if k = 3 then d else if k = 2 then c else if k = 1 then b else if k = 0 then a
      else (w >>> (8 * k)).setWidth 8 := by
    intro k hk
    simp only [setBytes]
    rw [byte_replaced _ _ (by omega) hk, byte_replaced _ _ (by omega) hk,
      byte_replaced _ _ (by omega) hk, byte_replaced _ _ (by omega) hk]
  have h0 := hbyte 0 (by omega)
  simp only [wordBytes]
  rw [hbyte 1 (by omega), hbyte 2 (by omega), hbyte 3 (by omega)]
  simpa using h0

/-- `RP_ELVEES_MAX_ADDRESS`. -/
def maxAddress : BitVec 64 := 0xFFFFFFFF

/-- `RP_ELVEES_NUM_REGS`. -/
def numRegs : Nat := 72

/-- `RP_ELVEES_REG_BYTES`. -/
def regBytes : Nat := numRegs * 4

/-- `RP_ELVEES_REGNUM_FP0`. -/
def regnoFp0 : Nat := 38

/-- `RP_ELVEES_REGNUM_FP`. -/
def regnoFp : Nat := 30

/-- What the local variables of a handler hold: two buffers, and a length. -/
structure ReadData where
  data : Buffer Byte
  avail : Buffer Byte
  len : Nat

/-- Store a register in the buffers. -/
def ReadData.put (d : ReadData) (offset : Nat) (val : Word) : ReadData :=
  { d with
    data := d.data.setAll offset (wordBytes val)
    avail := d.avail.setAll offset [1, 1, 1, 1] }

/-- The loop of `elvees_read_registers`, over `n` registers from `i` on. -/
def readRegistersFrom (A : Adapter σ) (i : Nat) : Nat → Target → ReadData → Action σ (ReadData × Target)
  | 0, t, d => return (d, t)
  | n + 1, t, d => do
    let (val, t) ← targetReadRegister A t i
    readRegistersFrom A (i + 1) n t (d.put (i * 4) val)

/-- `elvees_read_registers`. -/
def elveesReadRegisters (A : Adapter σ) (t : Target) (d : ReadData) :
    Action σ (RetVal × ReadData × Target) := do
  let (d, t) ← readRegistersFrom A 0 regnoFp0 t d
  return (.ok, { d with len := regBytes }, t)

/-- The loop of `elvees_write_registers`, over `n` registers from `i` on. -/
def writeRegistersFrom (A : Adapter σ) (i : Nat) : Nat → Target → List Byte → Action σ Target
  | 0, t, _ => return t
  | n + 1, t, buf =>
    if i * 4 + 4 > buf.length then return t
    else do
      let t ← targetWriteRegister A t i (setBytes 0 0 ((buf.drop (i * 4)).take 4))
      writeRegistersFrom A (i + 1) n t buf

/-- `elvees_write_registers`. -/
def elveesWriteRegisters (A : Adapter σ) (t : Target) (buf : List Byte) : Action σ (RetVal × Target) := do
  assert (buf.length > 0) "write_size > 0"
  assert (buf.length ≤ regBytes) "write_size <= RP_ELVEES_REG_BYTES"
  let t ← writeRegistersFrom A 0 numRegs t buf
  return (.ok, t)

/-- `elvees_read_single_register`. -/
def elveesReadSingleRegister (A : Adapter σ) (t : Target) (regNo : Word) (d : ReadData) :
    Action σ (RetVal × ReadData × Target) :=
  if regNo.toNat ≥ numRegs then return (.err, d, t)
  else do
    let (val, t) ← targetReadRegister A t regNo.toNat
    return (.ok, { d.put 0 val with len := 4 }, t)

/-- `elvees_write_single_register`. -/
def elveesWriteSingleRegister (A : Adapter σ) (t : Target) (regNo : Word) (buf : List Byte) :
    Action σ (RetVal × Target) := do
  assert (buf.length = 4) "write_size == 4"
  if regNo.toNat ≥ numRegs then return (.err, t)
  else do
    let t ← targetWriteRegister A t regNo.toNat (setBytes 0 0 buf)
    return (.ok, t)

/-- The last bytes of a read, less than a word. -/
def readMemLast (A : Adapter σ) (addr reqSize : BitVec 64) (buf : Buffer Byte) (pos : Nat) :
    Action σ (Buffer Byte) := do
  let data ← targetReadWord A (addr.setWidth 32)
  return buf.setAll pos ((wordBytes data).take reqSize.toNat)

/-- The words of a read, and what is left after them. -/
def readMemWords (A : Adapter σ) (addr reqSize : BitVec 64) (buf : Buffer Byte) (pos : Nat) :
    Action σ (Buffer Byte) :=
  if reqSize ≥ 4 then do
    let nwords : Word := (reqSize / 4).setWidth 32
    let words ← targetReadBlock A (addr.setWidth 32) nwords
    let buf := buf.setAll pos (words.flatMap wordBytes)
    if reqSize &&& 3 = 0 then return buf
    else readMemLast A (addr + (nwords * 4).setWidth 64) (reqSize &&& 3) buf (pos + (nwords * 4).toNat)
  else readMemLast A addr reqSize buf pos

/-- `elvees_read_mem`. -/
def elveesReadMem (A : Adapter σ) (addr : BitVec 64) (buf : Buffer Byte) (reqSize : BitVec 64)
    (actualSize : Nat) : Action σ (RetVal × Buffer Byte × Nat) := do
  assert (reqSize > 0) "req_size > 0"
  if addr > maxAddress then return (.err, buf, actualSize)
  else do
    let reqSize := if addr + reqSize > maxAddress + 1 then maxAddress + 1 - addr else reqSize
    let offset := addr &&& 3
    if offset ≠ 0 then do
      let nbytes := if 4 - offset > reqSize then reqSize else 4 - offset
      let data ← targetReadWord A ((addr &&& ~~~3).setWidth 32)
      let buf := buf.setAll 0 (((wordBytes data).drop offset.toNat).take nbytes.toNat)
      if reqSize - nbytes = 0 then return (.ok, buf, reqSize.toNat)
      else do
        let buf ← readMemWords A (addr + nbytes) (reqSize - nbytes) buf nbytes.toNat
        return (.ok, buf, reqSize.toNat)
    else do
      let buf ← readMemWords A addr reqSize buf 0
      return (.ok, buf, reqSize.toNat)

/-- The last bytes of a write, less than a word. -/
def writeMemLast (A : Adapter σ) (t : Target) (addr : BitVec 64) (buf : List Byte) : Action σ Unit := do
  let data ← targetReadWord A (addr.setWidth 32)
  targetWriteWord A t (addr.setWidth 32) (setBytes data 0 buf)

/-- The words of a write, and what is left after them. -/
def writeMemWords (A : Adapter σ) (t : Target) (addr : BitVec 64) (buf : List Byte) : Action σ Unit :=
  if buf.length ≥ 4 then do
    let nwords : Word := BitVec.ofNat 32 (buf.length / 4)
    targetWriteBlock A t (addr.setWidth 32) nwords fun i => setBytes 0 0 ((buf.drop (4 * i)).take 4)
    if buf.length % 4 = 0 then return ()
    else writeMemLast A t (addr + (nwords * 4).setWidth 64) (buf.drop (nwords * 4).toNat)
  else writeMemLast A t addr buf

/-- `elvees_write_mem`. -/
def elveesWriteMem (A : Adapter σ) (t : Target) (addr : BitVec 64) (buf : List Byte) : Action σ RetVal :=
  if buf.length = 0 then return .ok
  else if addr > maxAddress then return .err
  else if addr + BitVec.ofNat 64 buf.length - 1 > maxAddress then return .err
  else do
    let offset := addr &&& 3
    if offset ≠ 0 then do
      let nbytes := if 4 - offset.toNat > buf.length then buf.length else 4 - offset.toNat
      let data ← targetReadWord A ((addr &&& ~~~3).setWidth 32)
      targetWriteWord A t ((addr &&& ~~~3).setWidth 32) (setBytes data offset.toNat (buf.take nbytes))
      if buf.length - nbytes = 0 then return .ok
      else do
        writeMemWords A t (addr + BitVec.ofNat 64 nbytes) (buf.drop nbytes)
        return .ok
    else do
      writeMemWords A t addr buf
      return .ok

/-- `elvees_out_treg`. -/
def elveesOutTreg (A : Adapter σ) (t : Target) (regNo : Nat) : Action σ (List Byte × Target) := do
  let (val, t) ← targetReadRegister A t regNo
  return (byteDigits [BitVec.ofNat 8 regNo] ++ ascii ':' :: byteDigits (wordBytes val) ++ [ascii ';'], t)

/-- The status string of a stopped target. -/
def stopStatus (A : Adapter σ) (t : Target) (sig : String) : Action σ (List Byte × Target) := do
  let (pc, t) ← elveesOutTreg A t regnoPc
  let (fp, t) ← elveesOutTreg A t regnoFp
  return (ascii 'T' :: asciiText sig ++ pc ++ fp, t)

/-- `RP_SIGNAL_BREAKPOINT`, with two digits. -/
def signalBreakpoint : String := "05"

/-- `RP_SIGNAL_ABORTED`, with two digits. -/
def signalAborted : String := "06"

/-- `elvees_close`. -/
def elveesClose (A : Adapter σ) (t : Target) : Control σ Target := targetResume A t

/-- `elvees_connect`. It says in any case that the target can be restarted. -/
def elveesConnect (A : Adapter σ) (t : Target) : Control σ (RetVal × List Byte × Target) := do
  let t ← targetStop A t
  let (status, t) ← calls (stopStatus A t signalBreakpoint)
  return (.ok, status, t)

/-- `elvees_restart`. -/
def elveesRestart (A : Adapter σ) (t : Target) : Control σ (RetVal × Target) := do
  let t ← targetRestart A t
  return (.ok, t)

/-- `elvees_stop`. -/
def elveesStop (A : Adapter σ) (t : Target) : Control σ Target := targetStop A t

/-- `elvees_resume_from_current`. -/
def elveesResumeFromCurrent (A : Adapter σ) (t : Target) (step : Bool) (_sig : Word) :
    Control σ (RetVal × Target) := do
  let t ← (if step then targetStep A t else targetResume A t)
  return (.ok, t)

/-- `elvees_resume_from_addr`. -/
def elveesResumeFromAddr (A : Adapter σ) (t : Target) (_step : Bool) (_sig : Word) (addr : BitVec 64) :
    Control σ (RetVal × Target) := do
  let t ← targetRun A t (addr.setWidth 32)
  return (.ok, t)

/-- `elvees_go_waiting`. -/
def elveesGoWaiting (_sig : Word) : RetVal := .nosupp

/-- What `elvees_wait_partial` gives back. -/
structure Waited where
  ret : RetVal
  implemented : Bool
  more : Bool
  statusString : List Byte
  target : Target

/-- `elvees_wait_partial`. -/
def elveesWaitPartial (A : Adapter σ) (t : Target) (statusString : List Byte) : Control σ Waited := do
  let (state, t) ← targetIsStopped A t
  if state.stopped then do
    let (status, t) ← calls (stopStatus A t (if state.aborted then signalAborted else signalBreakpoint))
    return ⟨.ok, true, false, status, t⟩
  else return ⟨.ok, true, true, statusString, t⟩

/-- `elvees_wait`: the answer, and whether it is implemented. -/
def elveesWait : RetVal × Bool := (.nosupp, false)

/-- The answer to a request for a breakpoint. -/
def TargetRet.retVal : TargetRet → RetVal
  | .ok => .ok
  | .nosupp => .nosupp

/-- `elvees_set_gen_thread` and `elvees_set_ctrl_thread`. -/
def elveesSetThread (_thread : BitVec 64) : RetVal := .nosupp

/-- `elvees_is_thread_alive`, which leaves the variable of its caller as it is. -/
def elveesIsThreadAlive (_thread : BitVec 64) (alive : Word) : RetVal × Word := (.ok, alive)

/-- `elvees_offsets_query`. -/
def elveesOffsetsQuery : RetVal × BitVec 64 × BitVec 64 × BitVec 64 := (.ok, 0, 0, 0)

/-- `elvees_crc_query`. It refuses the ranges that are bad, and the others as well. -/
def elveesCrcQuery (_addr : BitVec 64) (_len : Word) : RetVal := .err

/-- `elvees_list_query`, `elvees_process_query`, `elvees_current_thread_query` and
`elvees_raw_query`. -/
def elveesQuery : RetVal := .nosupp

/-- `remote_decode_nibble`. The digit is unsigned, so that it is never found to be negative. -/
def remoteDecodeNibble (c : Byte) : Option Word :=
  let nib : Word := match rpHexNibble c with
    | some n => n.setWidth 32
    | none => 0xFFFFFFFF
  if nib ≥ 0 then some nib else none

/-- `remote_decode_byte`. -/
def remoteDecodeByte (c₁ c₂ : Byte) : Option Word := do
  let msNibble ← remoteDecodeNibble c₁
  let lsNibble ← remoteDecodeNibble c₂
  return (msNibble <<< 4) + lsNibble

/-- How the command of a debugger is read. -/
inductive Command
  | text (bytes : List Byte)
  | bad
  /-- The end of the string is missed. -/
  | overrun

/-- The loop that turns digits into characters, over the string and what lies behind it. -/
def decodeCommand : List Byte → Command
  | [] => .overrun
  | [c] => if c = 0 then .text [] else .overrun
  | c₁ :: c₂ :: inBuf =>
    if c₁ = 0 then .text []
    else
      match remoteDecodeByte c₁ c₂ with
      | none => .bad
      | some ch =>
        match decodeCommand inBuf with
        | .text bytes => .text (ch.setWidth 8 :: bytes)
        | .bad => .bad
        | .overrun => .overrun

/-- `MAXARGS`. -/
def maxArgs : Nat := 4

/-- The table of commands with their texts. -/
def remoteCommands : List (String × String) :=
  [("help", "This help text"), ("erase", "Erase target flash memory")]

/-- A name in a field of ten characters. -/
def padName (name : String) : String := name ++ String.ofList (List.replicate (10 - name.length) ' ')

/-- What a command writes to the console, and its answer. -/
def runCommand (name : String) : List (List Byte) × RetVal :=
  if name = "help" then
    (byteDigits (asciiText "Remote command help:\n") ::
      remoteCommands.map fun c => byteDigits (asciiText (padName c.1 ++ " " ++ c.2 ++ "\n")), .ok)
  else
    ([byteDigits (asciiText "Erasing target flash - "), byteDigits (asciiText " Erased OK\n")], .ok)

/-- `elvees_remcmd` over the string in the buffer and what lies behind it. The text of the
command has space for a thousand characters. -/
def elveesRemcmd (inBuf : List Byte) : Except Fatal (List (List Byte) × RetVal) :=
  if inBuf.headD 0 = 0 then .ok ([], .err)
  else
    match decodeCommand inBuf with
    | .overrun => .error .overrun
    | .bad => .ok ([], .err)
    | .text bytes =>
      if bytes.length > 1000 then .error .overrun
      else if (bytes.takeWhile (· ≠ 0)).count (ascii ' ') ≥ maxArgs then .ok ([], .err)
      else
        match remoteCommands.find? fun c =>
          asciiText c.1 = (bytes.takeWhile (· ≠ 0)).takeWhile (· ≠ ascii ' ') with
        | some c => .ok (runCommand c.1)
        | none => .ok ([], .nosupp)

end Mcprog
