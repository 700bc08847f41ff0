import Mcprog.Adapter.PortAdapter
import Mcprog.Adapter.UsbPackets
import Mcprog.Library.Caller

/-!
# The parallel port adapter

The methods of `adapter-lpt.c`, down to the accesses to the I/O ports. The port has one direction at a
time, which a bit of its control register sets, and the module remembers what it has set last. What
lies behind the ports is left open, and so is the clock.
-/

namespace Mcprog

open Interaction Program

/-- The I/O ports of the machine and its clock. -/
structure IoPorts (σ : Type) where
  inb : Nat → σ → Byte × σ
  outb : Byte → Nat → σ → σ
  /-- `time (0)`. -/
  time : σ → Nat × σ

/-- The static data of the module, with the machine. -/
structure Lpt (σ : Type) where
  /-- `cur_mode` of `direction_reverse`, which is -1 at first. -/
  curMode : Option Bool
  machine : σ

/-- An access to a port, or a look at the clock. -/
inductive PortEvent
  | inb (port : Nat) (value : Byte)
  | outb (value : Byte) (port : Nat)
  | time (seconds : Nat)
  deriving DecidableEq, Repr

/-- A program of the adapter. -/
abbrev LptAction (σ α : Type) : Type := Program PortEvent (Lpt σ) Fatal α

namespace Lpt

def base : Nat := 0x378
def ecpEcr : Nat := base + 0x402
def sppStatus : Nat := base + 1
def sppControl : Nat := base + 2
def eppAddr : Nat := base + 3
def eppData : Nat := base + 4

def eppStatusTmout : Byte := 0x01
def sppStatusNBusy : Byte := 0x80
def sppControlNReset : Byte := 0x04
def sppControlDirin : Byte := 0x20
def ecrModeEpp : Byte := 0x80

def mcifStart : Byte := 0x02
def mcifFinish : Byte := 0x04
def mcifPrewrite : Byte := 0x08
def mcifPreread : Byte := 0x10
def mcifWriteDr : Byte := 0x20
def mcifWriteIr : Byte := 0x80
def mcifRtiPause : Byte := 0x40
def mcifShift : Byte := 0x41
def mcifPauseRti : Byte := 0x01
def mcifReset : Byte := mcifPreread
def mcifStatusRti : Byte := 0x40
def mcifStatusPauseDr : Byte := 0x80

variable {σ : Type} (io : IoPorts σ)

def inb (port : Nat) : LptAction σ Byte :=
  request (fun s => .ok ((io.inb port s.machine).1, { s with machine := (io.inb port s.machine).2 })) (.inb port)

def outb (value : Byte) (port : Nat) : LptAction σ Unit :=
  request (fun s => .ok ((), { s with machine := io.outb value port s.machine })) fun _ => .outb value port

def time : LptAction σ Nat :=
  request (fun s => .ok ((io.time s.machine).1, { s with machine := (io.time s.machine).2 })) .time

/-- `direction_reverse`. -/
def directionReverse (reverse : Bool) : LptAction σ Unit := do
  let s ← Program.read
  if s.curMode = some reverse then pure ()
  else do
    let ctrl ← inb io sppControl
    outb io (if reverse then ctrl ||| sppControlDirin else ctrl &&& ~~~sppControlDirin) sppControl
    Program.update fun s => { s with curMode := some reverse }

def putcmd (cmd : Byte) : LptAction σ Unit := do
  directionReverse io false
  outb io cmd eppAddr

/-- `wait_status`: whether the state is the expected one. -/
def waitStatus (expected : Byte) : LptAction σ Bool := do
  directionReverse io true
  let status ← inb io eppAddr
  return status &&& 0xf0 = expected

/-- `while (wait_status (expected)) if (time (0) > t0 + 1) exit (1)`. -/
def pollStatus (expected : Byte) (t0 : Nat) (text : String) : Nat → LptAction σ Unit
  | 0 => Program.stop .fuel
  | fuel + 1 => do
    if ← waitStatus io expected then pure ()
    else do
      let now ← time io
      if now > t0 + 1 then Program.stop (.exit 1 text []) else pollStatus expected t0 text fuel

/-- Wait for a state of the adapter for a second or two. -/
def awaitStatus (fuel : Nat) (expected : Byte) (text : String) : LptAction σ Unit := do
  let t0 ← time io
  pollStatus io expected t0 text fuel

/-- Write some bytes to the data port. -/
def outData : List Byte → LptAction σ Unit
  | [] => pure ()
  | b :: bs => do
    outb io b eppData
    outData bs

/-- Read some bytes from the data port. -/
def inData : Nat → LptAction σ (List Byte)
  | 0 => pure []
  | n + 1 => do
    let b ← inb io eppData
    let bs ← inData n
    return b :: bs

/-- `set_ir`. The instruction register has four bits. -/
def setIr (fuel : Nat) (new : Word) : LptAction σ Byte := do
  putcmd io mcifPrewrite
  outData io [4, new.setWidth 8]
  putcmd io mcifWriteIr
  awaitStatus io fuel mcifStatusRti "set_ir: timeout\n"
  putcmd io mcifPreread
  directionReverse io true
  inb io eppData

def noDevice : String := "No device on LPT port -- check cable!\n"

/-- One pass of the loop of `set_dr`: at most 32 bits. What comes in is at the top of four bytes. -/
def shiftDr (fuel len : Nat) (data : List Byte) : LptAction σ (List Byte) := do
  putcmd io mcifPrewrite
  outData io (BitVec.ofNat 8 len :: data.take ((len + 7) / 8))
  putcmd io mcifShift
  awaitStatus io fuel mcifStatusPauseDr noDevice
  directionReverse io true
  let bytes ← inData io 4
  return leBytes ((len + 7) / 8) (wordOfBytes bytes >>> (32 - len))

/-- The loop of `set_dr`. -/
def shiftDrAll (fuel fullLen : Nat) (data : List Byte) : LptAction σ (List Byte) :=
  if _h : fullLen = 0 then pure []
  else do
    let len := min fullLen 32
    let bytes ← shiftDr io fuel len data
    let rest ← shiftDrAll fuel (fullLen - min fullLen 32) (data.drop ((len + 7) / 8))
    return bytes ++ rest
termination_by fullLen
decreasing_by omega

/-- `set_dr`. -/
def setDr (fuel : Nat) (data : List Byte) (len : Nat) : LptAction σ (List Byte) := do
  putcmd io mcifRtiPause
  awaitStatus io fuel mcifStatusPauseDr noDevice
  let bytes ← shiftDrAll io fuel len data
  putcmd io mcifPauseRti
  awaitStatus io fuel mcifStatusRti noDevice
  return bytes

/-- `oncd_io`. One bit more is shifted than there are in the data. -/
def oncdIo (fuel : Nat) (data : List Byte) (len : Nat) : LptAction σ (List Byte) := do
  putcmd io mcifPrewrite
  outData io (BitVec.ofNat 8 (len + 1) :: data.take ((len + 7) / 8))
  putcmd io mcifWriteDr
  awaitStatus io fuel mcifStatusRti "oncd_io: timeout\n"
  putcmd io mcifPreread
  directionReverse io true
  inData io ((len + 7) / 8)

def oncdRead (fuel reg nbits : Nat) : LptAction σ Word := do
  let bytes ← oncdIo io fuel (BitVec.ofNat 8 (reg ||| 0x40) :: leBytes 4 (0 : Word)) (8 + nbits)
  return wordOfBytes bytes.tail

def oncdWrite (fuel : Nat) (val : Word) (reg nbits : Nat) : LptAction σ Unit := do
  let _ ← oncdIo io fuel (BitVec.ofNat 8 reg :: leBytes 4 val) (8 + nbits)

/-- Wait until the processor enters the debug mode. -/
def debugEntered (fuel : Nat) : Nat → LptAction σ Unit
  | 0 => Program.stop (.exit 1 "Timeout while entering debug mode\n" [])
  | tries + 1 => do
    let oldIr ← setIr io fuel tapDebugEnable
    if oldIr &&& 4 ≠ 0 then pure () else debugEntered fuel tries

def stopCpu (fuel : Nat) : LptAction σ Unit := do
  let _ ← setIr io fuel tapDebugRequest
  debugEntered io fuel 50

def getIdcode (fuel : Nat) : LptAction σ Word := do
  putcmd io mcifFinish
  putcmd io mcifStart
  let bytes ← setDr io fuel (leBytes 4 (0 : Word)) 32
  return wordOfBytes bytes

def resetCpu : LptAction σ Unit := do
  putcmd io mcifReset
  outData io [0xfe]
  putcmd io mcifReset
  outData io [0xff]

def cpuStopped (fuel : Nat) : LptAction σ Bool := do
  let ir ← setIr io fuel tapDebugEnable
  return ir &&& 4 ≠ 0

/-- The methods by their calls. The block methods and those for a single instruction are not there. -/
def call (fuel : Nat) : (c : AdapterCall) → LptAction σ c.Reply
  | .close => pure ()
  | .getIdcode => getIdcode io fuel
  | .cpuStopped => cpuStopped io fuel
  | .stopCpu => stopCpu io fuel
  | .resetCpu => resetCpu io
  | .oncdWrite val reg nbits => oncdWrite io fuel val reg nbits
  | .oncdRead reg nbits => oncdRead io fuel reg nbits
  | .stepCpu | .runCpu | .readBlock _ _ | .writeBlock _ _ | .writeNwords _ | .programBlock32 _
  | .programBlock32Unprotect _ | .programBlock32Protect _ | .programBlock64 _ | .programBlock32Micron _ _ =>
    Program.stop .nullMethod

/-- `adapter_open_lpt`: whether there is an adapter. -/
def adapterOpen : LptAction σ Bool := do
  outb io ecrModeEpp ecpEcr
  let _ ← inb io sppControl
  outb io (sppControlDirin ||| sppControlNReset) sppControl
  outb io ((sppControlDirin ||| sppControlNReset) &&& ~~~sppControlNReset) sppControl
  outb io (((sppControlDirin ||| sppControlNReset) &&& ~~~sppControlNReset) ||| sppControlNReset) sppControl
  let status ← inb io sppStatus
  if status &&& eppStatusTmout ≠ 0 then outb io status sppStatus
  if status &&& sppStatusNBusy = 0 then return false
  else do
    putcmd io mcifStart
    return true

/-- A run of the program: the adapter is opened, and its methods are called in whatever order. -/
def session {α : Type} (fuel : Nat) (caller : Caller AdapterCall.Reply α) : LptAction σ (Option α) := do
  if ← adapterOpen io then do
    let answer ← caller.perform (call io fuel)
    return some answer
  else return none

/-- The data of the module when the program starts. -/
def start (machine : σ) : Lpt σ := ⟨none, machine⟩

end Lpt

end Mcprog
