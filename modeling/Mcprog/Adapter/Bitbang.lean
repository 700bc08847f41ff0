import Mcprog.Adapter.BulkPipe
import Mcprog.Library.Cells
import Mcprog.Library.Tap

/-!
# The bitbang adapter

Each byte that the FT232R takes sets the pins of the JTAG port once, and one byte comes back
for it. `adapter-bitbang.c` collects the samples of a scan in a buffer, two for each clock,
and exchanges the buffer in packets that do not overflow the FIFO of the chip.
-/

namespace Mcprog

open Interaction Cells

def tck : Byte := 0x01
def tdi : Byte := 0x02
def readTdo : Byte := 0x04
def tms : Byte := 0x08
def ntrst : Byte := 0x10
def nsysrst : Byte := 0x40

/-- The byte that `bitbang_write` makes of the levels of TCK, TMS and TDI. -/
def sample (clk mode data : Bool) : Byte :=
  ntrst ||| nsysrst ||| (if clk then tck else 0) ||| (if mode then tms else 0) |||
    (if data then tdi else 0)

/-- `output` and `output_len` of `bitbang_adapter_t`. -/
structure Bitbang where
  output : Nat → Byte
  outputLen : Nat

/-- `sizeof (a->output)`. -/
def bitbangSize : Nat := 128

/-- `a->output [a->output_len++] = out_value`. -/
def Bitbang.push (a : Bitbang) (value : Byte) : Bitbang :=
  ⟨store a.output a.outputLen [value], a.outputLen + 1⟩

/-- The bytes of the buffer from `start` on. -/
def Bitbang.bytes (a : Bitbang) (start n : Nat) : List Byte :=
  (List.range n).map fun i => a.output (start + i)

variable {σ : Type} (pipe : BulkPipe σ)

/-- The message for a buffer that is full. -/
def bufferOverflow : Fatal := .exit (-1) "bitbang_write: buffer overflow\n" []

/-- Add one sample. -/
def bitbangWrite (clk mode data : Bool) : UsbAction Bitbang σ Unit := do
  if (← getOwn).outputLen ≥ bitbangSize then
    Program.stop bufferOverflow
  else
    setOwn fun a => a.push (sample clk mode data)

/-- A byte stored without a check. -/
def bitbangPut (value : Byte) : UsbAction Bitbang σ Unit := do
  if (← getOwn).outputLen ≥ bitbangSize then
    Program.stop .overrun
  else
    setOwn fun a => a.push value

/-- Extract the input data: a bit for every second byte. -/
def bitbangRead {w : Nat} (output : Nat → Byte) (offset nbits : Nat) (data : BitVec w) : BitVec w :=
  (List.range nbits).foldl (fun data n =>
    if output (offset + n * 2 + 1) &&& readTdo ≠ 0 then data ||| (1#w <<< n)
    else data &&& ~~~(1#w <<< n)) data

/-- A TMS step. -/
def bitbangStep (mode : Bool) : UsbAction Bitbang σ Unit := do
  bitbangWrite false mode true
  bitbangWrite true mode true

/-- The bytes of a packet that are not written yet. -/
def writePacket : Nat → List Byte → UsbAction Bitbang σ Unit
  | _, [] => pure ()
  | 0, _ => Program.stop .fuel
  | fuel + 1, bytes => do
    match ← usbBulkWrite pipe bytes with
    | none => Program.stop (.exit (-1) "usb bulk write failed\n" [])
    | some n => writePacket fuel (bytes.drop n)

/-- The reply to what is written. It goes over the bytes of the buffer from `rxdone` on, less
the two status bytes; the new `rxdone` is returned. The status bytes count as received. -/
def readReply : Nat → (bytesToRead bytesRead rxdone : Nat) → UsbAction Bitbang σ Nat
  | 0, bytesToRead, bytesRead, rxdone =>
    if bytesRead < bytesToRead then Program.stop .fuel else pure rxdone
  | fuel + 1, bytesToRead, bytesRead, rxdone =>
    if bytesRead < bytesToRead then do
      match ← usbBulkRead pipe (bytesToRead - bytesRead + 2) with
      | none => Program.stop (.exit (-1) "usb bulk read failed\n" [])
      | some reply =>
        if reply.length > 2 then
          if rxdone + (reply.length - 2) > bitbangSize then
            Program.stop .overrun
          else
            setOwn fun a => { a with output := store a.output rxdone (reply.drop 2) }
            readReply fuel bytesToRead (bytesRead + reply.length) (rxdone + (reply.length - 2))
        else
          readReply fuel bytesToRead bytesRead rxdone
    else pure rxdone

/-- The bytes of a reply behind its status bytes: `sizeof(reply) - 2`. -/
def fifoSize : Nat := 62

/-- The packets, from the indices in the buffer and the room in the FIFO on. -/
def exchange : Nat → (txdone rxdone emptyRxfifo : Nat) → UsbAction Bitbang σ Unit
  | 0, _, _, _ => Program.stop .fuel
  | fuel + 1, txdone, rxdone, emptyRxfifo => do
    let a ← getOwn
    if rxdone < a.outputLen then
      let bytesToWrite := min (min 64 (a.outputLen - txdone)) emptyRxfifo
      writePacket pipe fuel (a.bytes txdone bytesToWrite)
      let txdone := txdone + bytesToWrite
      let emptyRxfifo := emptyRxfifo - bytesToWrite
      if emptyRxfifo = 0 ∨ txdone = a.outputLen then
        let rxdone ← readReply pipe fuel (fifoSize - emptyRxfifo) 0 rxdone
        exchange fuel txdone rxdone fifoSize
      else
        exchange fuel txdone rxdone emptyRxfifo
    else
      pure ()

/-- Send the buffer and put what is received in its place. -/
def bitbangSendRecv (fuel : Nat) : UsbAction Bitbang σ Unit := do
  bitbangWrite false true true
  exchange pipe fuel 0 0 fifoSize
  setOwn fun a => { a with outputLen := 0 }

/-- The bits of an instruction, the last one with TMS high. -/
def instrBits (newinst : Word) : Nat → Word → UsbAction Bitbang σ Unit
  | 0, _ => pure ()
  | left + 1, mask => do
    bitbangWrite false (left = 0) (newinst &&& mask ≠ 0)
    bitbangWrite true (left = 0) (newinst &&& mask ≠ 0)
    instrBits newinst left (mask <<< 1)

/-- Enter a new instruction in the TAP machine. -/
def tapInstr (fuel : Nat) (nbits : Nat) (newinst : Word) : UsbAction Bitbang σ Word := do
  bitbangStep true
  bitbangStep true
  bitbangStep false
  bitbangStep false
  let inputOffset := (← getOwn).outputLen
  instrBits newinst nbits 1
  bitbangStep true
  bitbangSendRecv pipe fuel
  return bitbangRead (← getOwn).output inputOffset nbits (0 : Word)

/-- The mask, the byte and the rest of the stream for the next bit: a new byte once the mask is
used up. The stream is `none` for a null pointer; the result is `none` where it has ended. -/
def nextBit (mask databits : Byte) (newdata : Option (List Byte)) :
    Option (Byte × Byte × Option (List Byte)) :=
  if mask = 0 then
    match newdata with
    | none => some (1, databits, none)
    | some [] => none
    | some (byte :: bytes) => some (1, byte, some bytes)
  else some (mask, databits, newdata)

/-- The bits of a data stream, the last one with TMS high. -/
def dataBits : Nat → Byte → Byte → Option (List Byte) → UsbAction Bitbang σ Unit
  | 0, _, _, _ => pure ()
  | left + 1, mask, databits, newdata =>
    match nextBit mask databits newdata with
    | none => Program.stop .overrun
    | some (mask, databits, newdata) => do
      bitbangWrite false (left = 0) (databits &&& mask ≠ 0)
      bitbangWrite true (left = 0) (databits &&& mask ≠ 0)
      dataBits left (mask <<< 1) databits newdata

/-- Enter a bit stream in the selected data register. What is read out replaces the bits of
`olddata`, if there is a place for it. -/
def tapData (fuel nbits : Nat) (newdata : Option (List Byte)) (olddata : Option (BitVec 64)) :
    UsbAction Bitbang σ (Option (BitVec 64)) := do
  bitbangStep true
  bitbangStep false
  bitbangStep false
  let inputOffset := (← getOwn).outputLen
  dataBits nbits 0 0 newdata
  bitbangStep true
  bitbangSendRecv pipe fuel
  let output := (← getOwn).output
  return olddata.map fun data => bitbangRead output inputOffset nbits data

def tapIdcode : Word := 3
def tapDebugRequest : Word := 4
def tapDebugEnable : Word := 5

/-- Six clocks that reset the controller and lead to Run-Test/Idle. -/
def bitbangTapReset : UsbAction Bitbang σ Unit := do
  bitbangStep true
  bitbangStep true
  bitbangStep true
  bitbangStep true
  bitbangStep true
  bitbangStep false

/-- What `adapter_open_bitbang` does with the buffer. -/
def bitbangOpen (fuel : Nat) : UsbAction Bitbang σ Unit := do
  bitbangTapReset
  bitbangSendRecv pipe fuel

/-- Read the identification code of the device. -/
def bitbangGetIdcode (fuel : Nat) : UsbAction Bitbang σ Word := do
  bitbangTapReset
  let _ ← tapInstr pipe fuel 4 tapIdcode
  let idcode ← tapData pipe fuel 32 none (some 0)
  return (idcode.getD 0).setWidth 32

/-- Whether the processor is stopped. -/
def bitbangCpuStopped (fuel : Nat) : UsbAction Bitbang σ Word := do
  let ir ← tapInstr pipe fuel 4 tapDebugEnable
  return ir &&& 4

/-- Read a debug register. -/
def bitbangOncdRead (fuel : Nat) (reg : Word) (reglen : Nat) : UsbAction Bitbang σ Word := do
  let data := (reg ||| BitVec.ofNat 32 irdRead).signExtend 64
  let data ← tapData pipe fuel (9 + reglen) (some (leBytes 8 data)) (some data)
  return (data.getD 0 >>> 9).setWidth 32

/-- Write a debug register. -/
def bitbangOncdWrite (fuel : Nat) (value reg : Word) (reglen : Nat) : UsbAction Bitbang σ Unit := do
  let _ ← tapData pipe fuel (9 + reglen) (some (leBytes 8 (oncdWriteData value reg reglen))) none

/-- Wait until the processor enters the debug mode. -/
def bitbangStopped (fuel : Nat) : Nat → UsbAction Bitbang σ Unit
  | 0 => Program.stop (.exit 1 "Timeout while entering debug mode\n" [])
  | tries + 1 => do
    let oldIr ← tapInstr pipe fuel 4 tapDebugEnable
    if oldIr = 5 then pure () else bitbangStopped fuel tries

/-- Bring the chip into the debug mode. -/
def bitbangStopCpu (fuel : Nat) : UsbAction Bitbang σ Unit := do
  let _ ← tapInstr pipe fuel 4 tapDebugRequest
  bitbangStopped pipe fuel 50

/-- The bytes of a hardware reset. -/
def resetSamples : List Byte :=
  let idle := ntrst ||| nsysrst ||| tms ||| tdi
  List.replicate 5 (idle &&& ~~~nsysrst) ++ [idle]

/-- Reset the processor. -/
def bitbangResetCpu (fuel : Nat) : UsbAction Bitbang σ Unit := do
  bitbangSendRecv pipe fuel
  resetSamples.forM bitbangPut
  bitbangSendRecv pipe fuel

/-- A call of a method of the adapter. -/
inductive BitbangCall
  | getIdcode
  | cpuStopped
  | stopCpu
  | resetCpu
  | oncdRead (reg : Word) (reglen : RegLen)
  | oncdWrite (value reg : Word) (reglen : RegLen)

/-- What the call does, its answer aside. -/
def BitbangCall.run (fuel : Nat) : BitbangCall → UsbAction Bitbang σ Unit
  | .getIdcode => do let _ ← bitbangGetIdcode pipe fuel
  | .cpuStopped => do let _ ← bitbangCpuStopped pipe fuel
  | .stopCpu => bitbangStopCpu pipe fuel
  | .resetCpu => bitbangResetCpu pipe fuel
  | .oncdRead reg reglen => do let _ ← bitbangOncdRead pipe fuel reg reglen
  | .oncdWrite value reg reglen => bitbangOncdWrite pipe fuel value reg reglen

/-- The states between two calls: the adapter is opened on zeroed memory, and then called. -/
inductive Bitbang.Reachable : Attached Bitbang σ → Prop
  | opened {fuel : Nat} {usb : σ} {a : Attached Bitbang σ}
      (h : (bitbangOpen pipe fuel).Reaches ⟨⟨fun _ => 0, 0⟩, usb⟩ () a) : Reachable a
  | called {fuel : Nat} {a a' : Attached Bitbang σ} {call : BitbangCall} (ha : Reachable a)
      (h : (call.run pipe fuel).Reaches a () a') : Reachable a'

end Mcprog
