import Mcprog.Adapter.BulkPipe
import Mcprog.Library.Cells
import Mcprog.Library.Tap

/-!
# Packets of MPSSE commands

`mpsse_send` of `adapter-mpsse.c` packs a scan into commands of the FT2232: the prolog as a
TMS command, the whole bytes of the data, the bits that are left, and the last bit in a TMS
command again, since TMS is high with it. The commands are collected in a buffer.
-/

namespace Mcprog

open Interaction Cells Jtag

def mpsseClkwneg : Byte := 0x01
def mpsseBitmode : Byte := 0x02
def mpsseLsb : Byte := 0x08
def mpsseWtdi : Byte := 0x10
def mpsseRtdo : Byte := 0x20
def mpsseWtms : Byte := 0x40

/-- The code of a command, with or without a read. -/
def mpsseCode (bits : Byte) (readFlag : Bool) : Byte :=
  (if readFlag then mpsseRtdo else 0) + bits + mpsseClkwneg + mpsseLsb

/-- Clock data to the TMS pin. -/
def mpsseTms (readFlag : Bool) : Byte := mpsseCode (mpsseWtms + mpsseBitmode) readFlag

/-- Clock whole bytes. -/
def mpsseBytes (readFlag : Bool) : Byte := mpsseCode mpsseWtdi readFlag

/-- Clock bits of a byte. -/
def mpsseBits (readFlag : Bool) : Byte := mpsseCode (mpsseWtdi + mpsseBitmode) readFlag

/-- `mpsse_adapter_t`. Of `output` there are the bytes that wait to be written. -/
structure MpssePort where
  output : List Byte
  input : Nat → Byte
  bytesToRead : Nat
  bytesPerWord : Nat
  fixHighBit : BitVec 64
  highByteMask : BitVec 64
  highBitMask : BitVec 64
  highByteBits : Nat

/-- `sizeof (a->output)`. -/
def mpsseSize : Nat := 256 * 16

/-- `sizeof (a->input)`. -/
def mpsseInputSize : Nat := 64

variable {σ : Type} (pipe : BulkPipe σ)

/-- Bytes stored at the end of the buffer. -/
def mpssePut (bytes : List Byte) : UsbAction MpssePort σ Unit := do
  if (← getOwn).output.length + bytes.length > mpsseSize then
    Program.stop .overrun
  else
    setOwn fun a => { a with output := a.output ++ bytes }

/-- Write bytes to the device. When only a part of them is taken, a message is all that
comes of it. -/
def bulkWrite (bytes : List Byte) : UsbAction MpssePort σ Unit := do
  match ← usbBulkWrite pipe bytes with
  | none => Program.stop (.exit (-1) "usb bulk write failed\n" [])
  | some _ => pure ()

/-- The reply to what is written, less the status bytes of each transfer. -/
def mpsseReply : Nat → (bytesRead : Nat) → UsbAction MpssePort σ Unit
  | 0, bytesRead => do
    if bytesRead < (← getOwn).bytesToRead then Program.stop .fuel else pure ()
  | fuel + 1, bytesRead => do
    let a ← getOwn
    if bytesRead < a.bytesToRead then
      match ← usbBulkRead pipe (a.bytesToRead - bytesRead + 2) with
      | none => Program.stop (.exit (-1) "usb bulk read failed\n" [])
      | some reply =>
        -- the reply has its own buffer, of the size of the input
        if reply.length > mpsseInputSize then
          Program.stop .overrun
        else if reply.length > 2 then
          if bytesRead + (reply.length - 2) > mpsseInputSize then
            Program.stop .overrun
          else
            setOwn fun a => { a with input := store a.input bytesRead (reply.drop 2) }
            mpsseReply fuel (bytesRead + (reply.length - 2))
        else
          mpsseReply fuel bytesRead
    else pure ()

/-- Write the buffer to the device and wait for the replies to it. -/
def mpsseFlushOutput (fuel : Nat) : UsbAction MpssePort σ Unit := do
  let a ← getOwn
  if a.output = [] then
    pure ()
  else
    bulkWrite pipe a.output
    setOwn fun a => { a with output := [] }
    if a.bytesToRead = 0 then
      pure ()
    else
      mpsseReply pipe fuel 0
      setOwn fun a => { a with bytesToRead := 0 }

/-- The prolog of TMS, from 1 to 14 bits. -/
def prologCommands (nbits : Nat) (prolog : Word) : List Byte :=
  if nbits = 0 then []
  else if nbits < 8 then
    [mpsseTms false, BitVec.ofNat 8 (nbits - 1), prolog.setWidth 8]
  else
    [mpsseTms false, 7 - 1, (prolog &&& 0x7f).setWidth 8,
      mpsseTms false, BitVec.ofNat 8 (nbits - 7 - 1), (prolog >>> 7).setWidth 8]

/-- The whole bytes of the data. -/
def byteCommands (nbytes : Nat) (tdi : BitVec 64) (readFlag : Bool) : List Byte :=
  if nbytes = 0 then []
  else
    [mpsseBytes readFlag, BitVec.ofNat 8 (nbytes - 1), BitVec.ofNat 8 ((nbytes - 1) >>> 8)] ++
      leBytes nbytes tdi

/-- The bits of the last byte that is not whole. -/
def bitCommands (nbits : Nat) (tdi : BitVec 64) (readFlag : Bool) : List Byte :=
  if nbits = 0 then []
  else [mpsseBits readFlag, BitVec.ofNat 8 (nbits - 1), tdi.setWidth 8]

/-- The last bit with TMS high, and one more clock with TMS high. -/
def lastCommands (tdi : BitVec 64) (readFlag : Bool) : List Byte :=
  [mpsseTms readFlag, 1, (tdi <<< 7 ||| 1 ||| 1 <<< 1).setWidth 8]

/-- The data of a packet, from 1 to 64 bits. -/
def mpsseData (tdiNbits : Nat) (tdi : BitVec 64) (readFlag : Bool) : UsbAction MpssePort σ Unit := do
  let nbytes := (tdiNbits - 1) / 8
  let lastByteBits := (tdiNbits - 1) % 8
  if readFlag then
    let bytesPerWord := if lastByteBits > 0 then nbytes + 1 else nbytes
    setOwn fun a => { a with highByteBits := lastByteBits, fixHighBit := 0, highByteMask := 0,
                             bytesPerWord, bytesToRead := a.bytesToRead + bytesPerWord }
  mpssePut (byteCommands nbytes tdi readFlag)
  let tdi := tdi >>> (8 * nbytes)
  mpssePut (bitCommands lastByteBits tdi readFlag)
  -- without a read the count of bytes may be 0 here, but then the mask is not used
  if lastByteBits > 0 then
    setOwn fun a => { a with highByteMask := 0xff#64 <<< ((a.bytesPerWord - 1) * 8) }
  mpssePut (lastCommands (tdi >>> lastByteBits) readFlag)
  if readFlag then
    setOwn fun a => { a with fixHighBit := 0x40#64 <<< (a.bytesPerWord * 8),
                             bytesPerWord := a.bytesPerWord + 1, bytesToRead := a.bytesToRead + 1,
                             highBitMask := 1#64 <<< (tdiNbits - 1) }

/-- Add a packet to the buffer. Data get the standard prolog 1-0-0 behind the given one, and an
epilog of one bit, which goes out with the last bit of the data. -/
def mpsseSend (fuel tmsPrologNbits : Nat) (tmsProlog : Word) (tdiNbits : Nat) (tdi : BitVec 64)
    (readFlag : Bool) : UsbAction MpssePort σ Unit := do
  if (← getOwn).output.length > mpsseSize - 23 then
    mpsseFlushOutput pipe fuel
  if tdiNbits > 0 then
    mpssePut (prologCommands (tmsPrologNbits + 3) (tmsProlog ||| (1#32 <<< tmsPrologNbits)))
    mpsseData tdiNbits tdi readFlag
  else
    mpssePut (prologCommands tmsPrologNbits tmsProlog)

/-- Write a debug register. -/
def mpsseOncdWrite (fuel : Nat) (value reg : Word) (reglen : Nat) : UsbAction MpssePort σ Unit :=
  mpsseSend pipe fuel 0 0 (9 + reglen) (oncdWriteData value reg reglen) false

end Mcprog
