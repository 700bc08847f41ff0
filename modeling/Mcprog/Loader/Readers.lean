import Mcprog.Loader.Records

/-!
# Reading S-record and HEX files

`read_srec`, `read_hex` and `read_bin`. A file is the list of its bytes; opening and
closing it is left out.
-/

namespace Mcprog

open Interaction Cells

/-- The letter that starts an S-record. -/
def letterS : Byte := 0x53

/-- The address of a data record, from its number of bytes on. -/
def srecAddress : Nat → Nat → Word → Load Word
  | 0, _, address => pure address
  | n + 1, i, address => do
    let byte ← hexAt i
    srecAddress n (i + 2) ((address <<< 8) ||| BitVec.ofInt 32 byte)

/-- The number of bytes in the address of a data record of a type. -/
def srecAddressBytes (type : Byte) : Option Nat :=
  if type = 0x33 then some 4
  else if type = 0x32 then some 3
  else if type = 0x31 then some 2
  else none

/-- An S-record that does not end the file. Its checksum is not looked at. -/
def srecRecord (type : Byte) (outputLen : Int) : Load Int := do
  let bytes ← hexAt 2
  match srecAddressBytes type with
  | some n => do
    let address ← srecAddress n 4 0
    placeRecord address (bytes - 1 - n)
      (fun i => do return BitVec.ofInt 8 (← hexAt (4 + 2 * n + 2 * i))) outputLen
  | none => return outputLen

/-- The lines of an S-record file. -/
def srecLines : List (List Byte) → Int → Load Int
  | [], outputLen => pure outputLen
  | line :: lines, outputLen => do
    fgets line
    let first ← readChar 0
    if first = newline then
      srecLines lines outputLen
    else if first ≠ letterS then
      if outputLen = 0 then pure outputLen else refuse "%s: bad file format\n" []
    else do
      let type ← readChar 1
      if type = 0x37 ∨ type = 0x38 ∨ type = 0x39 then
        pure outputLen
      else if ¬ isxdigit (← readChar 2) then
        refuse "%s: bad record: %s\n" []
      else if ¬ isxdigit (← readChar 3) then
        refuse "%s: bad record: %s\n" []
      else do
        let outputLen ← srecRecord type outputLen
        srecLines lines outputLen

/-- `read_srec`: the length of the image. -/
def readSrec (file : List Byte) : Load Int := srecLines (fgetsLines file) 0

/-- The character that starts a HEX record. -/
def colon : Byte := 0x3A

/-- All of these characters of the buffer are hexadecimal digits. -/
def allDigits : List Nat → Load Bool
  | [] => pure true
  | i :: is => do
    if isxdigit (← readChar i) then allDigits is else return false

/-- Store a byte in the record buffer. -/
def writeData (i : Nat) (b : Byte) : Load Unit :=
  Program.request (fun s => .ok ((), { s with data := store s.data i [b] })) fun _ => .writeData i

/-- Load a byte of the record buffer. -/
def readData (i : Nat) : Load Byte :=
  Program.request (fun s => .ok (s.data i, s)) fun _ => .readData i

/-- Read the data bytes of a record into the record buffer, and add them up. -/
def hexData : Nat → Nat → Byte → Load Byte
  | 0, _, sum => pure sum
  | n + 1, i, sum => do
    let byte := BitVec.ofInt 8 (← hexAt (9 + i + i))
    writeData i byte
    hexData n (i + 1) (sum + byte)

/-- The number of characters before the first one that is 0. -/
def strlen (s : LoadState) : Nat :=
  ((List.range s.stored).find? fun i => s.buf i = 0).getD s.stored

/-- What a HEX record asks for. -/
inductive HexStep
  /-- It ends the file. -/
  | stop
  /-- It sets the high half of the address. -/
  | high (high : Word)
  /-- It has no effect, or it has grown the image to a length. -/
  | next (outputLen : Int)
  deriving DecidableEq, Repr

/-- A HEX record. -/
def hexRecord (high : Word) (outputLen : Int) : Load HexStep := do
  if ← allDigits [1, 2, 3, 4, 5, 6, 7, 8] then do
    let recordType := BitVec.ofInt 8 (← hexAt 7)
    if recordType = 1 then
      return .stop
    else if recordType = 5 then
      return .next outputLen
    else do
      let bytes ← hexAt 1
      if bytes % 2 ≠ 0 then
        refuse "%s: odd length\n" []
      else if (strlen (← Program.read) : Int) < bytes * 2 + 11 then
        refuse "%s: too short hex line\n" []
      else do
        let middle ← hexAt 3
        let low ← hexAt 5
        let address := (high <<< 16) ||| BitVec.ofInt 32 middle <<< 8 ||| BitVec.ofInt 32 low
        if address &&& 3 ≠ 0 then
          refuse "%s: odd address\n" []
        else do
          let sum ← hexData bytes.toNat 0 0
          let sum := sum + recordType + BitVec.ofInt 8 bytes + address.setWidth 8 +
            (address >>> 8).setWidth 8
          let check ← hexAt (9 + bytes.toNat + bytes.toNat)
          if sum ≠ BitVec.ofInt 8 (-check) then
            refuse "%s: bad hex checksum\n" []
          else if recordType = 4 then
            if bytes ≠ 2 then
              refuse "%s: invalid hex linear address record length\n" []
            else do
              let first ← readData 0
              let second ← readData 1
              return .high ((first.setWidth 32 <<< 8) ||| second.setWidth 32)
          else if recordType ≠ 0 then
            refuse "%s: unknown hex record type: %d\n" [recordType.setWidth 32]
          else do
            return .next (← placeRecord address bytes readData outputLen)
  else
    refuse "%s: bad record: %s\n" []

/-- The lines of a HEX file. -/
def hexLines : List (List Byte) → Word → Int → Load Int
  | [], _, outputLen => pure outputLen
  | line :: lines, high, outputLen => do
    fgets line
    let first ← readChar 0
    if first = newline then
      hexLines lines high outputLen
    else if first ≠ colon then
      if outputLen = 0 then pure outputLen else refuse "%s: bad HEX file format\n" []
    else do
      match ← hexRecord high outputLen with
      | .stop => pure outputLen
      | .high high => hexLines lines high outputLen
      | .next outputLen => hexLines lines high outputLen

/-- `read_hex`: the length of the image. -/
def readHex (file : List Byte) : Load Int := hexLines (fgetsLines file) 0 0

/-- `read_bin`: at most as many bytes as the output holds. -/
def readBin (file : List Byte) : Load Int := do
  Program.update fun s => { s with output := store s.output 0 (file.take memorySize) }
  return (file.take memorySize).length

end Mcprog
