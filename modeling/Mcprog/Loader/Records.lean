import Mcprog.Adapter.Interface
import Mcprog.Library.Cells

/-!
# The line buffer and the records of a file

What `read_srec` and `read_hex` have in common: the lines that `fgets` puts into their
buffer, the numbers read from it, and the placing of a data record in `memory_data`. Every
access to an array is an event, so it can be asked where a file makes them read and write.
-/

namespace Mcprog

open Interaction Cells

/-- `memory_data`, and what lies behind it. -/
abbrev Image : Type := Nat → Byte

/-- An access to an array, by its index. -/
inductive Access
  /-- A load from the line buffer, of which the last line fills the first `stored` bytes. -/
  | readBuf (index stored : Nat)
  | writeData (index : Nat)
  | readData (index : Nat)
  | writeOutput (index : Nat)
  deriving DecidableEq, Repr

/-- The arrays of a loader, each with what lies behind it, and `memory_base`. -/
structure LoadState where
  buf : Nat → Byte
  /-- The bytes of the last line with the byte that ends it. -/
  stored : Nat
  data : Nat → Byte
  output : Image
  memoryBase : Word

/-- A part of a loader. -/
abbrev Load (α : Type) : Type := Program Access LoadState Fatal α

/-- The size of `memory_data`. -/
def memorySize : Nat := 0x1000000

/-- The size of the line buffer. -/
def bufSize : Nat := 256

variable {α : Type}

/-- `exit (1)` after a message that names the file. -/
def refuse (text : String) (values : List Word) : Load α := Program.stop (.exit 1 text values)

/-- One line of at most `n` characters, and the rest of the file. -/
def fgetsLine : Nat → List Byte → List Byte × List Byte
  | 0, file => ([], file)
  | _ + 1, [] => ([], [])
  | n + 1, c :: file =>
    if c = newline then ([c], file)
    else (c :: (fgetsLine n file).1, (fgetsLine n file).2)

/-- The lines of a file, as many as the fuel allows. -/
def splitLines : Nat → List Byte → List (List Byte)
  | 0, _ => []
  | _ + 1, [] => []
  | fuel + 1, c :: file =>
    (fgetsLine (bufSize - 1) (c :: file)).1 ::
      splitLines fuel (fgetsLine (bufSize - 1) (c :: file)).2

/-- What the calls of `fgets` return one after the other. No line is empty. -/
def fgetsLines (file : List Byte) : List (List Byte) := splitLines file.length file

/-- Put a line into the buffer. -/
def fgets (line : List Byte) : Load Unit :=
  Program.update fun s => { s with buf := store s.buf 0 (line ++ [0]), stored := line.length + 1 }

/-- Load a character of the buffer. -/
def readChar (i : Nat) : Load Byte := do
  let r ← Program.request (fun s => .ok ((s.buf i, s.stored), s)) fun r => .readBuf i r.2
  return r.1

def isdigit (c : Byte) : Bool := 0x30 ≤ c && c ≤ 0x39

def tolower (c : Byte) : Byte := if 0x41 ≤ c && c ≤ 0x5A then c + 0x20 else c

def isxdigit (c : Byte) : Bool :=
  isdigit c || 0x41 ≤ c && c ≤ 0x46 || 0x61 ≤ c && c ≤ 0x66

/-- `NIBBLE`, for any character. -/
def nibble (c : Byte) : Int :=
  if isdigit c then (c.toNat : Int) - 0x30 else ((tolower c).toNat : Int) + 10 - 0x61

/-- `HEX` of two characters of the buffer. -/
def hexAt (i : Nat) : Load Int := do
  let high ← readChar i
  let low ← readChar (i + 1)
  return nibble high * 16 + nibble low

/-- Store a byte in the output. -/
def writeOutput (i : Nat) (b : Byte) : Load Unit :=
  Program.request (fun s => .ok ((), { s with output := store s.output i [b] })) fun _ =>
    .writeOutput i

/-- Store the bytes of a record from an address on. -/
def copyBytes (byteAt : Nat → Load Byte) (address : Word) : Nat → Nat → Load Unit
  | 0, _ => pure ()
  | n + 1, i => do
    let b ← byteAt i
    writeOutput (address + BitVec.ofNat 32 i).toNat b
    copyBytes byteAt address n (i + 1)

/-- `memory_base`, which the first record sets where it is 0. -/
def detectBase (address : Word) : Load Word := do
  let s ← Program.read
  if s.memoryBase = 0 then do
    Program.update fun s => { s with memoryBase := address }
    return address
  else
    return s.memoryBase

/-- Place a data record: the length of the image with it. -/
def placeRecord (address : Word) (bytes : Int) (byteAt : Nat → Load Byte) (outputLen : Int) :
    Load Int := do
  let memoryBase ← detectBase address
  if address < memoryBase then
    refuse "%s: incorrect address %08X, must be %08X or greater\n" [address, memoryBase]
  else
    let address := address - memoryBase
    if (address + BitVec.ofInt 32 bytes).toNat > memorySize then
      refuse "%s: address too large: %08X + %08X\n"
        [address + memoryBase, BitVec.ofInt 32 bytes]
    else do
      copyBytes byteAt address bytes.toNat 0
      let address := address + BitVec.ofNat 32 bytes.toNat
      return if outputLen < address.toInt then address.toInt else outputLen

end Mcprog
