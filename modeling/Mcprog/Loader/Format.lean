import Mcprog.Loader.Readers

/-!
# Well-formed files

What an S-record file and a HEX file say, from the description of the two formats: the
data records of a text, in their order. A line that is no data record has none, and what
follows the end record is not looked at.
-/

namespace Mcprog

/-- A data record: the bytes from an address on. -/
structure DataRecord where
  addr : Nat
  data : List Byte
  deriving DecidableEq, Repr

/-- The address after the last byte. -/
def DataRecord.last (r : DataRecord) : Nat := r.addr + r.data.length

/-- A character is the digit of a number below 16, in one of the two cases. -/
def IsDigit (n : Nat) (c : Byte) : Prop :=
  n < 10 ∧ c.toNat = 0x30 + n ∨ 10 ≤ n ∧ n < 16 ∧ (c.toNat = 0x41 + (n - 10) ∨ c.toNat = 0x61 + (n - 10))

/-- A text spells a list of bytes, two digits each. -/
inductive HexText : List Byte → List Byte → Prop
  | nil : HexText [] []
  | cons {b c₁ c₂ : Byte} {bytes text : List Byte} (high : IsDigit (b.toNat / 16) c₁)
      (low : IsDigit (b.toNat % 16) c₂) (rest : HexText bytes text) :
      HexText (b :: bytes) (c₁ :: c₂ :: text)

/-- A number in `n` bytes, the high one first. -/
def bytesBE : Nat → Nat → List Byte
  | 0, _ => []
  | n + 1, x => BitVec.ofNat 8 (x / 256 ^ n) :: bytesBE n x

/-- The ends of a line. -/
def IsEol (eol : List Byte) : Prop := eol = [newline] ∨ eol = [0x0D, newline]

section

variable {H : Type} (Line : H → List Byte → H → Option DataRecord → Prop) (Stop : List Byte → Prop)

/-- A file of lines, from what the lines before have set on: its data records. The last
line may stand without an end, and the end record may be missing. -/
inductive TextFile : H → List Byte → List DataRecord → Prop
  | eof (h : H) : TextFile h [] []
  | stop (h : H) {text : List Byte} (rest : List Byte) (isStop : Stop text) :
      TextFile h (text ++ rest) []
  | last {h h' : H} {line : List Byte} {r : Option DataRecord} (isLine : Line h line h' r)
      (length : line.length ≤ 254) : TextFile h line r.toList
  | line {h h' : H} {line eol rest : List Byte} {r : Option DataRecord} {rs : List DataRecord}
      (isLine : Line h line h' r) (isEol : IsEol eol) (length : (line ++ eol).length ≤ 255)
      (isRest : TextFile h' rest rs) : TextFile h (line ++ (eol ++ rest)) (r.toList ++ rs)

end

/-- The bytes of an S-record: its count, its body and the complement of their sum. -/
def srecBytes (body : List Byte) : List Byte :=
  let counted := BitVec.ofNat 8 (body.length + 1) :: body
  counted ++ [~~~counted.sum]

/-- A line of an S-record file. Types 0 and 5 have no data; the digit of a data record goes
with the number of bytes in its address. -/
inductive SrecLine : Unit → List Byte → Unit → Option DataRecord → Prop
  | comment {type : Byte} {body text : List Byte} (isType : type = 0x30 ∨ type = 0x35)
      (isText : HexText (srecBytes body) text) : SrecLine () (letterS :: type :: text) () none
  | data {type : Byte} {n : Nat} {r : DataRecord} {text : List Byte}
      (isType : (type, n) ∈ [((0x31 : Byte), 2), (0x32, 3), (0x33, 4)]) (isAddr : r.addr < 256 ^ n)
      (isText : HexText (srecBytes (bytesBE n r.addr ++ r.data)) text) :
      SrecLine () (letterS :: type :: text) () (some r)

/-- The start of an S-record that ends the file. -/
def SrecStop (text : List Byte) : Prop :=
  ∃ type : Byte, type ∈ [(0x37 : Byte), 0x38, 0x39] ∧ text = [letterS, type]

/-- The bytes of a HEX record: its count, its address, its type, its data and the negative
of their sum. -/
def hexBytes (addr : Nat) (type : Byte) (data : List Byte) : List Byte :=
  let body := BitVec.ofNat 8 data.length :: (bytesBE 2 addr ++ type :: data)
  body ++ [-body.sum]

/-- A line of a HEX file, under the high half of the address. -/
inductive HexLine : Nat → List Byte → Nat → Option DataRecord → Prop
  | start {high addr : Nat} {data text : List Byte} (isText : HexText (hexBytes addr 5 data) text) :
      HexLine high (colon :: text) high none
  | extend {high addr : Nat} {first second : Byte} {text : List Byte}
      (isAddr : addr < 0x10000 ∧ addr % 4 = 0)
      (isText : HexText (hexBytes addr 4 [first, second]) text) :
      HexLine high (colon :: text) (first.toNat * 256 + second.toNat) none
  | data {high addr : Nat} {data text : List Byte} (isAddr : addr < 0x10000 ∧ addr % 4 = 0)
      (length : data.length ≤ 16) (even : data.length % 2 = 0)
      (isText : HexText (hexBytes addr 0 data) text) :
      HexLine high (colon :: text) high (some ⟨high * 0x10000 + addr, data⟩)

/-- A HEX record that ends the file. -/
def HexStop (text : List Byte) : Prop :=
  ∃ addr data text', HexText (hexBytes addr 1 data) text' ∧ text = colon :: text'

/-- The two formats. -/
inductive Format
  | srec
  | hex
  deriving DecidableEq, Repr

/-- A well-formed file, with its data records. -/
def WellFormed : Format → List Byte → List DataRecord → Prop
  | .srec, file, rs => TextFile SrecLine SrecStop () file rs
  | .hex, file, rs => TextFile HexLine HexStop 0 file rs

/-- The loader of a format. -/
def readFormat : Format → List Byte → Load Int
  | .srec => readSrec
  | .hex => readHex

end Mcprog
