import Mcprog.Adapter.Interface
import Mcprog.Library.Buffers
import Mcprog.Library.Effects

/-!
# The configuration file

`conf_parse` of `conf.c` reads a text of sections and parameters character by character into
one buffer, which grows, and calls a function for every parameter. Here the character that is
read last stands at the head of what is left of the file; at the end of the file there is
none.
-/

namespace Mcprog

open Interaction Cells

/-- `isspace`. No byte above 0x7F is a space in the encodings in use. -/
def isspace (c : Byte) : Bool := (0x09 ≤ c ∧ c ≤ 0x0D) ∨ c = 0x20

def backslash : Byte := 0x5C

/-- `eat_comment`, from the character after the last one on: stop at the end of the line. -/
def eatComment (fp : List Byte) : List Byte := fp.dropWhile fun c => c ≠ 0 ∧ c ≠ newline

/-- `eat_whitespace`: stop at what is no space, or at the end of the line. -/
def eatWhitespace (fp : List Byte) : List Byte := fp.dropWhile fun c => isspace c ∧ c ≠ newline

/-- `find_continuation`: the index of a backslash that only spaces follow. -/
def findContinuation (line : Nat → Byte) : Nat → Option Nat
  | 0 => none
  | pos + 1 =>
    if isspace (line pos) then findContinuation line pos
    else if line pos = backslash then some pos
    else none

/-- `bufr` and `bsize`. Sizes and positions are numbers without a bound. -/
structure ConfBuffer where
  bufr : Buffer Byte
  bsize : Nat

/-- The string that starts at `start`, a terminator at `stop` being known of. -/
def ConfBuffer.string (b : ConfBuffer) (start stop : Nat) : List Byte :=
  (b.bufr.slice start (stop - start)).takeWhile (· ≠ 0)

/-- `bufr[i] = c`. -/
def ConfBuffer.set (b : ConfBuffer) (i : Nat) (c : Byte) : ConfBuffer := { b with bufr := b.bufr.set i c }

/-- Which sizes `malloc` and `realloc` grant. -/
abbrev Heap : Type := Nat → Bool

variable (heap : Heap)

/-- Ensure there is space for the next character. -/
def ConfBuffer.reserve (b : ConfBuffer) (i : Nat) : Except Fatal ConfBuffer :=
  if i > b.bsize - 2 then
    if heap (b.bsize + 1024) then .ok { b with bsize := b.bsize + 1024 }
    else .error (.exit (-1) "%s: malloc failed\n" [])
  else .ok b

/-- How the loop over the name ends: at the start of the value, or with the line. -/
inductive NameEnd
  | value (fp : List Byte) (b : ConfBuffer) (vstart : Nat)
  | badLine (fp : List Byte) (b : ConfBuffer)

/-- The new `end` where a continuation is found at `i`. -/
def continuedEnd (b : ConfBuffer) (i : Nat) : Nat :=
  if i > 0 ∧ b.bufr.get (i - 1) = ascii ' ' then i - 1 else i

theorem length_eatWhitespace (fp : List Byte) : (eatWhitespace fp).length ≤ fp.length :=
  (List.dropWhile_suffix _).length_le

/-- Where a line ends that `c` ends or starts a comment in. -/
def lineEnd (c : Byte) (fp : List Byte) : List Byte := if c = newline then c :: fp else eatComment fp

theorem length_tail_lineEnd (c : Byte) (fp : List Byte) : (lineEnd c fp).tail.length ≤ fp.length := by
  unfold lineEnd
  split
  · exact le_refl _
  · have hdrop : (eatComment fp).length ≤ fp.length := (List.dropWhile_suffix _).length_le
    rw [List.length_tail]
    omega

/-- The loop until the start of the value: `i` is the position in the buffer and `stop` its
current end. -/
def nameLoop (input : List Byte) (b : ConfBuffer) (i stop : Nat) : Except Fatal NameEnd := do
  let b ← b.reserve heap i
  match input with
  | [] => .error (.exit (-1) "%s: unexpected end-of-file at %s: func\n" [])
  | c :: fp =>
    if c = ascii '=' then
      if stop = 0 then .error (.exit (-1) "%s: invalid parameter name\n" [])
      else return .value fp ((b.set stop 0).set (stop + 1) 0) (stop + 1)
    else if c = ascii ';' ∨ c = ascii '#' ∨ c = newline then
      match findContinuation b.bufr.get i with
      | none => return .badLine (lineEnd c fp).tail (b.set stop 0)
      | some i => nameLoop (lineEnd c fp).tail b i (continuedEnd b i)
    else if c = 0 then
      .error (.exit (-1) "%s: unexpected end-of-file at %s: func\n" [])
    else if isspace c then
      nameLoop (eatWhitespace fp) (b.set stop (ascii ' ')) (stop + 1) stop
    else
      nameLoop fp (b.set i c) (i + 1) (i + 1)
termination_by input.length
decreasing_by
  · exact Nat.lt_succ_of_le (length_tail_lineEnd c fp)
  · exact Nat.lt_succ_of_le (length_eatWhitespace fp)
  · exact Nat.lt_succ_self _

/-- The loop over the value, with what is left of the file, the buffer and the end of the value. -/
def valueLoop (input : List Byte) (b : ConfBuffer) (i stop : Nat) :
    Except Fatal (List Byte × ConfBuffer × Nat) :=
  match input with
  | [] => return ([], b, stop)
  | c :: fp =>
    if c = 0 then return (fp, b, stop)
    else do
      let b ← b.reserve heap i
      if c = 0x0D then
        valueLoop fp b i stop
      else if c = ascii ';' ∨ c = ascii '#' ∨ c = newline then
        match findContinuation b.bufr.get i with
        | none => return ((lineEnd c fp).tail, b, stop)
        -- the new end is the backslash itself, which is no space
        | some i => valueLoop (lineEnd c fp).tail b i i
      else
        valueLoop fp (b.set i c) (i + 1) (if isspace c then stop else i + 1)
termination_by input.length
decreasing_by
  · exact Nat.lt_succ_self _
  · exact Nat.lt_succ_of_le (length_tail_lineEnd c fp)
  · exact Nat.lt_succ_self _

/-- The loop over a section name. The name is `none` where the file ends before it does. -/
def sectionLoop (input : List Byte) (b : ConfBuffer) (i stop : Nat) :
    Except Fatal (List Byte × ConfBuffer × Option (List Byte)) :=
  match input with
  | [] => return ([], b, none)
  | c :: fp =>
    if c = 0 then return (fp, b, none)
    else do
      let b ← b.reserve heap i
      if c = ascii ']' then
        let b := b.set stop 0
        if stop = 0 then .error (.exit (-1) "%s: empty section name\n" [])
        else return ((eatComment fp).tail, b, some (b.string 0 stop))
      else if c = newline then
        match findContinuation b.bufr.get i with
        | none => .error (.exit (-1) "%s: invalid line: '%s'\n" [])
        | some i => sectionLoop fp b i (continuedEnd b i)
      else if isspace c then
        sectionLoop (eatWhitespace fp) (b.set stop (ascii ' ')) (stop + 1) stop
      else
        sectionLoop fp (b.set i c) (i + 1) (i + 1)
termination_by input.length
decreasing_by
  · exact Nat.lt_succ_self _
  · exact Nat.lt_succ_of_le (length_eatWhitespace fp)
  · exact Nat.lt_succ_self _

/-- A call of `pfunc`. There is no section before the first header. -/
structure ConfCall where
  cursec : Option (List Byte)
  name : List Byte
  value : List Byte
  deriving DecidableEq, Repr

/-- The statics of `conf.c`. -/
structure Conf where
  buffer : ConfBuffer
  cursec : Option (List Byte)

/-- A program that parses the file. -/
abbrev ConfAction (α : Type) : Type := Program ConfCall Conf Fatal α

/-- A loop on the buffer. -/
def confTry {α : Type} (r : Except Fatal α) : ConfAction α :=
  match r with
  | .ok a => pure a
  | .error e => Program.stop e

/-- Scan a name and value pair and pass it to `pfunc`. What is left of the file is returned. -/
def parseParameter (input : List Byte) : ConfAction (List Byte) := do
  let s ← Program.read
  match ← confTry (nameLoop heap input s.buffer 0 0) with
  | .badLine fp b =>
    Program.update fun s => { s with buffer := b }
    return fp
  | .value fp b vstart =>
    let (fp, b, stop) ← confTry (valueLoop heap (eatWhitespace fp) b vstart vstart)
    let b := b.set stop 0
    Program.update fun s => { s with buffer := b }
    Program.emit ⟨s.cursec, b.string 0 stop, b.string vstart stop⟩
    return fp

/-- Scan a section name and remember it. What is left of the file is returned. -/
def parseSection (fp : List Byte) : ConfAction (List Byte) := do
  let s ← Program.read
  let (fp, b, name) ← confTry (sectionLoop heap (eatWhitespace fp) s.buffer 0 0)
  Program.update fun s => { s with buffer := b, cursec := name.or s.cursec }
  return fp

/-- The loop over the lines. -/
def confLoop : Nat → List Byte → ConfAction Unit
  | _, [] => pure ()
  | 0, _ => Program.stop .fuel
  | fuel + 1, c :: fp =>
    if c = 0 then pure ()
    else if c = newline then
      confLoop fuel (eatWhitespace fp)
    else if c = ascii ';' ∨ c = ascii '#' then
      confLoop fuel (eatComment fp)
    else if c = ascii '[' then do
      let fp ← parseSection heap fp
      confLoop fuel (eatWhitespace fp)
    else if c = backslash then
      confLoop fuel (eatWhitespace fp)
    else do
      let fp ← parseParameter heap (c :: fp)
      confLoop fuel (eatWhitespace fp)

/-- Process a file of parameters. Each turn of the loop takes a character at least. -/
def confParse (file : List Byte) : ConfAction Unit := do
  if heap 1024 then
    Program.update fun s => { s with buffer := { s.buffer with bsize := 1024 } }
    confLoop heap (file.length + 1) (eatWhitespace file)
    Program.update fun s => { s with buffer := { s.buffer with bsize := 0 }, cursec := none }
  else
    Program.stop (.exit (-1) "%s: malloc failed\n" [])

end Mcprog
