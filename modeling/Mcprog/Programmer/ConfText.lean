import Mcprog.Programmer.Conf

/-!
# Configuration texts

The lines that a configuration is written in: blank lines, comments, section headers and
parameters, with spaces and comments wherever they may stand; and the calls that they stand
for, one for each parameter, with its section, name and value.
-/

namespace Mcprog

open Interaction Cells

/-- Spaces within a line. -/
abbrev Blank : Type := { ws : List Byte // ∀ c ∈ ws, isspace c = true ∧ c ≠ newline }

/-- A comment, from its mark to the end of the line. -/
structure IniComment where
  mark : Byte
  text : List Byte
  mark_eq : mark = ascii ';' ∨ mark = ascii '#'
  plain : ∀ c ∈ text, c ≠ 0 ∧ c ≠ newline

/-- What may end a line: spaces, and a comment. -/
structure Trail where
  ws : Blank
  comment : Option IniComment

/-- The characters of names, spaces aside. -/
def NameByte (c : Byte) : Prop :=
  isspace c = false ∧ c ∉ [0, backslash, ascii '=', ascii ';', ascii '#', ascii ']']

instance : DecidablePred NameByte := fun _ => inferInstanceAs (Decidable (_ ∧ _))

/-- A name after its first character: single spaces between other characters. -/
inductive NameRest : List Byte → Prop
  | nil : NameRest []
  | char {c : Byte} {r : List Byte} (hc : NameByte c) (hr : NameRest r) : NameRest (c :: r)
  | space {c : Byte} {r : List Byte} (hc : NameByte c) (hr : NameRest r) :
      NameRest (ascii ' ' :: c :: r)

/-- The name of a section or of a parameter. -/
structure IniName where
  first : Byte
  rest : List Byte
  first_ok : NameByte first ∧ first ≠ ascii '['
  rest_ok : NameRest rest

def IniName.bytes (n : IniName) : List Byte := n.first :: n.rest

/-- The value of a parameter. -/
structure IniValue where
  bytes : List Byte
  plain : ∀ c ∈ bytes, c ∉ [0, newline, 0x0D, ascii ';', ascii '#']
  head_ok : ∀ c ∈ bytes.head?, isspace c = false
  last_ok : ∀ c ∈ bytes.getLast?, isspace c = false ∧ c ≠ backslash

/-- The header of a section. -/
structure IniHeader where
  indent : Blank
  before : Blank
  name : IniName
  after : Blank
  trail : Trail

/-- A parameter with its value. -/
structure IniPair where
  indent : Blank
  name : IniName
  before : Blank
  after : Blank
  value : IniValue
  trail : Trail

/-- A line of the text. A filler is blank or holds a comment only. -/
inductive IniLine
  | filler (t : Trail)
  | header (h : IniHeader)
  | pair (p : IniPair)

/-- A line of a section behind its header. -/
inductive IniEntry
  | filler (t : Trail)
  | pair (p : IniPair)

structure IniSection where
  header : IniHeader
  entries : List IniEntry

/-- A configuration: fillers, and sections behind them. -/
structure IniFile where
  leading : List Trail
  sections : List IniSection

def IniComment.bytes (c : IniComment) : List Byte := c.mark :: c.text

def Trail.bytes (t : Trail) : List Byte := t.ws.val ++ t.comment.elim [] IniComment.bytes

def IniHeader.bytes (h : IniHeader) : List Byte :=
  h.indent.val ++ ascii '[' :: (h.before.val ++ (h.name.bytes ++ (h.after.val ++ ascii ']' :: h.trail.bytes)))

def IniPair.bytes (p : IniPair) : List Byte :=
  p.indent.val ++ (p.name.bytes ++ (p.before.val ++
    ascii '=' :: (p.after.val ++ (p.value.bytes ++ p.trail.bytes))))

def IniLine.bytes : IniLine → List Byte
  | .filler t => t.bytes
  | .header h => h.bytes
  | .pair p => p.bytes

def IniEntry.line : IniEntry → IniLine
  | .filler t => .filler t
  | .pair p => .pair p

def IniSection.lines (s : IniSection) : List IniLine := .header s.header :: s.entries.map IniEntry.line

def IniFile.lines (f : IniFile) : List IniLine :=
  f.leading.map IniLine.filler ++ f.sections.flatMap IniSection.lines

/-- The lines with a newline between each two of them. A blank line at the end makes one behind
the last. -/
def linesText (lines : List IniLine) : List Byte := List.intercalate [newline] (lines.map IniLine.bytes)

def IniFile.text (f : IniFile) : List Byte := linesText f.lines

def IniEntry.pair? : IniEntry → Option (List Byte × List Byte)
  | .filler _ => none
  | .pair p => some (p.name.bytes, p.value.bytes)

/-- The pairs of a section. -/
def IniSection.pairs (s : IniSection) : List (List Byte × List Byte) := s.entries.filterMap IniEntry.pair?

/-- A call for each pair of each section. -/
def IniFile.calls (f : IniFile) : List ConfCall :=
  f.sections.flatMap fun s => s.pairs.map fun p => ⟨some s.header.name.bytes, p.1, p.2⟩

/-- What may follow a line: nothing, or the next line. -/
def LineTail (tail : List Byte) : Prop := tail = [] ∨ ∃ rest, tail = newline :: rest

/-- Blanks are passed over. -/
theorem eatWhitespace_blank (ws : Blank) (rest : List Byte) :
    eatWhitespace (ws.val ++ rest) = eatWhitespace rest :=
  List.dropWhile_append_of_pos fun c hc => decide_eq_true (ws.property c hc)

/-- Anything else is not. -/
theorem eatWhitespace_cons {c : Byte} (hc : ¬ (isspace c = true ∧ c ≠ newline)) (rest : List Byte) :
    eatWhitespace (c :: rest) = c :: rest :=
  List.dropWhile_cons_of_neg (by rwa [decide_eq_true_iff])

theorem NameByte.eatWhitespace {c : Byte} (hc : NameByte c) (rest : List Byte) :
    eatWhitespace (c :: rest) = c :: rest :=
  eatWhitespace_cons (fun h => by rw [hc.1] at h; exact absurd h.1 (by decide)) rest

/-- The end of a line is not passed over. -/
theorem LineTail.eatWhitespace {tail : List Byte} (h : LineTail tail) : eatWhitespace tail = tail := by
  rcases h with rfl | ⟨rest, rfl⟩
  · rfl
  · exact eatWhitespace_cons (fun h => h.2 rfl) rest

/-- A comment is passed over up to the end of its line. -/
theorem eatComment_append {text tail : List Byte} (htext : ∀ c ∈ text, c ≠ 0 ∧ c ≠ newline)
    (htail : LineTail tail) : eatComment (text ++ tail) = tail := by
  rw [eatComment, List.dropWhile_append_of_pos fun c hc => decide_eq_true (htext c hc)]
  rcases htail with rfl | ⟨rest, rfl⟩
  · rfl
  · exact List.dropWhile_cons_of_neg (by decide)

end Mcprog
