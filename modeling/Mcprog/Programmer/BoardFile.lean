import Mcprog.Adapter.Scripted
import Mcprog.Programmer.ConfCalls
import Mcprog.Programmer.DoProgram
import Mcprog.Programmer.Numbers

/-!
# The configuration of a board

`configure` passes each parameter of the configuration file to `configure_parameter`, which looks for
the section of the board and sets up the hardware. What comes out is the sequence of the parameters of
that board, whatever else the file says.
-/

namespace Mcprog

open Interaction Program Cells

variable {σ : Type} (A : Adapter σ)

/-- `strcasecmp` finds no difference. The locales in use have no other letters in single bytes. -/
def strcasecmp (a b : List Byte) : Bool := a.map tolower = b.map tolower

/-- `strncasecmp` finds no difference. -/
def strncasecmp (a b : List Byte) (n : Nat) : Bool := strcasecmp (a.take n) (b.take n)

/-- `check_hex` returns 0. -/
def checkHex (str : List Byte) : Bool :=
  str.head? = some (ascii '0') ∧ str.tail.head? = some (ascii 'x') ∧ str.length ≤ 10 ∧ (str.drop 2).all isxdigit

/-- A parameter for one register: its name, how the value is read, and the address. -/
structure BoardRegister where
  name : String
  read : List Byte → Option Word
  addr : Word

/-- The registers in the order of the comparisons. -/
def boardRegisters : List BoardRegister :=
  [⟨"csr", fun value => some (strtoul value 0), 0x182F4008⟩,
    ⟨"cscon0", fun value => some (strtoul value 0), 0x182F1000⟩,
    ⟨"cscon1", fun value => some (strtoul value 0), 0x182F1004⟩,
    ⟨"cscon2", fun value => some (strtoul value 0), 0x182F1008⟩,
    ⟨"cscon3", fun value => some (strtoul value 0), mcCscon3⟩,
    ⟨"sdrcon", fun value => some (strtoul value 0), 0x182F1014⟩,
    ⟨"sdrtmr", fun value => some (strtoul value 0), 0x182F1018⟩,
    ⟨"sdrcsr", fun value => some (strtoul value 0), 0x182F101C⟩,
    ⟨"cr_pll", sscanfHex, 0x182F4000⟩,
    ⟨"clk_en", sscanfHex, 0x182F4004⟩,
    ⟨"dir_mfbsp1", sscanfHex, 0x182F9008⟩,
    ⟨"gpio_dr_mfbsp1", sscanfHex, 0x182F900C⟩]

/-- `word` and `addr`, which a conversion that fails does not set. -/
structure ParameterLocals where
  word : Word
  addr : Word

/-- What a parameter of the board asks for. -/
def decodeParameter (locals : ParameterLocals) (param value : List Byte) : Setting :=
  match boardRegisters.find? fun r => strcasecmp param (asciiText r.name) with
  | some r =>
    let word := (r.read value).getD locals.word
    if r.addr = mcCscon3 then .cscon3 word else .store r.addr word
  | none =>
    if strncasecmp param (asciiText "flash ") 6 then
      match sscanfRange value with
      | some (first, last) => .flash first last
      | none => .unknown "%s: incorrect value for parameter `%s'\n"
    else if checkHex param ∧ checkHex value then
      .store ((sscanfHex param).getD locals.addr) ((sscanfHex value).getD locals.word)
    else .unknown "%s: unknown parameter `%s'\n"

/-- `configure_parameter`, with `board` before and after. -/
def configureText (locals : ParameterLocals) (board : Option (List Byte)) (t : Target) (c : ConfCall) :
    Action σ (Option (List Byte) × Target) :=
  match c.cursec with
  | none =>
    if strcasecmp c.name (asciiText "default") then return (board.or (some c.value), t)
    else fatal (-1) "%s: unknown parameter `%s'\n" []
  | some cursec =>
    match board with
    | none => fatal (-1) "%s: parameter 'default' missing\n" []
    | some name =>
      if strcasecmp cursec name then do
        let t ← configureParameter A t (decodeParameter locals c.name c.value)
        return (some name, t)
      else return (some name, t)

/-- The calls of `configure_parameter`. The stack before a call is told by how many calls are to come. -/
def configureCalls (locals : Nat → ParameterLocals) :
    Option (List Byte) → Target → List ConfCall → Action σ (Option (List Byte) × Target)
  | board, t, [] => return (board, t)
  | board, t, c :: cs => do
    let (board, t) ← configureText A (locals cs.length) board t c
    configureCalls locals board t cs

/-- `conf_parse` with `configure_parameter`, before any other file has been parsed. The parser does not see what its
function does, and where that exits there is no more to parse. -/
def configureFile (heap : Heap) (locals : Nat → ParameterLocals) (file : List Byte) (board : Option (List Byte))
    (t : Target) : Action σ (Option (List Byte) × Target) := do
  let parsed := confParse heap file ⟨⟨⟨fun _ => 0, []⟩, 0⟩, none⟩
  let r ← configureCalls A locals board t parsed.trace
  match parsed.result with
  | .ok () => return r
  | .error e => Program.stop e

/-- What the parameters of a board ask for, in their order. -/
def chosenSettings (locals : Nat → ParameterLocals) (name : List Byte) : List ConfCall → List Setting
  | [] => []
  | c :: cs =>
    if c.cursec.any (strcasecmp · name) then
      decodeParameter (locals cs.length) c.name c.value :: chosenSettings locals name cs
    else chosenSettings locals name cs

variable {A} {locals : Nat → ParameterLocals} {name : List Byte} {t : Target}

/-- Behind the first header only the parameters of the board do anything. -/
theorem configureCalls_sections {calls : List ConfCall} (h : ∀ c ∈ calls, c.cursec ≠ none) :
    configureCalls A locals (some name) t calls =
      (do let t ← configure A t (chosenSettings locals name calls); return (some name, t)) := by
  induction calls generalizing t with
  | nil => rfl
  | cons c calls ih =>
    have hrest := fun t => ih (t := t) fun c hc => h c (List.mem_cons_of_mem _ hc)
    obtain ⟨cursec, hcursec⟩ := Option.ne_none_iff_exists'.mp (h c List.mem_cons_self)
    rw [configureCalls, configureText, hcursec, chosenSettings, hcursec, Option.any_some]
    dsimp only
    by_cases hname : strcasecmp cursec name = true
    · rw [if_pos hname, if_pos hname, configure, bind_assoc, bind_assoc]
      refine congrArg (configureParameter A t _ >>= ·) (funext fun t => ?_)
      rw [pure_bind]
      exact hrest t
    · rw [if_neg hname, if_neg hname, pure_bind]
      exact hrest t

/-- Without a board the first of them ends the program. -/
theorem configureCalls_noBoard {c : ConfCall} {calls : List ConfCall} (h : c.cursec ≠ none) :
    configureCalls A locals none t (c :: calls) = fatal (-1) "%s: parameter 'default' missing\n" [] := by
  obtain ⟨cursec, hcursec⟩ := Option.ne_none_iff_exists'.mp h
  rw [configureCalls, configureText, hcursec]
  rfl

/-- Before the first header the first default counts, where the board is not known already. -/
theorem configureCalls_defaults {top : List (List Byte × List Byte)}
    (h : ∀ p ∈ top, strcasecmp p.1 (asciiText "default") = true) (board : Option (List Byte)) (calls : List ConfCall) :
    configureCalls A locals board t (top.map (fun p => ⟨none, p.1, p.2⟩) ++ calls) =
      configureCalls A locals (board.or (top.head?.map Prod.snd)) t calls := by
  induction top generalizing board with
  | nil => rw [List.head?_nil, Option.map_none, Option.or_none]; rfl
  | cons p top ih =>
    rw [List.map_cons, List.cons_append, configureCalls, configureText]
    dsimp only
    rw [if_pos (h p List.mem_cons_self), pure_bind]
    dsimp only
    rw [ih (fun p hp => h p (List.mem_cons_of_mem _ hp)), Option.or_assoc]
    rfl

/-- A character that may stand anywhere in a value. -/
def PlainByte (c : Byte) : Prop :=
  isspace c = false ∧ c ∉ [0, newline, 0x0D, ascii ';', ascii '#', backslash]

instance : DecidablePred PlainByte := fun _ => inferInstanceAs (Decidable (_ ∧ _))

/-- A character for any place is one for the middle of a value. -/
theorem PlainByte.notMem {c : Byte} (h : PlainByte c) : c ∉ [0, newline, 0x0D, ascii ';', ascii '#'] := by
  intro hc
  exact h.2 (List.mem_append_left [backslash] hc)

/-- A value without spaces. -/
def IniValue.ofPlain (bytes : List Byte) (h : ∀ c ∈ bytes, PlainByte c) : IniValue where
  bytes := bytes
  plain c hc := (h c hc).notMem
  head_ok c hc := (h c (List.mem_of_mem_head? hc)).1
  last_ok c hc := by
    have hplain := h c (List.mem_of_mem_getLast? hc)
    exact ⟨hplain.1, fun heq => hplain.2 (by rw [heq]; decide)⟩

theorem nameRest_of_nameBytes {r : List Byte} (h : ∀ c ∈ r, NameByte c) : NameRest r := by
  induction r with
  | nil => exact .nil
  | cons c r ih => exact .char (h c List.mem_cons_self) (ih fun c hc => h c (List.mem_cons_of_mem _ hc))

theorem blank_nil : ∀ c ∈ ([] : List Byte), isspace c = true ∧ c ≠ newline := by simp

theorem blank_space : ∀ c ∈ [ascii ' '], isspace c = true ∧ c ≠ newline := by decide

def noBlank : Blank := ⟨[], blank_nil⟩

def oneBlank : Blank := ⟨[ascii ' '], blank_space⟩

def defaultName : IniName where
  first := ascii 'd'
  rest := asciiText "efault"
  first_ok := by decide
  rest_ok := nameRest_of_nameBytes (by decide)

def cscon3Name : IniName where
  first := ascii 'C'
  rest := asciiText "SCON3"
  first_ok := by decide
  rest_ok := nameRest_of_nameBytes (by decide)

/-- A parameter on a line of its own. -/
def plainPair (name : IniName) (value : IniValue) : IniPair := ⟨noBlank, name, oneBlank, oneBlank, value, ⟨noBlank, none⟩⟩

/-- A configuration: the default board, and sections behind it. -/
structure BoardFile where
  top : List IniEntry
  sections : List IniSection
  top_default : ∀ p ∈ top.filterMap IniEntry.pair?, strcasecmp p.1 (asciiText "default") = true

namespace BoardFile

def lines (f : BoardFile) : List IniLine := f.top.map IniEntry.line ++ f.sections.flatMap IniSection.lines

def text (f : BoardFile) : List Byte := linesText f.lines

/-- The board, where `-b` may name another one. -/
def chosen (f : BoardFile) (board : Option (List Byte)) : Option (List Byte) :=
  board.or ((f.top.filterMap IniEntry.pair?).head?.map Prod.snd)

/-- The parameters of the sections. -/
def calls (f : BoardFile) : List ConfCall :=
  f.sections.flatMap fun s => s.pairs.map fun p => ⟨some s.header.name.bytes, p.1, p.2⟩

end BoardFile

/-- The pairs before the first header are called without a section. -/
theorem lineCalls_top (entries : List IniEntry) (lines : List IniLine) :
    lineCalls none (entries.map IniEntry.line ++ lines) =
      (entries.filterMap IniEntry.pair?).map (fun p => ⟨none, p.1, p.2⟩) ++ lineCalls none lines := by
  induction entries with
  | nil => rfl
  | cons e entries ih =>
    cases e with
    | filler t => exact ih
    | pair p => exact congrArg (ConfCall.mk none p.name.bytes p.value.bytes :: ·) ih

/-- The calls for the lines of a text. -/
theorem confParse_lines {heap : Heap} (hheap : ∀ n, heap n = true) (lines : List IniLine) {s : Conf}
    (hs : s.cursec = none) : ∃ s', (confParse heap (linesText lines)).Returns s () (lineCalls none lines) s' := by
  obtain ⟨s₀, hs₀⟩ : ∃ s₀ : Conf, s₀ = { s with buffer := { s.buffer with bsize := 1024 } } := ⟨_, rfl⟩
  obtain ⟨s₁, hs₁⟩ := parses_lines hheap lines none s₀ (by rw [hs₀]; exact hs)
  obtain ⟨s₂, hs₂⟩ : ∃ s₂ : Conf, s₂ = { buffer := { s₁.buffer with bsize := 0 }, cursec := none } := ⟨_, rfl⟩
  have hloop := hs₁ _ (Nat.lt_succ_of_le (length_eatWhitespace (linesText lines)))
  have hfirst : (Program.update fun s : Conf => { s with
      buffer := { s.buffer with bsize := 1024 } } : ConfAction Unit).Returns s () [] s₀ :=
    Program.returns_update_iff.mpr ⟨rfl, hs₀⟩
  have hlast : (Program.update fun s : Conf => { s with
      buffer := { s.buffer with bsize := 0 }, cursec := none } : ConfAction Unit).Returns s₁ () [] s₂ :=
    Program.returns_update_iff.mpr ⟨rfl, hs₂⟩
  have hrest := hloop.bind (f := fun _ => _) hlast
  rw [List.append_nil] at hrest
  refine ⟨s₂, ?_⟩
  rw [confParse, if_pos (hheap 1024)]
  exact hfirst.bind hrest

variable {heap : Heap} {board : Option (List Byte)}

/-- The parser makes the calls for the lines, of which the defaults come first. -/
theorem configureFile_lines (hheap : ∀ n, heap n = true) (f : BoardFile) :
    configureFile A heap locals f.text board t = configureCalls A locals (f.chosen board) t f.calls := by
  obtain ⟨s', hs'⟩ := confParse_lines hheap f.lines (s := ⟨⟨⟨fun _ => 0, []⟩, 0⟩, none⟩) rfl
  have hparsed : confParse heap f.text ⟨⟨⟨fun _ => 0, []⟩, 0⟩, none⟩ = ⟨lineCalls none f.lines, s', .ok ()⟩ := hs'
  have hcalls : lineCalls none f.lines = (f.top.filterMap IniEntry.pair?).map (fun p => ⟨none, p.1, p.2⟩) ++ f.calls := by
    rw [BoardFile.lines, lineCalls_top, lineCalls_sections]
    rfl
  rw [configureFile]
  simp only [hparsed]
  rw [bind_pure, hcalls, configureCalls_defaults f.top_default]
  rfl

/-- Behind the first header every parameter has a section. -/
theorem BoardFile.hasSection (f : BoardFile) : ∀ c ∈ f.calls, c.cursec ≠ none := by
  intro c hc
  obtain ⟨s, -, hc⟩ := List.mem_flatMap.mp hc
  obtain ⟨p, -, rfl⟩ := List.mem_map.mp hc
  exact Option.some_ne_none _

/-- The chosen board is configured. -/
theorem configureFile_chosen (hheap : ∀ n, heap n = true) {f : BoardFile} (hname : f.chosen board = some name) :
    configureFile A heap locals f.text board t =
      (do let t ← configure A t (chosenSettings locals name f.calls); return (some name, t)) := by
  rw [configureFile_lines hheap, hname, configureCalls_sections f.hasSection]

/-- The parameters of the chosen board are carried out in their order, from all of its sections, and no
others. Without a board the first parameter of a section ends the program. -/
theorem configureFile_text (hheap : ∀ n, heap n = true) (f : BoardFile) :
    (∀ name, f.chosen board = some name → configureFile A heap locals f.text board t =
      (do let t ← configure A t (chosenSettings locals name f.calls); return (some name, t))) ∧
    (f.chosen board = none → f.calls ≠ [] → configureFile A heap locals f.text board t =
      fatal (-1) "%s: parameter 'default' missing\n" []) ∧
    (f.chosen board = none → f.calls = [] → configureFile A heap locals f.text board t = pure (none, t)) := by
  refine ⟨fun name hname => configureFile_chosen hheap hname, fun hnone hcalls => ?_, fun hnone hcalls => ?_⟩
  · obtain ⟨c, calls, hcons⟩ := List.exists_cons_of_ne_nil hcalls
    have hfirst : c.cursec ≠ none := f.hasSection c (by rw [hcons]; exact List.mem_cons_self)
    rw [configureFile_lines hheap, hnone, hcons, configureCalls_noBoard hfirst]
  · rw [configureFile_lines hheap, hnone, hcalls]
    rfl

/-- A board with its parameters behind a header of its own. -/
def plainSection (name : IniName) (entries : List IniEntry) : IniSection :=
  ⟨⟨noBlank, noBlank, name, noBlank, ⟨noBlank, none⟩⟩, entries⟩

theorem nameHead_a : NameByte (ascii 'a') ∧ ascii 'a' ≠ ascii '[' := by decide

def boardA : IniName := ⟨ascii 'a', [], nameHead_a, .nil⟩

theorem nameHead_B : NameByte (ascii 'B') ∧ ascii 'B' ≠ ascii '[' := by decide

def boardB : IniName := ⟨ascii 'B', [], nameHead_B, .nil⟩

theorem hash_mark : ascii '#' = ascii ';' ∨ ascii '#' = ascii '#' := .inr rfl

theorem noText : ∀ c ∈ ([] : List Byte), c ≠ 0 ∧ c ≠ newline := by simp

/-- A comment on a line of its own. -/
def commentLine : IniEntry := .filler ⟨oneBlank, some ⟨ascii '#', [], hash_mark, noText⟩⟩

/-- Two boards, each with two sections, and two defaults, of which the first one counts. -/
def fourSections : BoardFile where
  top := [commentLine,
    .pair (plainPair defaultName (.ofPlain (asciiText "b") (by decide))),
    .pair (plainPair defaultName (.ofPlain (asciiText "a") (by decide)))]
  sections := [
    plainSection boardA [.pair (plainPair cscon3Name (.ofPlain (asciiText "0x50000") (by decide)))],
    plainSection boardB [commentLine,
      .pair (plainPair defaultName (.ofPlain (asciiText "a") (by decide)))],
    plainSection boardA [.pair (plainPair cscon3Name (.ofPlain (asciiText "7") (by decide)))],
    plainSection boardB [.pair (plainPair cscon3Name (.ofPlain (asciiText "8") (by decide)))]]
  top_default := by decide

/-- The same sections without a default. -/
def noDefault : BoardFile := ⟨[], fourSections.sections, by simp⟩

/-- The board of the first default with both of its sections, the one that is asked for in other letters, a file
without a default and one without anything. -/
theorem configureFile_text_sections :
    configureFile (scripted mc12Id 0) (fun _ => true) (fun _ => ⟨0, 0⟩) fourSections.text none Target.allocated =
      (do
        let t ← configure (scripted mc12Id 0) Target.allocated
          [.unknown "%s: unknown parameter `%s'\n", .cscon3 8]
        return (some (asciiText "b"), t)) ∧
    configureFile (scripted mc12Id 0) (fun _ => true) (fun _ => ⟨0, 0⟩) fourSections.text (some (asciiText "A"))
      Target.allocated =
      (do
        let t ← configure (scripted mc12Id 0) Target.allocated [.cscon3 0x50000, .cscon3 7]
        return (some (asciiText "A"), t)) ∧
    configureFile (scripted mc12Id 0) (fun _ => true) (fun _ => ⟨0, 0⟩) noDefault.text none Target.allocated =
      fatal (-1) "%s: parameter 'default' missing\n" [] ∧
    configureFile (scripted mc12Id 0) (fun _ => true) (fun _ => ⟨0, 0⟩) (BoardFile.mk [] [] (by simp)).text none
      Target.allocated = pure (none, Target.allocated) :=
  ⟨(configureFile_text (fun _ => rfl) fourSections).1 (asciiText "b") rfl,
    (configureFile_text (fun _ => rfl) fourSections).1 (asciiText "A") rfl,
    (configureFile_text (fun _ => rfl) noDefault).2.1 rfl (by decide),
    (configureFile_text (fun _ => rfl) ⟨[], [], by simp⟩).2.2 rfl rfl⟩

end Mcprog
