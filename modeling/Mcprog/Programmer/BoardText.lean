import Mcprog.Programmer.BoardFile

/-!
# Configurations that are written for boards

Every sequence of settings can be written as a section of a configuration, so that the program sets up
the hardware just so when it reads the text.
-/

namespace Mcprog

open Interaction

/-- A digit may stand in a name and in a value. -/
theorem hexDigitUpper_plain (n : Fin 16) : NameByte (hexDigitUpper (BitVec.ofNat 32 n.val)) ∧
    PlainByte (hexDigitUpper (BitVec.ofNat 32 n.val)) := by
  revert n
  decide

/-- The digits of a word may stand in both. -/
theorem wordDigits_plain {w : Word} {c : Byte} (h : c ∈ wordDigits w) : NameByte c ∧ PlainByte c := by
  obtain ⟨i, -, rfl⟩ := List.mem_map.mp h
  obtain ⟨n, hn, -⟩ := nibble_eq w i
  rw [hn]
  exact hexDigitUpper_plain n

theorem wordText_plain {w : Word} : ∀ c ∈ wordText w, PlainByte c := by
  intro c hc
  rcases List.mem_cons.mp hc with rfl | hc
  · decide
  · rcases List.mem_cons.mp hc with rfl | hc
    · decide
    · exact (wordDigits_plain hc).2

theorem rangeText_plain {first last : Word} : ∀ c ∈ wordText first ++ ascii '-' :: wordText last, PlainByte c := by
  intro c hc
  rcases List.mem_append.mp hc with hc | hc
  · exact wordText_plain c hc
  · rcases List.mem_cons.mp hc with rfl | hc
    · decide
    · exact wordText_plain c hc

/-- The name of an address. -/
def IniName.ofWord (w : Word) : IniName where
  first := ascii '0'
  rest := ascii 'x' :: wordDigits w
  first_ok := by decide
  rest_ok := .char (by decide) (nameRest_of_nameBytes fun _ hc => (wordDigits_plain hc).1)

/-- The name of a section of flash memory starts with a letter. -/
theorem nameHead_flash : NameByte (ascii 'f') ∧ ascii 'f' ≠ ascii '[' := by decide

/-- It goes on with letters and a single space. -/
theorem nameRest_flash : NameRest (asciiText "lash boot") :=
  .char (by decide) (.char (by decide) (.char (by decide) (.char (by decide) (.space (by decide)
    (nameRest_of_nameBytes (by decide))))))

def flashName : IniName where
  first := ascii 'f'
  rest := asciiText "lash boot"
  first_ok := nameHead_flash
  rest_ok := nameRest_flash

/-- The line for a setting, if there is one. -/
def Setting.entry : Setting → IniEntry
  | .store addr word => .pair (plainPair (.ofWord addr) (.ofPlain (wordText word) wordText_plain))
  | .cscon3 word => .pair (plainPair cscon3Name (.ofPlain (wordText word) wordText_plain))
  | .flash first last =>
    .pair (plainPair flashName (.ofPlain (wordText first ++ ascii '-' :: wordText last) rangeText_plain))
  | .unknown _ => .filler ⟨noBlank, none⟩

/-- The setting is one that a configuration can ask for. -/
def Setting.Known : Setting → Prop
  | .unknown _ => False
  | _ => True

/-- The name of the default is written as the program compares it. -/
theorem default_defaultName : strcasecmp defaultName.bytes (asciiText "default") = true := by decide

instance : DecidablePred Setting.Known
  | .unknown _ => isFalse id
  | .store _ _ | .cscon3 _ | .flash _ _ => isTrue trivial

/-- The sections of some boards, behind the line for the default one. -/
def boardFile (default : Option IniValue) (boards : List (IniName × List Setting)) : BoardFile where
  top := default.toList.map fun value => .pair (plainPair defaultName value)
  sections := boards.map fun b => ⟨⟨noBlank, noBlank, b.1, noBlank, ⟨noBlank, none⟩⟩, b.2.map Setting.entry⟩
  top_default := by
    cases default with
    | none => simp
    | some value =>
      intro p hp
      obtain rfl := List.mem_singleton.mp hp
      exact default_defaultName

/-- The text of a word is a number for `check_hex`. -/
theorem checkHex_wordText (w : Word) : checkHex (wordText w) = true := by
  have hdigits : (wordDigits w).all isxdigit = true := List.all_eq_true.mpr fun c hc => (wordDigits_digit hc).2
  exact decide_eq_true ⟨rfl, rfl, le_refl 10, hdigits⟩

/-- Texts that are the same but for the case start with the same letter. -/
theorem head?_of_strcasecmp {a b : List Byte} (h : strcasecmp a b = true) :
    a.head?.map tolower = b.head?.map tolower := by
  have hmap : a.map tolower = b.map tolower := of_decide_eq_true h
  rw [← List.head?_map, ← List.head?_map, hmap]

/-- No name of a register starts as an address does. -/
theorem heads_of_registers : ∀ r ∈ boardRegisters, (asciiText r.name).head?.map tolower ≠ some (tolower (ascii '0')) := by
  decide

/-- A line is read as the setting that it has been written for. -/
theorem decodeParameter_entry {s : Setting} (hs : s.Known) :
    ∃ p, s.entry.pair? = some p ∧ ∀ locals, decodeParameter locals p.1 p.2 = s := by
  cases s with
  | store addr word =>
    refine ⟨_, rfl, fun locals => ?_⟩
    change decodeParameter locals (wordText addr) (wordText word) = _
    have hnone : boardRegisters.find? (fun r => strcasecmp (wordText addr) (asciiText r.name)) = none :=
      List.find?_eq_none.mpr fun r hr heq => heads_of_registers r hr (head?_of_strcasecmp heq).symm
    have hflash : ¬strncasecmp (wordText addr) (asciiText "flash ") 6 = true := by
      intro heq
      have hhead := head?_of_strcasecmp heq
      exact absurd hhead (by change some (ascii '0') ≠ _; decide)
    rw [decodeParameter, hnone]
    dsimp only
    rw [if_neg hflash, if_pos ⟨checkHex_wordText addr, checkHex_wordText word⟩, sscanfHex_wordText,
      sscanfHex_wordText]
    rfl
  | cscon3 word =>
    refine ⟨_, rfl, fun locals => ?_⟩
    change decodeParameter locals (asciiText "CSCON3") (wordText word) = _
    have hfind : boardRegisters.find? (fun r => strcasecmp (asciiText "CSCON3") (asciiText r.name)) =
        some ⟨"cscon3", fun value => some (strtoul value 0), mcCscon3⟩ := rfl
    rw [decodeParameter, hfind]
    dsimp only
    rw [if_pos rfl, strtoul_wordText]
    rfl
  | flash first last =>
    refine ⟨_, rfl, fun locals => ?_⟩
    change decodeParameter locals (asciiText "flash boot") (wordText first ++ ascii '-' :: wordText last) = _
    have hnone : boardRegisters.find? (fun r => strcasecmp (asciiText "flash boot") (asciiText r.name)) = none := rfl
    have hflash : strncasecmp (asciiText "flash boot") (asciiText "flash ") 6 = true := rfl
    rw [decodeParameter, hnone]
    dsimp only
    rw [hflash, if_pos rfl, sscanfRange_wordText]
  | unknown text => exact hs.elim

/-- The settings of a board are those of its section. -/
theorem chosenSettings_section {locals : Nat → ParameterLocals} {name cursec : List Byte} {settings : List Setting}
    (h : ∀ s ∈ settings, s.Known) (calls : List ConfCall) :
    chosenSettings locals name (((settings.map Setting.entry).filterMap IniEntry.pair?).map
        (fun p => ⟨some cursec, p.1, p.2⟩) ++ calls) =
      (if strcasecmp cursec name then settings else []) ++ chosenSettings locals name calls := by
  induction settings with
  | nil => simp
  | cons s settings ih =>
    obtain ⟨p, hp, hdecode⟩ := decodeParameter_entry (h s List.mem_cons_self)
    have hrest := ih fun s hs => h s (List.mem_cons_of_mem _ hs)
    rw [List.map_cons, List.filterMap_cons_some hp, List.map_cons, List.cons_append, chosenSettings, Option.any_some, hrest,
      hdecode]
    by_cases hname : strcasecmp cursec name = true
    · simp only [if_pos hname, List.cons_append]
    · simp only [if_neg hname]

/-- The settings of the sections of a board, by induction on the boards. -/
theorem chosenSettings_boards {locals : Nat → ParameterLocals} {name : List Byte} (default : Option IniValue)
    {boards : List (IniName × List Setting)} (h : ∀ b ∈ boards, ∀ s ∈ b.2, s.Known) :
    chosenSettings locals name (boardFile default boards).calls =
      (boards.filter fun b => strcasecmp b.1.bytes name).flatMap Prod.snd := by
  induction boards with
  | nil => rfl
  | cons b boards ih =>
    have hcalls : (boardFile default (b :: boards)).calls = ((b.2.map Setting.entry).filterMap IniEntry.pair?).map
        (fun p => ⟨some b.1.bytes, p.1, p.2⟩) ++ (boardFile default boards).calls := rfl
    rw [hcalls, chosenSettings_section (h b List.mem_cons_self), ih fun b hb => h b (List.mem_cons_of_mem _ hb),
      List.filter_cons]
    by_cases hname : strcasecmp b.1.bytes name = true
    · rw [if_pos hname, if_pos hname, List.flatMap_cons]
    · rw [if_neg hname, if_neg hname, List.nil_append]

/-- A configuration that has been written for some boards sets up the chosen one as it was written. -/
theorem configureFile_boards {σ : Type} {A : Adapter σ} {heap : Heap} {locals : Nat → ParameterLocals}
    {board : Option (List Byte)} {t : Target} (hheap : ∀ n, heap n = true) (default : Option IniValue)
    {boards : List (IniName × List Setting)} (h : ∀ b ∈ boards, ∀ s ∈ b.2, s.Known) {name : List Byte}
    (hname : board.or (default.map IniValue.bytes) = some name) :
    configureFile A heap locals (boardFile default boards).text board t =
      (do
        let t ← configure A t ((boards.filter fun b => strcasecmp b.1.bytes name).flatMap Prod.snd)
        return (some name, t)) := by
  have hchosen : (boardFile default boards).chosen board = some name := by
    rw [← hname]
    cases default <;> rfl
  rw [configureFile_chosen hheap hchosen, chosenSettings_boards default h]

/-- Two boards, of which the second one is the default. -/
def twoBoards : List (IniName × List Setting) :=
  [(⟨ascii 'a', [], by decide, .nil⟩, [.cscon3 0x00050000, .flash 0x1FC00000 0x1FFFFFFF]),
    (⟨ascii 'b', [], by decide, .nil⟩, [.store 0x182F4008 0x00010051, .flash 0x1FA00000 0x1FBFFFFF])]

theorem configureFile_boards_two :
    configureFile (scripted mc12Id 0) (fun _ => true) (fun _ => ⟨0, 0⟩)
        (boardFile (some (.ofPlain (asciiText "B") (by decide))) twoBoards).text none Target.allocated =
      (do
        let t ← configure (scripted mc12Id 0) Target.allocated
          [.store 0x182F4008 0x00010051, .flash 0x1FA00000 0x1FBFFFFF]
        return (some (asciiText "B"), t)) := by
  have hname : (none : Option (List Byte)).or ((some (IniValue.ofPlain (asciiText "B") (by decide))).map IniValue.bytes) =
    some (asciiText "B") := rfl
  exact configureFile_boards (fun _ => rfl) _ (by decide : ∀ b ∈ twoBoards, ∀ s ∈ b.2, s.Known) hname

end Mcprog
