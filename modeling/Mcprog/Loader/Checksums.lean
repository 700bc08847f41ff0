import Mcprog.Library.Effects
import Mcprog.Loader.HexPlaces

/-!
# Records with any checksum

Files of the two formats in which each record may have any checksum and each line any length, and
what the two loaders make of them. A line that does not fit the buffer comes in two parts, of which
the second one starts with a digit.
-/

namespace Mcprog

open Interaction Cells Program

variable {s : LoadState}

/-- The checksum of an S-record. -/
def srecCheck (body : List Byte) : Byte := ~~~(BitVec.ofNat 8 (body.length + 1) :: body).sum

/-- The bytes of an S-record with any checksum. -/
def srecBytesWith (body : List Byte) (check : Byte) : List Byte :=
  BitVec.ofNat 8 (body.length + 1) :: (body ++ [check])

/-- What a line says: its data record where it has one, and whether the checksum is right. -/
structure FileLine where
  record : Option DataRecord
  valid : Bool
  length : Nat
  deriving DecidableEq, Repr

/-- A data record with the wrong checksum. -/
def FileLine.Bad (l : FileLine) : Prop := l.record.isSome ∧ l.valid = false

/-- A line of an S-record file. Types 0, 5 and 6 have no data. -/
inductive SrecAny : List Byte → FileLine → Prop
  | comment {type check : Byte} {body text : List Byte} (isType : type ∈ [(0x30 : Byte), 0x35, 0x36])
      (count : body.length + 1 < 256) (isText : HexText (srecBytesWith body check) text) :
      SrecAny (letterS :: type :: text) ⟨none, check = srecCheck body, text.length + 2⟩
  | data {type check : Byte} {n : Nat} {r : DataRecord} {text : List Byte}
      (isType : (type, n) ∈ [((0x31 : Byte), 2), (0x32, 3), (0x33, 4)]) (isAddr : r.addr < 256 ^ n)
      (count : n + r.data.length + 1 < 256)
      (isText : HexText (srecBytesWith (bytesBE n r.addr ++ r.data) check) text) :
      SrecAny (letterS :: type :: text)
        ⟨some r, check = srecCheck (bytesBE n r.addr ++ r.data), text.length + 2⟩

/-- A line of a HEX file. A data record has the low half of its address. -/
inductive HexAny : List Byte → FileLine → Prop
  | start {addr : Nat} {check : Byte} {data text : List Byte} (length : data.length = 4)
      (isText : HexText (hexBytesWith addr 5 data check) text) :
      HexAny (colon :: text) ⟨none, check = hexCheck addr 5 data, text.length + 1⟩
  | extend {addr : Nat} {first second check : Byte} {text : List Byte} (isAddr : addr < 0x10000)
      (isText : HexText (hexBytesWith addr 4 [first, second] check) text) :
      HexAny (colon :: text) ⟨none, check = hexCheck addr 4 [first, second], text.length + 1⟩
  | segment {addr : Nat} {type check : Byte} {data text : List Byte}
      (isType : type ∈ [(2 : Byte), 3]) (isAddr : addr < 0x10000) (count : data.length < 256)
      (isText : HexText (hexBytesWith addr type data check) text) :
      HexAny (colon :: text) ⟨none, check = hexCheck addr type data, text.length + 1⟩
  | data {addr : Nat} {check : Byte} {data text : List Byte} (isAddr : addr < 0x10000)
      (count : data.length < 256) (isText : HexText (hexBytesWith addr 0 data check) text) :
      HexAny (colon :: text) ⟨some ⟨addr, data⟩, check = hexCheck addr 0 data, text.length + 1⟩

/-- The end of a line. The last line may stand without one. -/
def IsEnd (eol rest : List Byte) : Prop := IsEol eol ∨ eol = [] ∧ rest = []

/-- A file of lines up to the end record, which may be missing. -/
inductive LineFile (Line : List Byte → FileLine → Prop) (Stop : List Byte → Prop) :
    List Byte → List FileLine → Prop
  | eof : LineFile Line Stop [] []
  | stop {text : List Byte} (rest : List Byte) (isStop : Stop text) :
      LineFile Line Stop (text ++ rest) []
  | line {line eol rest : List Byte} {l : FileLine} {ls : List FileLine} (isLine : Line line l)
      (isEnd : IsEnd eol rest) (isRest : LineFile Line Stop rest ls) :
      LineFile Line Stop (line ++ (eol ++ rest)) (l :: ls)

/-- A file of a format with any checksums, and what its lines say. -/
def AnyFile : Format → List Byte → List FileLine → Prop
  | .srec => LineFile SrecAny SrecStop
  | .hex => LineFile HexAny HexStop

/-- Of a line that is too long the buffer takes the start. -/
theorem fgetsLine_cut {n : Nat} {text : List Byte} (rest : List Byte) (hlen : n ≤ text.length)
    (hnewline : newline ∉ text.take n) :
    fgetsLine n (text ++ rest) = (text.take n, text.drop n ++ rest) := by
  induction n generalizing text with
  | zero => rfl
  | succ n ih =>
    cases text with
    | nil => simp at hlen
    | cons c text =>
      rw [List.take_succ_cons, List.mem_cons, not_or] at hnewline
      rw [List.cons_append, fgetsLine, if_neg (Ne.symm hnewline.1),
        ih (Nat.le_of_succ_le_succ hlen) hnewline.2]
      rfl

section Lines

variable {line eol : List Byte} (rest : List Byte) (hne : line ≠ []) (hnewline : newline ∉ line)
  (hend : IsEnd eol rest)

include hne hnewline hend

/-- A line that fits the buffer. -/
theorem fgetsLines_short (hlen : (line ++ eol).length ≤ 255) :
    fgetsLines (line ++ (eol ++ rest)) = (line ++ eol) :: fgetsLines rest := by
  rcases hend with heol | ⟨rfl, rfl⟩
  · exact fgetsLines_line rest hne hnewline heol hlen
  · rw [List.append_nil] at hlen
    rw [List.append_nil, List.append_nil, fgetsLines_last hne hnewline hlen]
    rfl

/-- A line that does not. -/
theorem fgetsLines_long (hlen : 255 < (line ++ eol).length) :
    fgetsLines (line ++ (eol ++ rest)) =
      (line ++ eol).take 255 :: fgetsLines ((line ++ eol).drop 255 ++ rest) := by
  have hcut : newline ∉ (line ++ eol).take 255 := by
    intro hmem
    rw [List.length_append] at hlen
    rw [List.take_append] at hmem
    rcases List.mem_append.mp hmem with hmem | hmem
    · exact hnewline (List.mem_of_mem_take hmem)
    · rcases hend with (rfl | rfl) | ⟨rfl, -⟩
      · have hzero : 255 - line.length = 0 := by
          rw [List.length_singleton] at hlen
          omega
        simp [hzero] at hmem
      · have hone : 255 - line.length ≤ 1 := by
          simp at hlen
          omega
        interval_cases 255 - line.length
        · simp at hmem
        · simp [newline] at hmem
      · simp at hmem
  obtain ⟨c, line', rfl⟩ := List.exists_cons_of_ne_nil hne
  have hfirst : fgetsLine (bufSize - 1) (c :: line' ++ (eol ++ rest)) =
      ((c :: line' ++ eol).take 255, (c :: line' ++ eol).drop 255 ++ rest) := by
    rw [← List.append_assoc]
    exact fgetsLine_cut rest hlen.le hcut
  rw [List.cons_append] at hfirst ⊢
  rw [fgetsLines_cons, hfirst]

end Lines

/-- A line without characters. -/
theorem fgetsLines_blank (rest : List Byte) :
    fgetsLines (newline :: rest) = [newline] :: fgetsLines rest := by
  have hfirst : fgetsLine (bufSize - 1) (newline :: rest) = ([newline], rest) :=
    @fgetsLine_newline 255 [] rest (by simp) (by simp)
  rw [fgetsLines_cons, hfirst]

/-- `exit (1)` after a message. -/
def Refusal (e : Fatal) : Prop := ∃ text values, e = .exit 1 text values

/-- The run answers if `P` holds, and refuses the file if not. -/
def Decides {α : Type} (m : Load α) (s : LoadState) (P : Prop) : Prop :=
  Meets m s (fun e => Refusal e ∧ ¬P) fun _ _ => P

/-- The end of a record behind the base that it finds or sets. -/
def placedEnd (memoryBase address : Word) (n : Nat) : Nat :=
  (address - baseFor memoryBase address + BitVec.ofNat 32 n).toNat

/-- A record is not below the base, and it does not end behind `memory_data`. -/
def FitsBase (memoryBase address : Word) (n : Nat) : Prop :=
  baseFor memoryBase address ≤ address ∧ placedEnd memoryBase address n ≤ memorySize

instance (memoryBase address : Word) (n : Nat) : Decidable (FitsBase memoryBase address n) :=
  instDecidableAnd

/-- A source of bytes always has one, and keeps the base. -/
def Answers (byteAt : Nat → Load Byte) : Prop :=
  ∀ i s, ∃ b s', (byteAt i).Reaches s b s' ∧ s'.memoryBase = s.memoryBase

/-- Bytes are copied from anything that always answers. -/
theorem copyBytes_answers {byteAt : Nat → Load Byte} (h : Answers byteAt) (address : Word) (n i : Nat)
    (s : LoadState) :
    ∃ s', (copyBytes byteAt address n i).Reaches s () s' ∧ s'.memoryBase = s.memoryBase := by
  induction n generalizing i s with
  | zero => exact ⟨s, reaches_pure () s, rfl⟩
  | succ n ih =>
    obtain ⟨b, s₁, hb, hbase₁⟩ := h i s
    obtain ⟨s₂, hrest, hbase₂⟩ := ih (i + 1)
      { s₁ with output := store s₁.output (address + BitVec.ofNat 32 i).toNat [b] }
    exact ⟨s₂, hb.bind ((writeOutput_reaches _ _).bind hrest), hbase₂.trans hbase₁⟩

/-- A record is placed where it fits, and the file is refused where not. -/
theorem placeRecord_meets {byteAt : Nat → Load Byte} (h : Answers byteAt) (address : Word) (n : Nat)
    (len : Int) :
    Meets (placeRecord address n byteAt len) s
      (fun e => Refusal e ∧ ¬FitsBase s.memoryBase address n) fun len' s' =>
        FitsBase s.memoryBase address n ∧ len' = max len (placedEnd s.memoryBase address n) ∧
          s'.memoryBase = baseFor s.memoryBase address := by
  unfold placeRecord
  apply (detectBase_reaches address).continues.meets
  split
  · rename_i hlow
    refine meets_stop ⟨⟨_, _, rfl⟩, fun hfits => ?_⟩
    exact absurd hlow (BitVec.not_lt.mpr hfits.1)
  · rename_i hlow
    have hend : (address - baseFor s.memoryBase address + BitVec.ofInt 32 (n : Int)).toNat =
        placedEnd s.memoryBase address n := by
      rw [BitVec.ofInt_natCast]
      rfl
    simp only [hend, Int.toNat_natCast]
    split
    · rename_i hhigh
      refine meets_stop ⟨⟨_, _, rfl⟩, fun hfits => ?_⟩
      exact absurd hfits.2 (not_le.mpr hhigh)
    · rename_i hhigh
      have hle : placedEnd s.memoryBase address n ≤ memorySize := not_lt.mp hhigh
      have hint : (address - baseFor s.memoryBase address + BitVec.ofNat 32 n).toInt =
          placedEnd s.memoryBase address n :=
        BitVec.toInt_eq_toNat_of_lt (lt_of_le_of_lt (Nat.mul_le_mul_left 2 hle) (by decide))
      obtain ⟨s', hcopy, hbase⟩ := copyBytes_answers h (address - baseFor s.memoryBase address) n 0
        { s with memoryBase := baseFor s.memoryBase address }
      apply hcopy.continues.meets
      refine meets_pure ⟨⟨BitVec.not_lt.mp hlow, hle⟩, ?_, hbase⟩
      rw [hint]
      split <;> omega

/-- The digits of a record always answer. -/
theorem srecByte_answers (n : Nat) :
    Answers fun i => do return BitVec.ofInt 8 (← hexAt (4 + 2 * n + 2 * i)) := by
  intro i s
  exact ⟨_, s, (hexAt_value _).bind (reaches_pure _ _), rfl⟩

theorem readData_answers : Answers readData := fun i s => ⟨_, s, readData_reaches i, rfl⟩

/-- The lines of an S-record file that the loader accepts, from a base and a length on: each data
record fits, and behind a line that does not fit the buffer the loader ends, if nothing has been
loaded. -/
def SrecAccepts : Word → Int → List FileLine → Prop
  | _, _, [] => True
  | base, len, l :: ls =>
    match l.record with
    | none => if l.length ≤ 254 then SrecAccepts base len ls else len = 0
    | some r =>
      FitsBase base (BitVec.ofNat 32 r.addr) r.data.length ∧
        if l.length ≤ 254 then
          SrecAccepts (baseFor base (BitVec.ofNat 32 r.addr))
            (max len (placedEnd base (BitVec.ofNat 32 r.addr) r.data.length)) ls
        else max len (placedEnd base (BitVec.ofNat 32 r.addr) r.data.length) = 0

/-- The type and the text of a line. -/
theorem SrecAny.text {line : List Byte} {l : FileLine} (h : SrecAny line l) :
    ∃ type bytes text, line = letterS :: type :: text ∧ type ≠ newline ∧ HexText bytes text ∧
      l.length = text.length + 2 := by
  cases h with
  | @comment type _ _ text isType count isText =>
    refine ⟨type, _, text, rfl, ?_, isText, rfl⟩
    rintro rfl
    simp [newline] at isType
  | @data type _ _ _ text isType isAddr count isText =>
    refine ⟨type, _, text, rfl, ?_, isText, rfl⟩
    rintro rfl
    simp [newline] at isType

/-- What is not a line of either kind ends the file, or is refused. -/
theorem srecLines_foreign {c : Byte} (more : List Byte) (lines : List (List Byte)) (len : Int)
    (hnewline : c ≠ newline) (hletter : c ≠ letterS) :
    Decides (srecLines ((c :: more) :: lines) len) s (len = 0) := by
  have hfirst : (s.withLine (c :: more)).buf 0 = c := (holds_withLine s [c] more).head
  apply (fgets_reaches _).continues.meets
  apply (readChar_reaches 0).continues.meets
  rw [hfirst, if_neg hnewline, if_pos hletter]
  split
  · rename_i hlen
    exact meets_pure hlen
  · rename_i hlen
    exact meets_stop ⟨⟨_, _, rfl⟩, hlen⟩

theorem srecLines_blank (lines : List (List Byte)) (len : Int) :
    (srecLines ([newline] :: lines) len).Continues s (srecLines lines len) (s.withLine [newline]) := by
  have hfirst : (s.withLine [newline]).buf 0 = newline := (holds_withLine s [newline] []).head
  apply (fgets_reaches _).continues.trans
  apply (readChar_reaches 0).continues.trans
  rw [hfirst, if_pos rfl]
  exact Continues.refl _ _

/-- A digit starts no line. -/
theorem IsDigit.ne_start {n : Nat} {c : Byte} (h : IsDigit n c) : c ≠ letterS ∧ c ≠ colon := by
  have hletter : letterS.toNat = 0x53 := rfl
  have hcolon : colon.toNat = 0x3A := rfl
  constructor
  · rintro rfl
    rcases h with ⟨hn, hc⟩ | ⟨hlow, hhigh, hc | hc⟩ <;> omega
  · rintro rfl
    rcases h with ⟨hn, hc⟩ | ⟨hlow, hhigh, hc | hc⟩ <;> omega

/-- A line is not empty and has no newline, and behind its first two characters there are digits. -/
theorem HexText.line_facts {bytes text start : List Byte} (htext : HexText bytes text)
    (hne : start ≠ []) (hnewline : newline ∉ start) :
    start ++ text ≠ [] ∧ newline ∉ start ++ text := by
  refine ⟨List.append_ne_nil_of_left_ne_nil hne _, fun hmem => ?_⟩
  rcases List.mem_append.mp hmem with hmem | hmem
  · exact hnewline hmem
  · obtain ⟨n, hn⟩ := htext.forall_mem _ hmem
    exact hn.ne_newline rfl

/-- The first part of a line starts as the line does. -/
theorem take_chunk (line eol : List Byte) {k : Nat} (hk : k ≤ line.length) (hbuf : k ≤ 255) :
    ∃ more, (line ++ eol).take 255 = line.take k ++ more := by
  refine ⟨((line ++ eol).take 255).drop k, ?_⟩
  have hstart : ((line ++ eol).take 255).take k = line.take k := by
    rw [List.take_take, min_eq_left hbuf, List.take_append_of_le_length hk]
  rw [← hstart, List.take_append_drop]

/-- The part of a line that the buffer takes, and what the loader makes of the rest. -/
theorem SrecAny.chunk {line eol rest : List Byte} {l : FileLine} {ls : List FileLine}
    (h : SrecAny line l) (hend : IsEnd eol rest)
    (hrest : ∀ s len, Decides (srecLines (fgetsLines rest) len) s (SrecAccepts s.memoryBase len ls)) :
    ∃ chunk lines, fgetsLines (line ++ (eol ++ rest)) = chunk :: lines ∧
      (∀ k ≤ line.length, k ≤ 255 → ∃ more, chunk = line.take k ++ more) ∧
      ∀ s len, Decides (srecLines lines len) s
        (if l.length ≤ 254 then SrecAccepts s.memoryBase len ls else len = 0) := by
  obtain ⟨type, bytes, text, rfl, htype, htext, hl⟩ := h.text
  have heven := htext.length_eq
  have hstart : newline ∉ [letterS, type] := by
    intro hmem
    rcases List.mem_pair.mp hmem with h | h
    · exact absurd h (by decide)
    · exact htype h.symm
  obtain ⟨hne, hnewline⟩ := htext.line_facts (List.cons_ne_nil letterS [type]) hstart
  change letterS :: type :: text ≠ [] at hne
  change newline ∉ letterS :: type :: text at hnewline
  rcases Nat.lt_or_ge 255 (letterS :: type :: text ++ eol).length with hlong | hshort
  · refine ⟨_, _, fgetsLines_long rest hne hnewline hend hlong, fun k hk => take_chunk _ eol hk, ?_⟩
    intro s len
    rw [List.length_append, List.length_cons, List.length_cons] at hlong
    rcases Nat.lt_or_ge 254 l.length with hlen | hlen
    · rw [if_neg (by omega)]
      obtain ⟨c, more, hdrop⟩ : ∃ c more, text.drop 253 = c :: more :=
        List.exists_cons_of_ne_nil (by rw [ne_eq, List.drop_eq_nil_iff]; omega)
      obtain ⟨n, hdigit⟩ := htext.forall_mem c (List.mem_of_mem_drop (hdrop ▸ List.mem_cons_self))
      have hpart : (letterS :: type :: text ++ eol).drop 255 ++ rest = [c] ++ (more ++ (eol ++ rest)) := by
        rw [List.drop_append_of_le_length (by rw [List.length_cons, List.length_cons]; omega)]
        change text.drop 253 ++ eol ++ rest = _
        rw [hdrop, List.append_assoc]
        rfl
      obtain ⟨more', lines, hlines⟩ := fgetsLines_start (more ++ (eol ++ rest))
        (List.cons_ne_nil c []) (by simpa using hdigit.ne_newline.symm) (by simp)
      rw [hpart, hlines]
      exact srecLines_foreign more' lines len hdigit.ne_newline hdigit.ne_start.1
    · rw [if_pos hlen]
      have hpart : (letterS :: type :: text ++ eol).drop 255 ++ rest = newline :: rest := by
        rcases hend with (rfl | rfl) | ⟨rfl, -⟩
        · rw [List.length_singleton] at hlong
          omega
        · have hindex : 255 = (letterS :: type :: text).length + 1 := by
            simp only [List.length_cons, List.length_nil] at hlong ⊢
            omega
          rw [hindex, List.drop_append, Nat.add_sub_cancel_left, List.drop_eq_nil_of_le (by omega)]
          rfl
        · rw [List.length_nil] at hlong
          omega
      rw [hpart, fgetsLines_blank]
      exact (srecLines_blank _ len).meets (hrest _ len)
  · refine ⟨_, _, fgetsLines_short rest hne hnewline hend hshort, fun k hk _ => ?_, ?_⟩
    · exact ⟨(letterS :: type :: text).drop k ++ eol, by
        rw [← List.append_assoc, List.take_append_drop]⟩
    · intro s len
      rw [List.length_append, List.length_cons, List.length_cons] at hshort
      rw [if_pos (by omega)]
      exact hrest s len

/-- One line of an S-record file. -/
theorem SrecAny.decides {line eol rest : List Byte} {l : FileLine} {ls : List FileLine}
    (h : SrecAny line l) (hend : IsEnd eol rest)
    (hrest : ∀ s len, Decides (srecLines (fgetsLines rest) len) s (SrecAccepts s.memoryBase len ls))
    (s : LoadState) (len : Int) : Decides (srecLines (fgetsLines (line ++ (eol ++ rest))) len) s
      (SrecAccepts s.memoryBase len (l :: ls)) := by
  obtain ⟨chunk, lines, hlines, hchunk, hgo⟩ := h.chunk hend hrest
  rw [hlines]
  cases h with
  | @comment type check body text isType count isText =>
    have hnone : srecAddressBytes type = none ∧ type ≠ 0x37 ∧ type ≠ 0x38 ∧ type ≠ 0x39 := by
      simp only [List.mem_cons, List.not_mem_nil, or_false] at isType
      rcases isType with rfl | rfl | rfl <;> decide
    have hhead := isText.take 1
    obtain ⟨more, rfl⟩ := hchunk 4 (by rw [List.length_cons, List.length_cons, isText.length_eq,
      srecBytesWith, List.length_cons]; omega) (by decide)
    have hbuf := (holds_withLine s (letterS :: type :: text.take 2) more).tail.tail
    apply (srecLines_continues more lines len hnone.2 hhead (by rw [hhead.length_eq]; rfl)).meets
    apply (srecRecord_comment hnone.1 count hhead hbuf len).continues.meets
    exact hgo _ len
  | @data type check n r text isType isAddr count isText =>
    obtain ⟨-, hne, hn⟩ := srecAddressBytes_of_mem isType
    have hlength : (bytesBE n r.addr ++ r.data).length = n + r.data.length := by
      rw [List.length_append, length_bytesBE]
    have hbytes : (srecBytesWith (bytesBE n r.addr ++ r.data) check).take (1 + n) =
        BitVec.ofNat 8 (n + r.data.length + 1) :: (bytesBE n r.addr ++ []) := by
      rw [srecBytesWith, hlength, Nat.add_comm 1 n, List.take_succ_cons, List.append_assoc,
        List.take_append_of_le_length (by rw [length_bytesBE]),
        List.take_of_length_le (by rw [length_bytesBE]), List.append_nil]
    have hhead := isText.take (1 + n)
    rw [hbytes] at hhead
    have hheadLen := hhead.length_eq
    rw [List.length_cons, List.append_nil, length_bytesBE] at hheadLen
    obtain ⟨more, rfl⟩ := hchunk (2 * (1 + n) + 2) (by rw [List.length_cons, List.length_cons,
      isText.length_eq, srecBytesWith, List.length_cons, List.length_append, hlength]; omega) (by omega)
    have hbuf := (holds_withLine s (letterS :: type :: text.take (2 * (1 + n))) more).tail.tail
    apply (srecLines_continues more lines len hne hhead (by omega)).meets
    have hplace := srecRecord_head isType isAddr count hhead hbuf len
    have hdata : ((n + r.data.length + 1 : Nat) : Int) - 1 - n = r.data.length := by omega
    rw [hdata] at hplace
    apply hplace.bind.meets
    apply ((placeRecord_meets (srecByte_answers n) _ _ len).mono (fun e he => ?_)
      fun _ _ hpost => hpost).bind
    · rintro len' s' ⟨hfits, rfl, hbase⟩
      apply (hgo s' _).mono
      · rintro e ⟨hrefusal, hnot⟩
        rw [hbase] at hnot
        exact ⟨hrefusal, fun haccepts => hnot haccepts.2⟩
      · intro _ _ hpost
        rw [hbase] at hpost
        exact ⟨hfits, hpost⟩
    · exact ⟨he.1, fun haccepts => he.2 haccepts.1⟩

/-- A file of S-records is accepted where its lines are. -/
theorem readSrec_decides {file : List Byte} {ls : List FileLine} (h : LineFile SrecAny SrecStop file ls)
    (s : LoadState) (len : Int) :
    Decides (srecLines (fgetsLines file) len) s (SrecAccepts s.memoryBase len ls) := by
  induction h generalizing s len with
  | eof => exact meets_pure trivial
  | stop rest isStop =>
    obtain ⟨line, hline⟩ := isStop.continues rest len s
    exact hline.meets (meets_pure trivial)
  | line isLine isEnd isRest ih => exact isLine.decides isEnd ih s len

/-- Every run of the loader refuses the file. -/
def Refused {α : Type} (m : Load α) (s : LoadState) : Prop := Meets m s Refusal fun _ _ => False

/-- The base is at the address of a HEX record, or not known. -/
def Aligned (s : LoadState) : Prop := s.memoryBase.toNat % 4 = 0

/-- After a line with the right checksum the loader goes on. A line of 255 characters, which fills
the buffer without its end, is a data record. -/
structure HexGoes (l : FileLine) (step : HexStep) (s : LoadState) : Prop where
  good : ¬l.Bad
  aligned : Aligned s
  notStop : step ≠ .stop
  full : l.length = 255 → ∃ len, step = .next len ∧ len ≠ 0

/-- A record that is not the last one does not stop. -/
theorem next_ne_stop (len : Int) : HexStep.next len ≠ .stop := by
  intro h
  cases h

theorem length_hexBytesWith (addr : Nat) (type check : Byte) (data : List Byte) :
    (hexBytesWith addr type data check).length = data.length + 5 := by
  rw [hexBytesWith, List.length_append, List.length_cons, List.length_append, length_bytesBE,
    List.length_cons, List.length_singleton]
  omega

/-- An address that passes the check is a multiple of four. -/
theorem aligned_of_and {x : Word} (h : x &&& 3 = 0) : x.toNat % 4 = 0 := by
  have hthree : (3 : Word).toNat = 2 ^ 2 - 1 := rfl
  have hand := congrArg BitVec.toNat h
  rwa [BitVec.toNat_and, hthree, Nat.and_two_pow_sub_one_eq_mod] at hand

/-- A record that stands in the buffer is refused, unless its checksum is right and its address a
multiple of four. -/
theorem hexRecord_full (high : Nat) {addr : Nat} {type check : Byte} {data text : List Byte}
    {Q : HexStep → LoadState → Prop} (haddr : addr < 0x10000) (hcount : data.length < 256)
    (htype : type ≠ 1 ∧ type ≠ 5) (htext : HexText (hexBytesWith addr type data check) text)
    (hbuf : Holds s.buf 1 text) (len : Int)
    (hplaced : check = hexCheck addr type data →
      (BitVec.ofNat 32 (high * 0x10000 + addr) : Word).toNat % 4 = 0 →
      Meets (hexPlaced type data.length (BitVec.ofNat 32 (high * 0x10000 + addr)) len)
        { s with data := store s.data 0 data } Refusal Q) :
    Meets (hexRecord (BitVec.ofNat 32 high) len) s Refusal Q := by
  apply (hexRecord_head high haddr hcount htype (htext.take 4) (hbuf.take 8) len).meets
  split
  · exact meets_stop ⟨_, _, rfl⟩
  · split
    · exact meets_stop ⟨_, _, rfl⟩
    · split
      · exact meets_stop ⟨_, _, rfl⟩
      · rename_i haligned
        apply (hexChecked_continues high htext hbuf len).meets
        split
        · exact meets_stop ⟨_, _, rfl⟩
        · rename_i hcheck
          exact hplaced (not_not.mp hcheck) (aligned_of_and (not_not.mp haligned))

/-- A data record with the right checksum is placed or refused. -/
theorem hexPlaced_data {address : Word} (addr : Nat) (data : List Byte) (haligned : Aligned s)
    (haddress : address.toNat % 4 = 0) (len : Int) :
    Meets (hexPlaced 0 data.length address len) s Refusal
      (HexGoes ⟨some ⟨addr, data⟩, true, 2 * (data.length + 5) + 1⟩) := by
  have hbase : (baseFor s.memoryBase address).toNat % 4 = 0 := by
    unfold baseFor
    split
    · exact haddress
    · exact haligned
  rw [hexPlaced, if_neg (by decide), if_neg (not_not.mpr rfl)]
  apply ((placeRecord_meets readData_answers address data.length len).mono (fun e he => he.1)
    fun _ _ hpost => hpost).bind
  rintro len' s' ⟨-, rfl, hs'⟩
  refine meets_pure ⟨by simp [FileLine.Bad], ?_, next_ne_stop _, fun hlen => ⟨_, rfl, ?_⟩⟩
  · rw [Aligned, hs']
    exact hbase
  · have hend : placedEnd s.memoryBase address data.length ≠ 0 := by
      have hcount : data.length = 122 := by
        dsimp only at hlen
        omega
      have haddressLt := address.isLt
      have hbaseLt := (baseFor s.memoryBase address).isLt
      rw [placedEnd, BitVec.toNat_add, BitVec.toNat_sub, BitVec.toNat_ofNat, hcount]
      omega
    omega

/-- A line that stands in the buffer is refused, or the loader goes on. -/
theorem HexAny.goes {text : List Byte} {l : FileLine} (h : HexAny (colon :: text) l)
    (haligned : Aligned s) (hbuf : Holds s.buf 1 text) (high : Nat) (len : Int) :
    Meets (hexRecord (BitVec.ofNat 32 high) len) s Refusal (HexGoes l) := by
  cases h with
  | @start addr check data _ length isText =>
    have hlen : text.length + 1 ≠ 255 := by
      rw [isText.length_eq, length_hexBytesWith, length]
      decide
    apply (hexRecord_start (isText.take 4) (hbuf.take 8) _ len).meets
    exact ⟨by simp [FileLine.Bad], haligned, next_ne_stop _, fun hfull => absurd hfull hlen⟩
  | @extend addr first second check _ isAddr isText =>
    have hlen : text.length + 1 ≠ 255 := by
      rw [isText.length_eq, length_hexBytesWith]
      simp
    have htwo : (([first, second] : List Byte).length : Int) = 2 := rfl
    apply hexRecord_full high isAddr (by simp) (by decide) isText hbuf len
    intro hcheck haddr
    rw [hexPlaced, if_pos rfl, if_neg (not_not.mpr htwo)]
    apply (readData_reaches 0).continues.meets
    apply (readData_reaches 1).continues.meets
    exact meets_pure ⟨by simp [FileLine.Bad], haligned, by simp, fun hfull => absurd hfull hlen⟩
  | @segment addr type check data _ isType isAddr count isText =>
    have htype : type ≠ 4 ∧ type ≠ 0 ∧ type ≠ 1 ∧ type ≠ 5 := by
      simp only [List.mem_cons, List.not_mem_nil, or_false] at isType
      rcases isType with rfl | rfl <;> decide
    apply hexRecord_full high isAddr count htype.2.2 isText hbuf len
    intro hcheck haddr
    rw [hexPlaced, if_neg htype.1, if_pos htype.2.1]
    exact meets_stop ⟨_, _, rfl⟩
  | @data addr check data _ isAddr count isText =>
    apply hexRecord_full high isAddr count (by decide) isText hbuf len
    intro hcheck haddr
    have hplaced := hexPlaced_data (s := { s with data := store s.data 0 data }) addr data haligned
      haddr len
    rw [isText.length_eq, length_hexBytesWith, decide_eq_true hcheck]
    exact hplaced

/-- A buffer that is full has no longer text in it. -/
theorem strlen_le (h : s.buf 255 = 0) (hstored : s.stored = 256) : strlen s ≤ 255 := by
  unfold strlen
  rw [hstored]
  cases hfind : (List.range 256).find? fun i => s.buf i = 0 with
  | none =>
    have hnone := List.find?_eq_none.mp hfind 255 (by simp)
    exact absurd (decide_eq_true h) hnone
  | some i =>
    have hmem := List.mem_range.mp (List.mem_of_find?_eq_some hfind)
    change i ≤ 255
    omega

/-- A line that is longer than the buffer is refused. -/
theorem HexAny.refused_long {text : List Byte} {l : FileLine} (h : HexAny (colon :: text) l)
    (hlong : 255 < l.length) (hbuf : Holds s.buf 1 (text.take 8)) (hstrlen : strlen s ≤ 255)
    (high : Nat) (len : Int) : Refused (hexRecord (BitVec.ofNat 32 high) len) s := by
  have hrecord : ∀ {addr : Nat} {type check : Byte} {data : List Byte}, addr < 0x10000 →
      data.length < 256 → type ≠ 1 ∧ type ≠ 5 → HexText (hexBytesWith addr type data check) text →
      255 < text.length + 1 → Refused (hexRecord (BitVec.ofNat 32 high) len) s := by
    intro addr type check data haddr hcount htype htext hlen
    have htextLen := htext.length_eq
    rw [length_hexBytesWith] at htextLen
    apply (hexRecord_head high haddr hcount htype (htext.take 4) hbuf len).meets
    split
    · exact meets_stop ⟨_, _, rfl⟩
    · rw [if_pos (by omega)]
      exact meets_stop ⟨_, _, rfl⟩
  cases h with
  | @start addr check data _ length isText =>
    change 255 < text.length + 1 at hlong
    rw [isText.length_eq, length_hexBytesWith, length] at hlong
    omega
  | @extend addr first second check _ isAddr isText =>
    exact hrecord isAddr (by simp) (by decide) isText hlong
  | @segment addr type check data _ isType isAddr count isText =>
    have htype : type ≠ 1 ∧ type ≠ 5 := by
      simp only [List.mem_cons, List.not_mem_nil, or_false] at isType
      rcases isType with rfl | rfl <;> decide
    exact hrecord isAddr count htype isText hlong
  | @data addr check data _ isAddr count isText =>
    exact hrecord isAddr count (by decide) isText hlong

/-- The text of a line. -/
theorem HexAny.text {line : List Byte} {l : FileLine} (h : HexAny line l) :
    ∃ bytes text, line = colon :: text ∧ HexText bytes text ∧ l.length = text.length + 1 := by
  cases h with
  | start _ isText => exact ⟨_, _, rfl, isText, rfl⟩
  | extend _ isText => exact ⟨_, _, rfl, isText, rfl⟩
  | segment _ _ _ isText => exact ⟨_, _, rfl, isText, rfl⟩
  | data _ _ isText => exact ⟨_, _, rfl, isText, rfl⟩

/-- What is not a line of either kind is refused once something has been loaded. -/
theorem hexLines_foreign {c : Byte} (more : List Byte) (lines : List (List Byte)) (high : Word)
    {len : Int} (hlen : len ≠ 0) (hnewline : c ≠ newline) (hcolon : c ≠ colon) :
    Refused (hexLines ((c :: more) :: lines) high len) s := by
  have hfirst : (s.withLine (c :: more)).buf 0 = c := (holds_withLine s [c] more).head
  apply (fgets_reaches _).continues.meets
  apply (readChar_reaches 0).continues.meets
  rw [hfirst, if_neg hnewline, if_pos hcolon, if_neg hlen]
  exact meets_stop ⟨_, _, rfl⟩

theorem hexLines_blank (lines : List (List Byte)) (high : Word) (len : Int) :
    (hexLines ([newline] :: lines) high len).Continues s (hexLines lines high len)
      (s.withLine [newline]) := by
  have hfirst : (s.withLine [newline]).buf 0 = newline := (holds_withLine s [newline] []).head
  apply (fgets_reaches _).continues.trans
  apply (readChar_reaches 0).continues.trans
  rw [hfirst, if_pos rfl]
  exact Continues.refl _ _

/-- A line in the buffer is refused, or the loader goes on with the next lines. -/
theorem HexAny.refused_chunk {text more : List Byte} {l : FileLine} {lines : List (List Byte)}
    (h : HexAny (colon :: text) l) (haligned : Aligned s) (high len)
    (hrest : l.Bad ∨ ∀ s high len, Aligned s → (l.length = 255 → len ≠ 0) →
      Refused (hexLines lines high len) s) :
    Refused (hexLines ((colon :: text ++ more) :: lines) (BitVec.ofNat 32 high) len) s := by
  apply (hexLines_continues more lines _ len).meets
  have hbuf := (holds_withLine s (colon :: text) more).tail
  apply (h.goes (s := s.withLine (colon :: text ++ more)) haligned hbuf high len).bind
  rintro step s' ⟨good, aligned, notStop, full⟩
  have hgo := hrest.resolve_left good
  cases step with
  | stop => exact absurd rfl notStop
  | high high' =>
    refine hgo s' high' len aligned fun hlen => ?_
    obtain ⟨len', hstep, -⟩ := full hlen
    exact nomatch hstep
  | next len' =>
    refine hgo s' _ len' aligned fun hlen => ?_
    obtain ⟨len'', hstep, hne⟩ := full hlen
    rw [HexStep.next.inj hstep]
    exact hne

/-- One line of a HEX file: it is refused if its checksum is wrong, or the loader goes on behind it. -/
theorem HexAny.refused {line eol rest : List Byte} {l : FileLine} (h : HexAny line l)
    (hend : IsEnd eol rest) (hrest : l.Bad ∨ ∀ s high len, Aligned s →
      Refused (hexLines (fgetsLines rest) high len) s)
    (s : LoadState) (high : Nat) (len : Int) (haligned : Aligned s) :
    Refused (hexLines (fgetsLines (line ++ (eol ++ rest))) (BitVec.ofNat 32 high) len) s := by
  obtain ⟨bytes, text, rfl, htext, hl⟩ := h.text
  have heven := htext.length_eq
  have hnewline := htext.newline_notMem
  have hne : colon :: text ≠ [] := List.cons_ne_nil _ _
  rcases Nat.lt_or_ge 255 (colon :: text ++ eol).length with hlong | hshort
  · rw [fgetsLines_long rest hne hnewline hend hlong]
    rcases Nat.lt_or_ge 255 l.length with hlen | hlen
    · obtain ⟨more, hmore⟩ := take_chunk (colon :: text) eol (k := 9)
        (by rw [List.length_cons]; omega) (by decide)
      have hchunk : (colon :: text ++ eol).take 255 = colon :: text.take 8 ++ more := hmore
      have hfull : (colon :: text.take 8 ++ more).length = 255 := by
        rw [← hchunk, List.length_take, min_eq_left hlong.le]
      have hstrlen : strlen (s.withLine (colon :: text.take 8 ++ more)) ≤ 255 := by
        apply strlen_le
        · change store s.buf 0 (colon :: text.take 8 ++ more ++ [0]) 255 = 0
          have hlast := holds_store s.buf (colon :: text.take 8 ++ more ++ [0]) 255 0
            (by rw [← hfull]; exact List.getElem?_concat_length)
          rwa [Nat.zero_add] at hlast
        · change (colon :: text.take 8 ++ more).length + 1 = 256
          rw [hfull]
      rw [hchunk]
      apply (hexLines_continues more _ _ len).meets
      have hbuf := (holds_withLine s (colon :: text.take 8) more).tail
      exact (h.refused_long hlen hbuf hstrlen high len).bind fun _ _ hfalse => hfalse.elim
    · have hfull : (colon :: text).length = 255 := by
        rw [List.length_append, List.length_cons] at hlong
        rcases hend with (rfl | rfl) | ⟨rfl, -⟩
        · rw [List.length_cons]
          simp at hlong
          omega
        · rw [List.length_cons]
          simp at hlong
          omega
        · simp at hlong
          omega
      rw [List.take_append_of_le_length hfull.ge, List.take_of_length_le hfull.le,
        List.drop_append_of_le_length hfull.ge, List.drop_eq_nil_of_le hfull.le, List.nil_append,
        ← List.append_nil (colon :: text)]
      apply h.refused_chunk haligned
      apply hrest.imp_right
      intro hgo s high len haligned hlen'
      have hlen'' := hlen' (by rw [hl, ← hfull]; rfl)
      rcases hend with (rfl | rfl) | ⟨rfl, rfl⟩
      · change Refused (hexLines (fgetsLines (newline :: rest)) high len) s
        rw [fgetsLines_blank]
        exact (hexLines_blank _ _ _).meets (hgo _ high len haligned)
      · have hcr : fgetsLines ([0x0D, newline] ++ rest) = [0x0D, newline] :: fgetsLines rest :=
          @fgetsLines_line [0x0D] [newline] rest (List.cons_ne_nil _ _) (by decide) (.inl rfl)
            (by decide)
        rw [hcr]
        exact hexLines_foreign _ _ high hlen'' (by decide) (by decide)
      · simp at hlong
        omega
  · rw [fgetsLines_short rest hne hnewline hend hshort]
    apply h.refused_chunk haligned
    exact hrest.imp_right fun hgo s high len haligned _ => hgo s high len haligned

/-- A HEX file with a wrong checksum before its end is refused. -/
theorem readHex_refused {file : List Byte} {ls : List FileLine} (h : LineFile HexAny HexStop file ls)
    (hbad : ∃ l ∈ ls, l.Bad) (s : LoadState) (high : Word) (len : Int) (haligned : Aligned s) :
    Refused (hexLines (fgetsLines file) high len) s := by
  induction h generalizing s high len with
  | eof => simp at hbad
  | stop rest isStop => simp at hbad
  | @line line eol rest l ls isLine isEnd isRest ih =>
    have hhigh : high = BitVec.ofNat 32 high.toNat := by rw [BitVec.ofNat_toNat, BitVec.setWidth_eq]
    rw [hhigh]
    refine isLine.refused isEnd ?_ s high.toNat len haligned
    obtain ⟨l', hl', hbad'⟩ := hbad
    rcases List.mem_cons.mp hl' with rfl | hl'
    · exact .inl hbad'
    · exact .inr fun s high len haligned => ih ⟨l', hl', hbad'⟩ s high len haligned

end Mcprog
