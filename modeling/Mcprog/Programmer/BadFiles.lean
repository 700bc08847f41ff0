import Mcprog.Loader.Checksums
import Mcprog.Loader.Loads
import Mcprog.Programmer.DoProgram

/-!
# Files with a wrong checksum

What becomes of a file with a wrong checksum when the formats are tried one after the other. The
checksums of HEX records are compared; those of S-records are not.
-/

namespace Mcprog

open Interaction Program

/-- Whatever the buffers hold, the file is refused with an error, and there is no image. -/
def RefusesFile (file : List Byte) : Prop :=
  ∀ l : LoadState, l.memoryBase = 0 → ∃ text values, loaded (readFile file) l = .error (.exit 1 text values)

/-- The first line of a file starts with its first character. -/
theorem fgetsLines_first {c : Byte} (hc : c ≠ newline) (text : List Byte) :
    ∃ more lines, fgetsLines (c :: text) = (c :: more) :: lines :=
  fgetsLines_start text (List.cons_ne_nil c []) (by simpa using hc.symm) (by simp)

/-- A file that does not start as S-records do is left to the next loader. -/
theorem readSrec_other {c : Byte} (hnewline : c ≠ newline) (hletter : c ≠ letterS) (text : List Byte)
    (l : LoadState) : ∃ l', (readSrec (c :: text)).Reaches l 0 l' ∧ l'.memoryBase = l.memoryBase := by
  obtain ⟨more, lines, hlines⟩ := fgetsLines_first hnewline text
  have hfirst : (l.withLine (c :: more)).buf 0 = c := (holds_withLine l [c] more).head
  refine ⟨l.withLine (c :: more), ?_, rfl⟩
  rw [readSrec, hlines]
  apply (fgets_reaches _).bind
  apply (readChar_reaches 0).bind
  rw [hfirst, if_neg hnewline, if_pos hletter, if_pos rfl]
  exact reaches_pure _ _

/-- A file that does not start as HEX records do is left to the next loader. -/
theorem readHex_other {c : Byte} (hnewline : c ≠ newline) (hcolon : c ≠ colon) (text : List Byte)
    (l : LoadState) : ∃ l', (readHex (c :: text)).Reaches l 0 l' := by
  obtain ⟨more, lines, hlines⟩ := fgetsLines_first hnewline text
  have hfirst : (l.withLine (c :: more)).buf 0 = c := (holds_withLine l [c] more).head
  refine ⟨l.withLine (c :: more), ?_⟩
  rw [readHex, hlines]
  apply (fgets_reaches _).bind
  apply (readChar_reaches 0).bind
  rw [hfirst, if_neg hnewline, if_pos hcolon, if_pos rfl]
  exact reaches_pure _ _

/-- Lines make a file that starts as the first of them does. -/
theorem LineFile.start {Line : List Byte → FileLine → Prop} {Stop : List Byte → Prop} (first : Byte)
    (hfirst : ∀ line l, Line line l → ∃ text, line = first :: text) {file : List Byte}
    {ls : List FileLine} (h : LineFile Line Stop file ls) (hne : ls ≠ []) :
    ∃ text, file = first :: text := by
  cases h with
  | eof => exact absurd rfl hne
  | stop => exact absurd rfl hne
  | line isLine isEnd isRest =>
    obtain ⟨text, rfl⟩ := hfirst _ _ isLine
    exact ⟨_, rfl⟩

variable {file : List Byte} {ls : List FileLine}

/-- A HEX file with a wrong checksum is refused by the second loader. -/
theorem readFile_hex (h : LineFile HexAny HexStop file ls) (hbad : ∃ l ∈ ls, l.Bad) (l : LoadState)
    (hbase : l.memoryBase = 0) : Refused (readFile file) l := by
  obtain ⟨text, rfl⟩ := h.start colon (fun line l hline => by
    obtain ⟨bytes, text, rfl, -, -⟩ := hline.text
    exact ⟨text, rfl⟩) (by rintro rfl; simp at hbad)
  obtain ⟨l', hsrec, hbase'⟩ := readSrec_other (show colon ≠ newline by decide) (by decide) text l
  have haligned : Aligned l' := by
    rw [Aligned, hbase', hbase]
    rfl
  apply hsrec.continues.meets
  rw [if_neg (not_not.mpr rfl)]
  exact (readHex_refused h hbad l' 0 0 haligned).bind fun _ _ hfalse => hfalse.elim

/-- A file of S-records that the first loader accepts is loaded, by the last one if it has no data. -/
theorem readFile_srec (h : LineFile SrecAny SrecStop file ls) (hne : ls ≠ []) (l : LoadState) :
    Decides (readFile file) l (SrecAccepts l.memoryBase 0 ls) := by
  obtain ⟨text, rfl⟩ := h.start letterS (fun line l hline => by
    obtain ⟨type, bytes, text, rfl, -, -, -⟩ := hline.text
    exact ⟨type :: text, rfl⟩) hne
  apply (readSrec_decides h l 0).bind
  intro len l' haccepts
  split
  · exact meets_pure haccepts
  · obtain ⟨l'', hhex⟩ := readHex_other (show letterS ≠ newline by decide) (by decide) text l'
    apply hhex.continues.meets
    rw [if_neg (not_not.mpr rfl)]
    apply (reaches_update _ _).continues.meets
    apply (reaches_update _ _).continues.meets
    exact meets_pure haccepts

/-- A run that refuses leaves no image. -/
theorem Refused.loaded {m : Load Int} {l : LoadState} (h : Refused m l) :
    ∃ text values, loaded m l = .error (.exit 1 text values) := by
  unfold Refused Meets at h
  unfold Mcprog.loaded
  cases hr : (m l).result with
  | error e =>
    rw [hr] at h
    obtain ⟨text, values, rfl⟩ := h
    exact ⟨text, values, rfl⟩
  | ok len =>
    rw [hr] at h
    exact h.elim

/-- A file of S-records that is accepted leaves an image. -/
theorem not_refusesFile_of_accepts (h : LineFile SrecAny SrecStop file ls) (hne : ls ≠ [])
    (haccepts : SrecAccepts 0 0 ls) : ¬RefusesFile file := by
  intro hrefuses
  have hdecides := readFile_srec h hne ⟨fun _ => 0, 0, fun _ => 0, fun _ => 0, 0⟩
  obtain ⟨text, values, hloaded⟩ := hrefuses ⟨fun _ => 0, 0, fun _ => 0, fun _ => 0, 0⟩ rfl
  unfold Decides Meets at hdecides
  unfold loaded at hloaded
  cases hr : (readFile file ⟨fun _ => 0, 0, fun _ => 0, fun _ => 0, 0⟩).result with
  | error e =>
    rw [hr] at hdecides
    exact hdecides.2 haccepts
  | ok len =>
    rw [hr] at hloaded
    exact nomatch hloaded

/-- A file with a wrong checksum in a data record before its end is refused exactly if it is a HEX
file, or if the loader of S-records refuses it for the places of its records. -/
theorem refusesFile_iff {fmt : Format} (h : AnyFile fmt file ls) (hbad : ∃ l ∈ ls, l.Bad) :
    RefusesFile file ↔ fmt = .hex ∨ ¬SrecAccepts 0 0 ls := by
  have hne : ls ≠ [] := by
    rintro rfl
    simp at hbad
  cases fmt with
  | hex => exact ⟨fun _ => .inl rfl, fun _ l hbase => (readFile_hex h hbad l hbase).loaded⟩
  | srec =>
    constructor
    · exact fun hrefuses => .inr fun haccepts => not_refusesFile_of_accepts h hne haccepts hrefuses
    · rintro (hfmt | hnot) l hbase
      · exact nomatch hfmt
      · have hdecides := readFile_srec h hne l
        rw [hbase] at hdecides
        have hrefused : Refused (readFile file) l :=
          hdecides.mono (fun _ he => he.1) fun _ _ haccepts => hnot haccepts
        exact hrefused.loaded

/-- One byte for the address `0x1000`, with a checksum that is off by one. -/
def offByOne : List Byte := letterS :: 0x31 :: hexDigits [0x04, 0x10, 0x00, 0x41, 0xAB]

theorem offByOne_any : AnyFile .srec offByOne [⟨some ⟨0x1000, [0x41]⟩, false, 12⟩] := by
  have htext : HexText (srecBytesWith (bytesBE 2 0x1000 ++ [0x41]) 0xAB)
      (hexDigits [0x04, 0x10, 0x00, 0x41, 0xAB]) := hexText_hexDigits _
  have hline := @SrecAny.data 0x31 0xAB 2 ⟨0x1000, [0x41]⟩ _ (by simp) (by decide) (by decide) htext
  exact .line hline (.inr ⟨rfl, rfl⟩) .eof

theorem offByOne_accepts : SrecAccepts 0 0 [⟨some ⟨0x1000, [0x41]⟩, false, 12⟩] :=
  ⟨by decide, trivial⟩

/-- It is refused exactly if its record does not fit. -/
theorem refusesFile_iff_offByOne : RefusesFile offByOne ↔
    Format.srec = .hex ∨ ¬SrecAccepts 0 0 [⟨some ⟨0x1000, [0x41]⟩, false, 12⟩] :=
  refusesFile_iff offByOne_any ⟨_, List.mem_singleton_self _, rfl, rfl⟩

/-- The file is accepted with its wrong checksum. -/
theorem offByOne_not_refused : AnyFile .srec offByOne [⟨some ⟨0x1000, [0x41]⟩, false, 12⟩] ∧
    (∃ l ∈ [(⟨some ⟨0x1000, [0x41]⟩, false, 12⟩ : FileLine)], l.Bad) ∧ ¬RefusesFile offByOne :=
  ⟨offByOne_any, ⟨_, List.mem_singleton_self _, rfl, rfl⟩,
    not_refusesFile_of_accepts offByOne_any (List.cons_ne_nil _ _) offByOne_accepts⟩

end Mcprog
