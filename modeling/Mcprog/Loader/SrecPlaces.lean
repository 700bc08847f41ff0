import Mcprog.Loader.Place

/-!
# S-record files are placed record by record

Each line of a well-formed file is followed through `read_srec`, up to the placing of its
record where it has one.
-/

namespace Mcprog

open Interaction Cells

variable {s : LoadState}

/-- The state with a line in the buffer. -/
def LoadState.withLine (s : LoadState) (line : List Byte) : LoadState :=
  { s with buf := store s.buf 0 (line ++ [0]), stored := line.length + 1 }

theorem LoadState.sameImage_withLine (s : LoadState) (line : List Byte) :
    SameImage s (s.withLine line) := ⟨rfl, rfl⟩

theorem fgets_reaches (line : List Byte) : (fgets line).Reaches s () (s.withLine line) :=
  Program.reaches_update _ s

/-- The buffer holds the start of the line that is put into it. -/
theorem holds_withLine (s : LoadState) (line more : List Byte) :
    Holds (s.withLine (line ++ more)).buf 0 line := by
  have hstore := holds_store s.buf (line ++ more ++ [0])
  rw [List.append_assoc] at hstore
  have hline := hstore.append_left
  rwa [← List.append_assoc] at hline

/-- A line that does not end the file goes to its record. -/
theorem srecLines_continues {type : Byte} {bytes text : List Byte} (more : List Byte)
    (lines : List (List Byte)) (len : Int) (htype : type ≠ 0x37 ∧ type ≠ 0x38 ∧ type ≠ 0x39)
    (htext : HexText bytes text) (hlen : 2 ≤ text.length) :
    (srecLines ((letterS :: type :: text ++ more) :: lines) len).Continues s
      (srecRecord type len >>= srecLines lines)
      (s.withLine (letterS :: type :: text ++ more)) := by
  have hbuf := holds_withLine s (letterS :: type :: text) more
  have hfirst : (s.withLine (letterS :: type :: text ++ more)).buf 0 = letterS := hbuf.head
  have hsecond : (s.withLine (letterS :: type :: text ++ more)).buf 1 = type := hbuf.tail.head
  have hthird := htext.isxdigit hbuf.tail.tail (j := 0) (by omega)
  have hfourth := htext.isxdigit hbuf.tail.tail (j := 1) (by omega)
  obtain ⟨h7, h8, h9⟩ := htype
  have hnot : ¬ (type = 0x37 ∨ type = 0x38 ∨ type = 0x39) := by
    rintro (h | h | h)
    · exact h7 h
    · exact h8 h
    · exact h9 h
  apply (fgets_reaches _).continues.trans
  apply (readChar_reaches 0).continues.trans
  rw [hfirst, if_neg (by decide), if_neg (by decide)]
  apply (readChar_reaches 1).continues.trans
  rw [hsecond, if_neg hnot]
  apply (readChar_reaches 2).continues.trans
  rw [if_neg (not_not.mpr hthird)]
  apply (readChar_reaches 3).continues.trans
  rw [if_neg (not_not.mpr hfourth)]
  exact Program.Continues.refl _ _

/-- A line that ends the file. -/
theorem srecLines_stop {type : Byte} (more : List Byte) (lines : List (List Byte)) (len : Int)
    (htype : type = 0x37 ∨ type = 0x38 ∨ type = 0x39) :
    (srecLines (([letterS, type] ++ more) :: lines) len).Continues s (pure len)
      (s.withLine ([letterS, type] ++ more)) := by
  have hbuf := holds_withLine s [letterS, type] more
  have hfirst : (s.withLine ([letterS, type] ++ more)).buf 0 = letterS := hbuf.head
  have hsecond : (s.withLine ([letterS, type] ++ more)).buf 1 = type := hbuf.tail.head
  apply (fgets_reaches _).continues.trans
  apply (readChar_reaches 0).continues.trans
  rw [hfirst, if_neg (by decide), if_neg (by decide)]
  apply (readChar_reaches 1).continues.trans
  rw [hsecond, if_pos htype]
  exact Program.Continues.refl _ _

/-- The reading of a file ends with such a record, whatever is behind it. -/
theorem SrecStop.continues {text : List Byte} (h : SrecStop text) (rest : List Byte) (len : Int) (s : LoadState) :
    ∃ line, (srecLines (fgetsLines (text ++ rest)) len).Continues s (pure len) (s.withLine line) := by
  obtain ⟨type, htype, rfl⟩ := h
  have htype' : type = 0x37 ∨ type = 0x38 ∨ type = 0x39 := by simpa using htype
  have hnewline : newline ∉ [letterS, type] := by
    rcases htype' with rfl | rfl | rfl <;> decide
  obtain ⟨more, lines, hlines⟩ :=
    fgetsLines_start rest (List.cons_ne_nil _ _) hnewline (show 2 ≤ 255 by omega)
  rw [hlines]
  exact ⟨_, srecLines_stop more lines len htype'⟩

/-- The count of an S-record. -/
theorem srecCount {count : Nat} {rest text : List Byte} (hcount : count < 256)
    (htext : HexText (BitVec.ofNat 8 count :: rest) text) (hbuf : Holds s.buf 2 text) :
    (hexAt 2).Reaches s (count : Nat) s := by
  have hread := htext.hexAt_reaches hbuf (k := 0) rfl
  rwa [BitVec.toNat_ofNat, Nat.mod_eq_of_lt hcount] at hread

/-- An S-record of a line that fits the buffer has a count below 256. -/
theorem HexText.count_lt {body text : List Byte} (htext : HexText (srecBytes body) text)
    (hlen : text.length ≤ 253) : body.length + 1 < 256 := by
  have hbody : text.length = 2 * (body.length + 2) := by
    rw [htext.length_eq, srecBytes]
    simp
  omega

theorem ofInt_byte (b : Byte) : BitVec.ofInt 8 (b.toNat : Int) = b := by
  rw [BitVec.ofInt_natCast, BitVec.ofNat_toNat, BitVec.setWidth_eq]

/-- A number that is read as a byte. -/
theorem hexByte_reaches {i : Nat} {b : Byte} (h : (hexAt i).Reaches s b.toNat s) :
    (do return BitVec.ofInt 8 (← hexAt i) : Load Byte).Reaches s b s := by
  have hret : (do return BitVec.ofInt 8 (← hexAt i) : Load Byte).Reaches s
      (BitVec.ofInt 8 (b.toNat : Int)) s := h.bind (Program.reaches_pure _ s)
  rwa [ofInt_byte] at hret

/-- Two characters are read as a number, whatever they are. -/
theorem hexAt_value (i : Nat) :
    (hexAt i).Reaches s (nibble (s.buf i) * 16 + nibble (s.buf (i + 1))) s :=
  (readChar_reaches i).bind ((readChar_reaches (i + 1)).bind (Program.reaches_pure _ s))

/-- Reading a number keeps the base. -/
theorem keepsBase_hexAt (i : Nat) : KeepsBase (hexAt i) := by
  intro s a s' h
  rw [(h.unique (hexAt_value i)).2]

/-- The data bytes of an S-record are read where they stand. -/
theorem srecData_gives {n : Nat} {r : DataRecord} {text : List Byte}
    (htext : HexText (srecBytes (bytesBE n r.addr ++ r.data)) text) (hbuf : Holds s.buf 2 text) :
    Gives (fun i => do return BitVec.ofInt 8 (← hexAt (4 + 2 * n + 2 * i))) s r.data := by
  intro i b hi t htbuf _
  have hlt : i < r.data.length := (List.getElem?_eq_some_iff.mp hi).1
  have hbyte : (srecBytes (bytesBE n r.addr ++ r.data))[1 + n + i]? = some b := by
    have hindex : 1 + n + i = n + i + 1 := by omega
    rw [srecBytes, hindex, List.cons_append, List.getElem?_cons_succ, List.getElem?_append_left,
      List.getElem?_append_right, length_bytesBE, Nat.add_sub_cancel_left]
    · exact hi
    · rw [length_bytesBE]
      omega
    · rw [List.length_append, length_bytesBE]
      omega
  have hread := htext.hexAt_reaches (s := t) (by rwa [htbuf]) hbyte
  have hpos : 2 + 2 * (1 + n + i) = 4 + 2 * n + 2 * i := by omega
  rw [hpos] at hread
  exact hexByte_reaches hread

/-- The types of data records, with the number of bytes in their addresses. -/
theorem srecAddressBytes_of_mem {type : Byte} {n : Nat}
    (h : (type, n) ∈ [((0x31 : Byte), 2), (0x32, 3), (0x33, 4)]) :
    srecAddressBytes type = some n ∧ (type ≠ 0x37 ∧ type ≠ 0x38 ∧ type ≠ 0x39) ∧ n ≤ 4 := by
  simp only [List.mem_cons, Prod.mk.injEq, List.not_mem_nil, or_false] at h
  rcases h with ⟨rfl, rfl⟩ | ⟨rfl, rfl⟩ | ⟨rfl, rfl⟩ <;> decide

/-- The count and the address of a data record lead to its placing. -/
theorem srecRecord_head {type : Byte} {n addr count : Nat} {rest text : List Byte}
    (htype : (type, n) ∈ [((0x31 : Byte), 2), (0x32, 3), (0x33, 4)]) (haddr : addr < 256 ^ n)
    (hcount : count < 256) (htext : HexText (BitVec.ofNat 8 count :: (bytesBE n addr ++ rest)) text)
    (hbuf : Holds s.buf 2 text) (len : Int) :
    (srecRecord type len).Continues s
      (placeRecord (BitVec.ofNat 32 addr) ((count : Int) - 1 - n)
        (fun i => do return BitVec.ofInt 8 (← hexAt (4 + 2 * n + 2 * i))) len) s := by
  obtain ⟨hbytes, -, -⟩ := srecAddressBytes_of_mem htype
  have haddress : (srecAddress n 4 0).Reaches s (BitVec.ofNat 32 addr) s := by
    cases hcopy : htext with
    | cons _ _ hrest =>
      have hread := srecAddress_reaches 0 hrest hbuf.tail.tail
      have hzero : (0 : Word).toNat * 256 ^ n + addr % 256 ^ n = addr := by
        have htoNat : (0 : Word).toNat = 0 := rfl
        rw [Nat.mod_eq_of_lt haddr, htoNat, Nat.zero_mul, Nat.zero_add]
      rwa [hzero] at hread
  unfold srecRecord
  apply (srecCount hcount htext hbuf).continues.trans
  rw [hbytes]
  apply haddress.continues.trans
  exact Program.Continues.refl _ _

/-- A data record goes to its placing. -/
theorem srecRecord_continues {type : Byte} {n : Nat} {r : DataRecord} {text : List Byte}
    (htype : (type, n) ∈ [((0x31 : Byte), 2), (0x32, 3), (0x33, 4)]) (haddr : r.addr < 256 ^ n)
    (htext : HexText (srecBytes (bytesBE n r.addr ++ r.data)) text) (hlen : text.length ≤ 253)
    (hbuf : Holds s.buf 2 text) (len : Int) :
    (srecRecord type len).Continues s
      (placeRecord (BitVec.ofNat 32 r.addr) r.data.length
        (fun i => do return BitVec.ofInt 8 (← hexAt (4 + 2 * n + 2 * i))) len) s := by
  have hcount := htext.count_lt hlen
  rw [srecBytes, List.cons_append, List.append_assoc] at htext
  have hhead := srecRecord_head htype haddr hcount htext hbuf len
  rw [List.length_append, length_bytesBE] at hhead
  have hdata : ((n + r.data.length + 1 : Nat) : Int) - 1 - n = r.data.length := by omega
  rwa [hdata] at hhead

/-- A record without data leaves the image as it is. -/
theorem srecRecord_comment {type : Byte} {count : Nat} {rest text : List Byte}
    (htype : srecAddressBytes type = none) (hcount : count < 256)
    (htext : HexText (BitVec.ofNat 8 count :: rest) text) (hbuf : Holds s.buf 2 text) (len : Int) :
    (srecRecord type len).Reaches s len s := by
  unfold srecRecord
  apply (srecCount hcount htext hbuf).bind
  rw [htype]
  exact Program.reaches_pure len s

/-- A line places its record where it has one, and goes on with the next lines. -/
theorem srecLine_places {line : List Byte} {r : Option DataRecord} {rs : List DataRecord}
    {lines : List (List Byte)} (more : List Byte) (len : Int) (h : SrecLine () line () r)
    (hlen : line.length ≤ 255) (hrest : ∀ len s, Places (srecLines lines len) s len rs) :
    Places (srecLines ((line ++ more) :: lines) len) s len (r.toList ++ rs) := by
  cases h with
  | @comment type body text htype htext =>
    have hne : type ≠ 0x37 ∧ type ≠ 0x38 ∧ type ≠ 0x39 := by
      rcases htype with rfl | rfl <;> decide
    rw [List.length_cons, List.length_cons] at hlen
    have hbuf := (holds_withLine s (letterS :: type :: text) more).tail.tail
    have htwo : 2 ≤ text.length := by
      rw [htext.length_eq, srecBytes]
      simp
    have hnone : srecAddressBytes type = none := by
      rcases htype with rfl | rfl <;> rfl
    have hcount := htext.count_lt (by omega)
    have hrecord := srecRecord_comment hnone hcount htext hbuf len
    exact Places.of_continues
      ((srecLines_continues more lines len hne htext htwo).trans hrecord.continues)
      (s.sameImage_withLine _) (hrest len _)
  | @data type n r text htype haddr htext =>
    obtain ⟨-, hne, hn⟩ := srecAddressBytes_of_mem htype
    rw [List.length_cons, List.length_cons] at hlen
    have hbuf := (holds_withLine s (letterS :: type :: text) more).tail.tail
    have htwo : 2 ≤ text.length := by
      rw [htext.length_eq, srecBytes]
      simp
    have hrecord := srecRecord_continues htype haddr htext (by omega) hbuf len
    have hpow : 256 ^ n ≤ 2 ^ 32 := Nat.pow_le_pow_right (by decide) hn
    exact .record (lt_of_lt_of_le haddr hpow)
      ((srecLines_continues more lines len hne htext htwo).trans hrecord.bind)
      (s.sameImage_withLine _) (srecData_gives htext hbuf)
      (fun i => (keepsBase_hexAt _).bind fun _ => keepsBase_pure _)
      fun len' s' => hrest len' s'

/-- A line has no newline, and it is not empty. -/
theorem SrecLine.newline_notMem {line : List Byte} {r : Option DataRecord}
    (h : SrecLine () line () r) : newline ∉ line ∧ line ≠ [] := by
  have hdigits : ∀ {type : Byte} {bytes text : List Byte}, type ≠ newline → HexText bytes text →
      newline ∉ letterS :: type :: text := by
    intro type bytes text htype htext hmem
    rcases List.mem_cons.mp hmem with hmem | hmem
    · exact absurd hmem (by decide)
    · rcases List.mem_cons.mp hmem with hmem | hmem
      · exact htype hmem.symm
      · obtain ⟨n, hn⟩ := htext.forall_mem _ hmem
        exact hn.ne_newline rfl
  cases h with
  | comment htype htext =>
    refine ⟨hdigits ?_ htext, List.cons_ne_nil _ _⟩
    rcases htype with rfl | rfl <;> decide
  | data htype _ htext =>
    refine ⟨hdigits ?_ htext, List.cons_ne_nil _ _⟩
    simp only [List.mem_cons, Prod.mk.injEq, List.not_mem_nil, or_false] at htype
    rcases htype with ⟨rfl, -⟩ | ⟨rfl, -⟩ | ⟨rfl, -⟩ <;> decide

/-- The records of a well-formed S-record file are placed one after the other. -/
theorem readSrec_places {u : Unit} {file : List Byte} {rs : List DataRecord}
    (h : TextFile SrecLine SrecStop u file rs) (s : LoadState) (len : Int) :
    Places (srecLines (fgetsLines file) len) s len rs := by
  induction h generalizing s len with
  | eof => exact .done (Program.Continues.refl _ _) ⟨rfl, rfl⟩
  | stop _ rest isStop =>
    obtain ⟨line, hline⟩ := isStop.continues rest len s
    exact .done hline (s.sameImage_withLine line)
  | @last _ _ line r isLine length =>
    obtain ⟨hnewline, hne⟩ := isLine.newline_notMem
    have hdone : ∀ len s, Places (srecLines [] len) s len [] := fun len s =>
      .done (Program.Continues.refl _ _) ⟨rfl, rfl⟩
    have hline := srecLine_places [] len isLine (le_trans length (by decide)) hdone (s := s)
    rw [List.append_nil, List.append_nil] at hline
    rw [fgetsLines_last hne hnewline (le_trans length (by decide))]
    exact hline
  | @line _ _ line eol rest r rs isLine isEol length isRest ih =>
    obtain ⟨hnewline, hne⟩ := isLine.newline_notMem
    rw [fgetsLines_line rest hne hnewline isEol length]
    rw [List.length_append] at length
    exact srecLine_places eol len isLine (by omega) fun len s => ih s len

end Mcprog
