import Mcprog.Loader.SrecPlaces

/-!
# HEX files are placed record by record

Each line of a well-formed file is followed through `read_hex`. The high half of the
address, which earlier lines have set, goes with the lines that are left.
-/

namespace Mcprog

open Interaction Cells

variable {s : LoadState}

/-- A line with its first character stands in the buffer. -/
theorem LoadState.lt_stored_withLine (s : LoadState) (text more : List Byte) :
    text.length < (s.withLine (colon :: text ++ more)).stored := by
  change text.length < (colon :: text ++ more).length + 1
  rw [List.length_append, List.length_cons]
  omega

theorem allDigits_reaches {is : List Nat} (h : ∀ i ∈ is, isxdigit (s.buf i) = true) :
    (allDigits is).Reaches s true s := by
  induction is with
  | nil => exact Program.reaches_pure true s
  | cons i is ih =>
    apply (readChar_reaches i).bind
    rw [if_pos (h i List.mem_cons_self)]
    exact ih fun j hj => h j (List.mem_cons_of_mem _ hj)

/-- The digits before the data, and the type of the record. -/
theorem hexType_reaches {addr : Nat} {type : Byte} {data text : List Byte}
    (htext : HexText ((hexBytes addr type data).take 4) text) (hbuf : Holds s.buf 1 text) :
    (allDigits [1, 2, 3, 4, 5, 6, 7, 8]).Reaches s true s ∧
      (hexAt 7).Reaches s type.toNat s := by
  have hlen : text.length = 8 := htext.length_eq
  constructor
  · apply allDigits_reaches
    intro i hi
    have hle : 1 ≤ i ∧ i ≤ 8 := by
      simp only [List.mem_cons, List.not_mem_nil, or_false] at hi
      omega
    have hdigit := htext.isxdigit hbuf (j := i - 1) (by omega)
    rwa [Nat.add_sub_cancel' hle.1] at hdigit
  · exact htext.hexAt_reaches hbuf (k := 3) rfl

/-- A record that ends the file. -/
theorem hexRecord_stop {addr : Nat} {data text : List Byte}
    (htext : HexText ((hexBytes addr 1 data).take 4) text) (hbuf : Holds s.buf 1 text)
    (high : Word) (len : Int) : (hexRecord high len).Reaches s .stop s := by
  obtain ⟨hdigits, htype⟩ := hexType_reaches htext hbuf
  apply hdigits.bind
  apply htype.bind
  exact Program.reaches_pure _ s

/-- A record that has no effect. -/
theorem hexRecord_start {addr : Nat} {data text : List Byte}
    (htext : HexText ((hexBytes addr 5 data).take 4) text) (hbuf : Holds s.buf 1 text)
    (high : Word) (len : Int) : (hexRecord high len).Reaches s (.next len) s := by
  obtain ⟨hdigits, htype⟩ := hexType_reaches htext hbuf
  apply hdigits.bind
  apply htype.bind
  exact Program.reaches_pure _ s

/-- The data bytes are stored in the record buffer, and added up. -/
theorem hexData_reaches {xs : List Byte} (hread : ∀ i b, xs[i]? = some b →
    ∀ t : LoadState, t.buf = s.buf → (hexAt (9 + i + i)).Reaches t b.toNat t) (n i : Nat)
    (hn : i + n = xs.length) (sum : Byte) {t : LoadState} (hbuf : t.buf = s.buf) :
    (hexData n i sum).Reaches t (sum + (xs.drop i).sum)
      { t with data := store t.data i (xs.drop i) } := by
  induction n generalizing i sum t with
  | zero =>
    have hzero : ∀ b : Byte, b + 0 = b := BitVec.add_zero
    rw [List.drop_eq_nil_of_le (by omega), List.sum_nil, hzero, store_nil]
    exact Program.reaches_pure sum t
  | succ n ih =>
    have hi : i < xs.length := by omega
    have hb := List.getElem?_eq_getElem hi
    rw [List.drop_eq_getElem_cons hi, store_cons, List.sum_cons, ← BitVec.add_assoc]
    apply (hread i _ hb t hbuf).bind
    rw [ofInt_byte]
    have hwrite : (writeData i xs[i]).Reaches t () { t with data := store t.data i [xs[i]] } :=
      Program.reaches_request rfl
    exact hwrite.bind (ih (i + 1) (by omega) (sum + xs[i]) hbuf)

/-- A text without a byte that is 0 is not cut off. -/
theorem le_strlen {n : Nat} (h : ∀ i < n, s.buf i ≠ 0) (hn : n ≤ s.stored) : n ≤ strlen s := by
  unfold strlen
  cases hfind : (List.range s.stored).find? fun i => s.buf i = 0 with
  | none => exact hn
  | some i =>
    have hzero := List.find?_some hfind
    by_contra hlt
    exact h i (Nat.lt_of_not_le hlt) (of_decide_eq_true hzero)

/-- The bytes of the address, below the high half. -/
theorem hexAddress (high : Nat) {addr : Nat} (haddr : addr < 0x10000) :
    (BitVec.ofNat 32 high <<< 16) |||
        BitVec.ofInt 32 ((BitVec.ofNat 8 (addr / 256) : Byte).toNat : Int) <<< 8 |||
        BitVec.ofInt 32 ((BitVec.ofNat 8 addr : Byte).toNat : Int) =
      BitVec.ofNat 32 (high * 0x10000 + addr) := by
  have hshift : BitVec.ofNat 32 high <<< 16 = (BitVec.ofNat 32 high <<< 8) <<< 8 :=
    BitVec.shiftLeft_add _ 8 8
  rw [hshift, ← BitVec.shiftLeft_or_distrib, shift_or_toNat, shift_or_toNat]
  apply BitVec.eq_of_toNat_eq
  simp only [BitVec.toNat_ofNat]
  omega

/-- An address that the format allows is even. -/
theorem hexAddress_aligned (high : Nat) {addr : Nat} (haddr : addr % 4 = 0) :
    BitVec.ofNat 32 (high * 0x10000 + addr) &&& 3 = 0 := by
  apply BitVec.eq_of_toNat_eq
  have hthree : (3 : Word).toNat = 2 ^ 2 - 1 := rfl
  have hzero : (0 : Word).toNat = 0 := rfl
  rw [BitVec.toNat_and, hthree, hzero, Nat.and_two_pow_sub_one_eq_mod, BitVec.toNat_ofNat]
  omega

/-- What `read_hex` adds up is the sum of the record. -/
theorem hexSum (high addr : Nat) (type : Byte) (data : List Byte) :
    data.sum + type + BitVec.ofNat 8 data.length +
        (BitVec.ofNat 32 (high * 0x10000 + addr)).setWidth 8 +
        (BitVec.ofNat 32 (high * 0x10000 + addr) >>> 8).setWidth 8 =
      (BitVec.ofNat 8 data.length :: (bytesBE 2 addr ++ type :: data)).sum := by
  have hlow : (BitVec.ofNat 32 (high * 0x10000 + addr)).setWidth 8 = BitVec.ofNat 8 addr := by
    apply BitVec.eq_of_toNat_eq
    simp only [BitVec.toNat_setWidth, BitVec.toNat_ofNat]
    omega
  have hmiddle : (BitVec.ofNat 32 (high * 0x10000 + addr) >>> 8).setWidth 8 =
      BitVec.ofNat 8 (addr / 256) := by
    apply BitVec.eq_of_toNat_eq
    simp only [BitVec.toNat_setWidth, BitVec.toNat_ushiftRight, BitVec.toNat_ofNat,
      Nat.shiftRight_eq_div_pow]
    omega
  have hbytes : bytesBE 2 addr = [BitVec.ofNat 8 (addr / 256), BitVec.ofNat 8 addr] := by
    have hone : addr / 256 ^ 0 = addr := Nat.div_one addr
    rw [bytesBE, bytesBE, bytesBE, Nat.pow_one, hone]
  rw [hlow, hmiddle, hbytes]
  simp only [List.cons_append, List.nil_append, List.sum_cons]
  ac_rfl

/-- The checksum of a record. -/
def hexCheck (addr : Nat) (type : Byte) (data : List Byte) : Byte :=
  -(BitVec.ofNat 8 data.length :: (bytesBE 2 addr ++ type :: data)).sum

/-- The bytes of a record with any checksum. -/
def hexBytesWith (addr : Nat) (type : Byte) (data : List Byte) (check : Byte) : List Byte :=
  BitVec.ofNat 8 data.length :: (bytesBE 2 addr ++ type :: data) ++ [check]

/-- Where the data of a record stand. -/
theorem hexBytes_data {data : List Byte} {i : Nat} {b : Byte} (addr : Nat) (type check : Byte)
    (hb : data[i]? = some b) : (hexBytesWith addr type data check)[4 + i]? = some b := by
  have hi : i < data.length := (List.getElem?_eq_some_iff.mp hb).1
  have hindex : 4 + i = i + 3 + 1 := by omega
  have hrest : i + 3 - 2 = i + 1 := by omega
  rw [hexBytesWith, hindex, List.cons_append, List.getElem?_cons_succ, List.getElem?_append_left,
    List.getElem?_append_right, length_bytesBE, hrest, List.getElem?_cons_succ]
  · exact hb
  · rw [length_bytesBE]
    omega
  · rw [List.length_append, length_bytesBE, List.length_cons]
    omega

/-- Where the checksum of a record stands. -/
theorem hexBytes_check (addr : Nat) (type check : Byte) (data : List Byte) :
    (hexBytesWith addr type data check)[4 + data.length]? = some check := by
  have hindex : 4 + data.length =
      (BitVec.ofNat 8 data.length :: (bytesBE 2 addr ++ type :: data)).length := by
    rw [List.length_cons, List.length_append, length_bytesBE, List.length_cons]
    omega
  rw [hexBytesWith, hindex, List.getElem?_concat_length]

/-- What a record with the right checksum asks for. -/
def hexPlaced (recordType : Byte) (bytes : Int) (address : Word) (outputLen : Int) : Load HexStep :=
  if recordType = 4 then
    if bytes ≠ 2 then
      refuse "%s: invalid hex linear address record length\n" []
    else do
      let first ← readData 0
      let second ← readData 1
      return .high ((first.setWidth 32 <<< 8) ||| second.setWidth 32)
  else if recordType ≠ 0 then
    refuse "%s: unknown hex record type: %d\n" [recordType.setWidth 32]
  else do
    return .next (← placeRecord address bytes readData outputLen)

/-- The rest of a record behind its address. -/
def hexChecked (recordType : Byte) (bytes : Int) (address : Word) (outputLen : Int) : Load HexStep := do
  let sum ← hexData bytes.toNat 0 0
  let sum := sum + recordType + BitVec.ofInt 8 bytes + address.setWidth 8 +
    (address >>> 8).setWidth 8
  let check ← hexAt (9 + bytes.toNat + bytes.toNat)
  if sum ≠ BitVec.ofInt 8 (-check) then
    refuse "%s: bad hex checksum\n" []
  else
    hexPlaced recordType bytes address outputLen

/-- The digits before the data decide about the length and the address. -/
theorem hexRecord_head (high : Nat) {addr : Nat} {type : Byte} {data text : List Byte}
    (haddr : addr < 0x10000) (hcount : data.length < 256) (htype : type ≠ 1 ∧ type ≠ 5)
    (htext : HexText ((hexBytes addr type data).take 4) text) (hbuf : Holds s.buf 1 text) (len : Int) :
    (hexRecord (BitVec.ofNat 32 high) len).Continues s
      (if (data.length : Int) % 2 ≠ 0 then
        refuse "%s: odd length\n" []
      else if (strlen s : Int) < data.length * 2 + 11 then
        refuse "%s: too short hex line\n" []
      else if BitVec.ofNat 32 (high * 0x10000 + addr) &&& 3 ≠ 0 then
        refuse "%s: odd address\n" []
      else hexChecked type data.length (BitVec.ofNat 32 (high * 0x10000 + addr)) len) s := by
  obtain ⟨hdigits, hreadType⟩ := hexType_reaches htext hbuf
  have hread : (hexAt 1).Reaches s data.length s := by
    have hread := htext.hexAt_reaches hbuf (k := 0) rfl
    rwa [BitVec.toNat_ofNat, Nat.mod_eq_of_lt (by omega)] at hread
  have hmiddle := htext.hexAt_reaches hbuf (k := 1) rfl
  have hlow := htext.hexAt_reaches hbuf (k := 2) rfl
  rw [Nat.pow_one] at hmiddle
  rw [Nat.pow_zero, Nat.div_one] at hlow
  have hone : BitVec.ofInt 8 (type.toNat : Int) = type := ofInt_byte type
  unfold hexRecord
  apply hdigits.continues.trans
  rw [if_pos rfl]
  apply hreadType.continues.trans
  simp only [hone]
  rw [if_neg htype.1, if_neg htype.2]
  apply hread.continues.trans
  split
  · exact Program.Continues.refl _ _
  · apply (Program.reaches_read s).continues.trans
    split
    · exact Program.Continues.refl _ _
    · apply hmiddle.continues.trans
      apply hlow.continues.trans
      simp only [hexAddress high haddr]
      exact Program.Continues.refl _ _

/-- The data of a record are put into the record buffer, and its checksum is compared. -/
theorem hexChecked_continues (high : Nat) {addr : Nat} {type check : Byte} {data text : List Byte}
    (htext : HexText (hexBytesWith addr type data check) text)
    (hbuf : Holds s.buf 1 text) (len : Int) :
    (hexChecked type data.length (BitVec.ofNat 32 (high * 0x10000 + addr)) len).Continues s
      (if check ≠ hexCheck addr type data then
        refuse "%s: bad hex checksum\n" []
      else hexPlaced type data.length (BitVec.ofNat 32 (high * 0x10000 + addr)) len)
      { s with data := store s.data 0 data } := by
  have hbytesRead : ∀ i b, data[i]? = some b → ∀ t : LoadState, t.buf = s.buf →
      (hexAt (9 + i + i)).Reaches t b.toNat t := by
    intro i b hb t htbuf
    have hread := htext.hexAt_reaches (s := t) (by rwa [htbuf]) (hexBytes_data addr type check hb)
    have hpos : 1 + 2 * (4 + i) = 9 + i + i := by omega
    rwa [hpos] at hread
  have hdata := hexData_reaches hbytesRead data.length 0 (Nat.zero_add _) 0 rfl
  rw [List.drop_zero] at hdata
  have hread := htext.hexAt_reaches (s := { s with data := store s.data 0 data }) hbuf
    (hexBytes_check addr type check data)
  have hpos : 1 + 2 * (4 + data.length) = 9 + data.length + data.length := by omega
  rw [hpos] at hread
  have hzero : ∀ b : Byte, 0 + b = b := BitVec.zero_add
  have hsum : (data.sum + type + BitVec.ofInt 8 (data.length : Int) +
      (BitVec.ofNat 32 (high * 0x10000 + addr)).setWidth 8 +
      (BitVec.ofNat 32 (high * 0x10000 + addr) >>> 8).setWidth 8 ≠
        BitVec.ofInt 8 (-(check.toNat : Int))) ↔ check ≠ hexCheck addr type data := by
    rw [BitVec.ofInt_natCast, hexSum high addr type data, BitVec.ofInt_neg, ofInt_byte, hexCheck,
      ne_eq, ne_eq, not_iff_not, eq_comm, BitVec.neg_eq_iff_eq_neg]
  unfold hexChecked
  apply hdata.continues.trans
  apply hread.continues.trans
  rw [hzero]
  simp only [hsum]
  exact Program.Continues.refl _ _

/-- A record of an even length at an even address passes the checks, and its data are in
the record buffer. -/
theorem hexRecord_continues (high : Nat) {addr : Nat} {type : Byte} {data text : List Byte}
    (haddr : addr < 0x10000 ∧ addr % 4 = 0) (hlen : data.length ≤ 16)
    (heven : data.length % 2 = 0) (htype : type ≠ 1 ∧ type ≠ 5)
    (htext : HexText (hexBytes addr type data) text) (hbuf : Holds s.buf 1 text)
    (hfirst : s.buf 0 ≠ 0) (hstored : text.length < s.stored) (len : Int) :
    (hexRecord (BitVec.ofNat 32 high) len).Continues s
      (hexPlaced type data.length (BitVec.ofNat 32 (high * 0x10000 + addr)) len)
      { s with data := store s.data 0 data } := by
  have htextLen := htext.length_eq
  have hbytes : (hexBytes addr type data).length = data.length + 5 := by
    rw [hexBytes, List.length_append, List.length_cons, List.length_append, length_bytesBE,
      List.length_cons, List.length_singleton]
    omega
  have hstrlen : data.length * 2 + 11 ≤ strlen s := by
    apply le_strlen
    · intro i hi
      cases i with
      | zero => exact hfirst
      | succ i =>
        have hc := List.getElem?_eq_getElem (show i < text.length by omega)
        obtain ⟨n, hn⟩ := htext.forall_mem _ (List.mem_of_getElem? hc)
        rw [Nat.add_comm, hbuf i _ hc]
        exact hn.ne_zero
    · omega
  have hhead := hexRecord_head high haddr.1 (by omega) htype (htext.take 4) (hbuf.take 8) len
  rw [if_neg (by omega), if_neg (by omega), if_neg (not_not.mpr (hexAddress_aligned high haddr.2))]
    at hhead
  have hchecked := hexChecked_continues high htext hbuf len
  rw [if_neg (fun h => h rfl)] at hchecked
  exact hhead.trans hchecked

/-- Reading the record buffer keeps the base. -/
theorem readData_reaches (i : Nat) : (readData i).Reaches s (s.data i) s :=
  Program.reaches_request rfl

theorem keepsBase_readData (i : Nat) : KeepsBase (readData i) := by
  intro s a s' h
  rw [(h.unique (readData_reaches i)).2]

/-- A list that is stored in the record buffer is read from it. -/
theorem readData_gives (s : LoadState) (data : List Byte) :
    Gives readData { s with data := store s.data 0 data } data := by
  intro i b hb t _ hdata
  have hread := readData_reaches (s := t) i
  have hstored : t.data (0 + i) = b := by
    rw [hdata]
    exact holds_store s.data data i b hb
  rw [Nat.zero_add] at hstored
  rwa [hstored] at hread

/-- A record that sets the high half. -/
theorem hexRecord_extend (high : Nat) {addr : Nat} {first second : Byte} {text : List Byte}
    (haddr : addr < 0x10000 ∧ addr % 4 = 0) (htext : HexText (hexBytes addr 4 [first, second]) text)
    (hbuf : Holds s.buf 1 text) (hfirst : s.buf 0 ≠ 0) (hstored : text.length < s.stored)
    (len : Int) : (hexRecord (BitVec.ofNat 32 high) len).Reaches s
      (.high (BitVec.ofNat 32 (first.toNat * 256 + second.toNat)))
      { s with data := store s.data 0 [first, second] } := by
  have hgives := readData_gives s [first, second]
  have hvalue : (first.setWidth 32 <<< 8) ||| second.setWidth 32 =
      BitVec.ofNat 32 (first.toNat * 256 + second.toNat) := by
    have hshift := shift_or_toNat (first.setWidth 32) second
    rw [BitVec.toNat_setWidth_of_le (by omega), BitVec.ofInt_natCast, BitVec.ofNat_toNat] at hshift
    exact hshift
  have hrecord := hexRecord_continues high haddr (by simp) (by simp)
    (show (4 : Byte) ≠ 1 ∧ (4 : Byte) ≠ 5 by decide) htext hbuf hfirst hstored len
  apply hrecord.reaches_iff.mpr
  have htwo : (([first, second] : List Byte).length : Int) = 2 := rfl
  rw [hexPlaced, if_pos rfl, if_neg (not_not.mpr htwo), ← hvalue]
  apply (hgives 0 first rfl _ rfl rfl).bind
  apply (hgives 1 second rfl _ rfl rfl).bind
  exact Program.reaches_pure _ _

/-- A line goes to its record. -/
theorem hexLines_continues {text : List Byte} (more : List Byte) (lines : List (List Byte))
    (high : Word) (len : Int) :
    (hexLines ((colon :: text ++ more) :: lines) high len).Continues s
      (hexRecord high len >>= fun
        | .stop => pure len
        | .high high => hexLines lines high len
        | .next len => hexLines lines high len)
      (s.withLine (colon :: text ++ more)) := by
  have hfirst : (s.withLine (colon :: text ++ more)).buf 0 = colon :=
    (holds_withLine s (colon :: text) more).head
  apply (fgets_reaches _).continues.trans
  apply (readChar_reaches 0).continues.trans
  rw [hfirst, if_neg (by decide), if_neg (by decide)]
  exact Program.Continues.refl _ _

/-- A line places its record where it has one, and goes on with the next lines. -/
theorem hexLine_places {high high' : Nat} {line : List Byte} {r : Option DataRecord}
    {rs : List DataRecord} {lines : List (List Byte)} (more : List Byte) (len : Int)
    (h : HexLine high line high' r) (hhigh : high < 0x10000)
    (hrest : high' < 0x10000 → ∀ len s, Places (hexLines lines (BitVec.ofNat 32 high') len) s len rs) :
    Places (hexLines ((line ++ more) :: lines) (BitVec.ofNat 32 high) len) s len
      (r.toList ++ rs) := by
  cases h with
  | @start addr data text isText =>
    have hbuf := ((holds_withLine s (colon :: text) more).tail).take 8
    have hrecord := hexRecord_start (isText.take 4) hbuf (BitVec.ofNat 32 high) len
    exact Places.of_continues ((hexLines_continues more lines _ len).trans hrecord.continues)
      (s.sameImage_withLine _) (hrest hhigh len _)
  | @extend addr first second text isAddr isText =>
    have hbuf := holds_withLine s (colon :: text) more
    have hfirst : (s.withLine (colon :: text ++ more)).buf 0 ≠ 0 := by
      rw [hbuf.head]
      decide
    have hstored := s.lt_stored_withLine text more
    have hbound := first.isLt
    have hbound' := second.isLt
    have hrecord := hexRecord_extend high isAddr isText hbuf.tail hfirst hstored len
    have hsame : SameImage s { s.withLine (colon :: text ++ more) with
        data := store (s.withLine (colon :: text ++ more)).data 0 [first, second] } := ⟨rfl, rfl⟩
    exact Places.of_continues ((hexLines_continues more lines _ len).trans hrecord.continues)
      hsame (hrest (by omega) len _)
  | @data addr data text isAddr length even isText =>
    have hbuf := holds_withLine s (colon :: text) more
    have hfirst : (s.withLine (colon :: text ++ more)).buf 0 ≠ 0 := by
      rw [hbuf.head]
      decide
    have hstored := s.lt_stored_withLine text more
    have hrecord := hexRecord_continues high isAddr length even
      (show (0 : Byte) ≠ 1 ∧ (0 : Byte) ≠ 5 by decide) isText hbuf.tail hfirst hstored len
    rw [hexPlaced, if_neg (by decide), if_neg (not_not.mpr rfl)] at hrecord
    have hgoes := (hexLines_continues more lines _ len).trans hrecord.bind
    simp only [bind_assoc, pure_bind] at hgoes
    have haddr : high * 0x10000 + addr < 2 ^ 32 := by omega
    have hsame : SameImage s { s.withLine (colon :: text ++ more) with
        data := store (s.withLine (colon :: text ++ more)).data 0 data } := ⟨rfl, rfl⟩
    exact .record haddr hgoes hsame (readData_gives _ data) keepsBase_readData
      fun len' s' => hrest hhigh len' s'

/-- A line has no newline, and it is not empty. -/
theorem HexText.newline_notMem {bytes text : List Byte} (h : HexText bytes text) :
    newline ∉ colon :: text := by
  intro hmem
  rcases List.mem_cons.mp hmem with hmem | hmem
  · exact absurd hmem (by decide)
  · obtain ⟨n, hn⟩ := h.forall_mem _ hmem
    exact hn.ne_newline rfl

theorem HexLine.newline_notMem {high high' : Nat} {line : List Byte} {r : Option DataRecord}
    (h : HexLine high line high' r) : newline ∉ line ∧ line ≠ [] := by
  cases h with
  | start isText => exact ⟨isText.newline_notMem, List.cons_ne_nil _ _⟩
  | extend _ isText => exact ⟨isText.newline_notMem, List.cons_ne_nil _ _⟩
  | data _ _ _ isText => exact ⟨isText.newline_notMem, List.cons_ne_nil _ _⟩

/-- The records of a well-formed HEX file are placed one after the other. -/
theorem readHex_places {high : Nat} {file : List Byte} {rs : List DataRecord}
    (h : TextFile HexLine HexStop high file rs) (hhigh : high < 0x10000) (s : LoadState)
    (len : Int) : Places (hexLines (fgetsLines file) (BitVec.ofNat 32 high) len) s len rs := by
  induction h generalizing s len with
  | eof => exact .done (Program.Continues.refl _ _) ⟨rfl, rfl⟩
  | @stop high text rest isStop =>
    obtain ⟨addr, data, text', isText, rfl⟩ := isStop
    have hnewline := (isText.take 4).newline_notMem
    have hlen : (colon :: text'.take 8).length ≤ 255 := by
      rw [List.length_cons, List.length_take]
      omega
    obtain ⟨more, lines, hlines⟩ :=
      fgetsLines_start (text'.drop 8 ++ rest) (List.cons_ne_nil _ _) hnewline hlen
    have hfile : colon :: text' ++ rest = colon :: text'.take 8 ++ (text'.drop 8 ++ rest) := by
      rw [List.cons_append, List.cons_append, ← List.append_assoc, List.take_append_drop]
    rw [hfile, hlines]
    have hbuf := (holds_withLine s (colon :: text'.take 8) more).tail
    have hrecord := hexRecord_stop (isText.take 4) hbuf (BitVec.ofNat 32 high) len
    exact .done ((hexLines_continues more lines _ len).trans hrecord.continues)
      (s.sameImage_withLine _)
  | @last high high' line r isLine length =>
    obtain ⟨hnewline, hne⟩ := isLine.newline_notMem
    have hdone : high' < 0x10000 →
        ∀ len s, Places (hexLines [] (BitVec.ofNat 32 high') len) s len [] := fun _ len s =>
      .done (Program.Continues.refl _ _) ⟨rfl, rfl⟩
    have hline := hexLine_places [] len isLine hhigh hdone (s := s)
    rw [List.append_nil, List.append_nil] at hline
    rw [fgetsLines_last hne hnewline (le_trans length (by decide))]
    exact hline
  | @line high high' line eol rest r rs isLine isEol length isRest ih =>
    obtain ⟨hnewline, hne⟩ := isLine.newline_notMem
    rw [fgetsLines_line rest hne hnewline isEol length]
    exact hexLine_places eol len isLine hhigh fun hhigh' len s => ih hhigh' s len

end Mcprog
