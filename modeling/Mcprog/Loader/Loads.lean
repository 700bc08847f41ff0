import Mcprog.Loader.HexPlaces

/-!
# What the loaders leave in memory_data

A well-formed file is loaded from the address of its first data record on, each byte as the
last record over it has it. The base 0 means to both loaders that the base is not known
yet, so a file that starts at the address 0 and goes on behind it is loaded from the first
record at another address.
-/

namespace Mcprog

open Interaction Cells

/-- The record gives a byte to an address. -/
def DataRecord.Covers (r : DataRecord) (a : Nat) : Prop := r.addr ≤ a ∧ a < r.last

instance (r : DataRecord) (a : Nat) : Decidable (r.Covers a) := instDecidableAnd

/-- The byte that the last record over an address gives to it. -/
def lastByte (rs : List DataRecord) (a : Nat) : Option Byte :=
  (rs.reverse.find? fun r => r.Covers a).bind fun r => r.data[a - r.addr]?

/-- The largest end of a record. -/
def endAddress (rs : List DataRecord) : Nat := (rs.map DataRecord.last).foldl max 0

/-- A loader that does not know the base finds it in the first record, answers with the
length of the image, and gives each address its byte. -/
def LoadsFile (m : Load Int) (first : DataRecord) (rs : List DataRecord) : Prop :=
  ∀ s : LoadState, s.memoryBase = 0 → ∃ len s', m.Reaches s len s' ∧
    s'.memoryBase.toNat = first.addr ∧ len = (endAddress rs : Int) - first.addr ∧
    ∀ a b, lastByte rs a = some b → s'.output (a - first.addr) = b

/-- The last record over an address, between those before it and those after it. -/
theorem lastByte_split {rs : List DataRecord} {a : Nat} {b : Byte} (h : lastByte rs a = some b) :
    ∃ before r after, rs = before ++ r :: after ∧ r.Covers a ∧ r.data[a - r.addr]? = some b ∧
      ∀ r' ∈ after, ¬ r'.Covers a := by
  obtain ⟨r, hfind, hb⟩ := Option.bind_eq_some_iff.mp h
  obtain ⟨hcover, l, l', hsplit, hnot⟩ := List.find?_eq_some_iff_append.mp hfind
  refine ⟨l'.reverse, r, l.reverse, ?_, of_decide_eq_true hcover, hb, fun r' hr' hc => ?_⟩
  · rw [← List.reverse_reverse rs, hsplit, List.reverse_append, List.reverse_cons,
      List.append_assoc, List.singleton_append]
  · have hfalse := hnot r' (List.mem_reverse.mp hr')
    rw [decide_eq_true hc] at hfalse
    exact absurd hfalse (by decide)

/-- The stores of the records give each address the byte of the last one over it. -/
theorem recordStores_lastByte {A : Nat} {rs : List DataRecord} (output : Image)
    (hlow : ∀ r ∈ rs, A ≤ r.addr) {a : Nat} {b : Byte} (h : lastByte rs a = some b) :
    storeAll output (recordStores A rs) (a - A) = b := by
  obtain ⟨before, r, after, rfl, ⟨hle, hlt⟩, hb, hnot⟩ := lastByte_split h
  have hr : A ≤ r.addr := hlow r (List.mem_append_right _ List.mem_cons_self)
  have hlast : r.last = r.addr + r.data.length := rfl
  have hcover : Cells.Covers (r.addr - A, r.data) (a - A) :=
    ⟨Nat.sub_le_sub_right hle A, by dsimp only; omega⟩
  have hafter : ∀ w ∈ recordStores A after, ¬ Cells.Covers w (a - A) := by
    intro w hw hc
    obtain ⟨r', hr', rfl⟩ := List.mem_map.mp hw
    have hr'' : A ≤ r'.addr :=
      hlow r' (List.mem_append_right _ (List.mem_cons_of_mem _ hr'))
    have hlast' : r'.last = r'.addr + r'.data.length := rfl
    have hc' : r'.addr - A ≤ a - A ∧ a - A < r'.addr - A + r'.data.length := hc
    exact hnot r' hr' ⟨by omega, by omega⟩
  have hstores : recordStores A (before ++ r :: after) =
      recordStores A before ++ (r.addr - A, r.data) :: recordStores A after := by
    rw [recordStores, List.map_append, List.map_cons]
    rfl
  have hvalue : some (storeAll output
      (recordStores A before ++ (r.addr - A, r.data) :: recordStores A after) (a - A)) =
        r.data[a - A - (r.addr - A)]? := storeAll_of_last hcover hafter
  have hindex : a - A - (r.addr - A) = a - r.addr := by omega
  rw [hindex, hb] at hvalue
  rw [hstores]
  exact Option.some.inj hvalue

/-- The length grows with the largest end. -/
theorem maxEnd_eq {A e : Nat} {rs : List DataRecord} (he : A ≤ e) (hlow : ∀ r ∈ rs, A ≤ r.last) :
    maxEnd A (e - A : Nat) rs = (((rs.map DataRecord.last).foldl max e : Nat) : Int) - A := by
  induction rs generalizing e with
  | nil =>
    rw [maxEnd, List.foldl_nil, List.map_nil, List.foldl_nil]
    omega
  | cons r rs ih =>
    have hr := hlow r List.mem_cons_self
    have hmax : max ((e - A : Nat) : Int) (r.last - A : Nat) = (max e r.last - A : Nat) := by
      omega
    rw [List.map_cons, List.foldl_cons, ← ih (le_trans he (le_max_left _ _)) fun r' hr' =>
      hlow r' (List.mem_cons_of_mem _ hr'), ← hmax]
    rfl

/-- The length that a file is loaded with. -/
theorem maxEnd_zero {A : Nat} {r : DataRecord} {rs : List DataRecord}
    (hlow : ∀ r' ∈ r :: rs, A ≤ r'.last) :
    maxEnd A 0 (r :: rs) = (endAddress (r :: rs) : Int) - A := by
  have hend : endAddress (r :: rs) = (rs.map DataRecord.last).foldl max r.last := by
    rw [endAddress, List.map_cons, List.foldl_cons, Nat.zero_max]
  have hmax : max (0 : Int) (r.last - A : Nat) = (r.last - A : Nat) := by omega
  rw [hend, ← maxEnd_eq (hlow r List.mem_cons_self) fun r' hr' =>
    hlow r' (List.mem_cons_of_mem _ hr'), ← hmax]
  rfl

/-- The records of a file are placed one after the other. -/
theorem readFormat_places {fmt : Format} {file : List Byte} {rs : List DataRecord}
    (h : WellFormed fmt file rs) (s : LoadState) : Places (readFormat fmt file) s 0 rs := by
  cases fmt with
  | srec => exact readSrec_places h s 0
  | hex => exact readHex_places h (show 0 < 0x10000 by omega) s 0

/-- The addresses of records that are placed are words. -/
theorem Places.addr_lt {m : Load Int} {s : LoadState} {len : Int} {rs : List DataRecord}
    (h : Places m s len rs) : ∀ r ∈ rs, r.addr < 2 ^ 32 := by
  induction h with
  | done => simp
  | @record m s s' len r rs byteAt next isAddr goes same gives keeps rest ih =>
    intro r' hr'
    rcases List.mem_cons.mp hr' with rfl | hr'
    · exact isAddr
    · exact ih len s r' hr'

/-- A loader that finds the base 0 has seen no other address. -/
theorem Places.addr_eq_zero {m : Load Int} {first : DataRecord} {rs : List DataRecord}
    (hplaces : ∀ s, Places m s 0 rs) (hzero : first.addr = 0) (h : LoadsFile m first rs) :
    ∀ r ∈ rs, r.addr = 0 := by
  by_contra hne
  push Not at hne
  obtain ⟨len, s', hreaches, hbase, -⟩ := h ⟨fun _ => 0, 0, fun _ => 0, fun _ => 0, 0⟩ rfl
  have hplaces := hplaces ⟨fun _ => 0, 0, fun _ => 0, fun _ => 0, 0⟩
  rw [hplaces.memoryBase hreaches, hzero] at hbase
  exact foldl_baseFor_ne_zero hplaces.addr_lt hne (BitVec.eq_of_toNat_eq hbase)

/-- A well-formed file whose records lie behind the first one, within the size of
`memory_data`, is loaded as it says exactly if it does not start at the address 0, or has no
record elsewhere. -/
theorem readFormat_loads_iff {fmt : Format} {file : List Byte} {first : DataRecord}
    {rest : List DataRecord} (h : WellFormed fmt file (first :: rest))
    (hfit : ∀ r ∈ first :: rest, first.addr ≤ r.addr ∧ r.last ≤ first.addr + memorySize) :
    LoadsFile (readFormat fmt file) first (first :: rest) ↔
      first.addr ≠ 0 ∨ ∀ r ∈ first :: rest, r.addr = 0 := by
  constructor
  · intro hloads
    by_cases hzero : first.addr = 0
    · exact .inr (Places.addr_eq_zero (readFormat_places h) hzero hloads)
    · exact .inl hzero
  · intro hcond s hs
    have hplaces := readFormat_places h s
    have hA := hplaces.addr_lt first List.mem_cons_self
    have hsteady : Steady first.addr s.memoryBase (first :: rest) := by
      refine ⟨.inr ⟨hs, fun r hr => ?_⟩, hcond⟩
      rw [Option.some.inj hr]
    obtain ⟨s', hreaches, houtput, hbase⟩ := hplaces.reaches hA hsteady hfit
    refine ⟨_, s', hreaches, ?_, maxEnd_zero fun r hr => ?_, fun a b hb => ?_⟩
    · rw [hbase, if_neg (List.cons_ne_nil _ _), BitVec.toNat_ofNat, Nat.mod_eq_of_lt hA]
    · exact le_trans (hfit r hr).1 (Nat.le_add_right _ _)
    · rw [houtput]
      exact recordStores_lastByte s.output (fun r hr => (hfit r hr).1) hb

/-- The digit of a number below 16. -/
def hexDigit (n : Nat) : Byte := BitVec.ofNat 8 (if n < 10 then 0x30 + n else 0x41 + (n - 10))

/-- The text of a list of bytes. -/
def hexDigits : List Byte → List Byte
  | [] => []
  | b :: bytes => hexDigit (b.toNat / 16) :: hexDigit (b.toNat % 16) :: hexDigits bytes

/-- An S-record file with the given records, all with addresses of 4 bytes. -/
def srecFile : List DataRecord → List Byte
  | [] => []
  | r :: rs =>
    letterS :: 0x33 :: hexDigits (srecBytes (bytesBE 4 r.addr ++ r.data)) ++ newline :: srecFile rs

theorem hexDigit_isDigit {n : Nat} (h : n < 16) : IsDigit n (hexDigit n) := by
  unfold IsDigit hexDigit
  rw [BitVec.toNat_ofNat]
  split <;> omega

theorem hexText_hexDigits (bytes : List Byte) : HexText bytes (hexDigits bytes) := by
  induction bytes with
  | nil => exact .nil
  | cons b bytes ih =>
    have hb := b.isLt
    exact .cons (hexDigit_isDigit (by omega)) (hexDigit_isDigit (by omega)) ih

/-- What is written is well formed. -/
theorem srecFile_wellFormed {rs : List DataRecord}
    (h : ∀ r ∈ rs, r.addr < 2 ^ 32 ∧ r.data.length ≤ 120) : WellFormed .srec (srecFile rs) rs := by
  induction rs with
  | nil => exact .eof ()
  | cons r rs ih =>
    obtain ⟨haddr, hlen⟩ := h r List.mem_cons_self
    have htext := hexText_hexDigits (srecBytes (bytesBE 4 r.addr ++ r.data))
    have htextLen := htext.length_eq
    have hbytes : (srecBytes (bytesBE 4 r.addr ++ r.data)).length = r.data.length + 6 := by
      rw [srecBytes, List.length_append, List.length_cons, List.length_append, length_bytesBE,
        List.length_singleton]
      omega
    have htype : ((0x33 : Byte), 4) ∈ [((0x31 : Byte), 2), (0x32, 3), (0x33, 4)] := by simp
    have hline : SrecLine () _ () (some r) := .data htype haddr htext
    exact TextFile.line hline (.inl rfl)
      (by rw [List.length_append, List.length_cons, List.length_cons, htextLen, hbytes,
        List.length_singleton]; omega)
      (ih fun r' hr' => h r' (List.mem_cons_of_mem _ hr'))

/-- A file that the condition admits. -/
theorem srecFile_loads_iff :
    LoadsFile (readFormat .srec (srecFile [⟨0x100, [1, 2]⟩, ⟨0x101, [3]⟩])) ⟨0x100, [1, 2]⟩
        [⟨0x100, [1, 2]⟩, ⟨0x101, [3]⟩] ↔
      0x100 ≠ 0 ∨ ∀ r ∈ [(⟨0x100, [1, 2]⟩ : DataRecord), ⟨0x101, [3]⟩], r.addr = 0 :=
  readFormat_loads_iff (srecFile_wellFormed (by decide)) (by decide)

/-- A file for the address 0 with a record elsewhere is not loaded as it says. -/
theorem srecFile_not_loads :
    WellFormed .srec (srecFile [⟨0, [1]⟩, ⟨4, [2]⟩]) [⟨0, [1]⟩, ⟨4, [2]⟩] ∧
      (∀ r ∈ [(⟨0, [1]⟩ : DataRecord), ⟨4, [2]⟩], 0 ≤ r.addr ∧ r.last ≤ 0 + memorySize) ∧
      ¬ LoadsFile (readFormat .srec (srecFile [⟨0, [1]⟩, ⟨4, [2]⟩])) ⟨0, [1]⟩
        [⟨0, [1]⟩, ⟨4, [2]⟩] := by
  have hfile : WellFormed .srec (srecFile [⟨0, [1]⟩, ⟨4, [2]⟩]) [⟨0, [1]⟩, ⟨4, [2]⟩] :=
    srecFile_wellFormed (by decide)
  refine ⟨hfile, by decide, fun hloads => ?_⟩
  have hall := Places.addr_eq_zero (readFormat_places hfile) rfl hloads
  exact absurd (hall ⟨4, [2]⟩ (by simp)) (by decide)

end Mcprog
