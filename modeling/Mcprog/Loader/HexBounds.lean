import Mcprog.Loader.Bounds

/-!
# The cells that read_hex accesses

A line that says how many bytes it has is compared with its own length and with `memory_data`, but not
with the buffer for the bytes of a record, and the end of a record is computed modulo `2^32`.
-/

namespace Mcprog

open Interaction Cells Program

variable {s : LoadState} {high : Word} {len : Int}

/-- The size of the record buffer. -/
def dataSize : Nat := 16

/-- An access inside its array. -/
def InArrays : Access → Prop
  | .readBuf i _ => i < bufSize
  | .writeData i | .readData i => i < dataSize
  | .writeOutput i => i < memorySize

/-- A load from the line buffer. -/
def ReadsLine : Access → Prop
  | .readBuf i _ => i < bufSize
  | .writeData _ | .readData _ | .writeOutput _ => False

/-- The type of the record in the buffer. -/
def LoadState.hexType (s : LoadState) : Byte := BitVec.ofInt 8 (s.hexVal 7)

/-- The number of its bytes. -/
def LoadState.hexCount (s : LoadState) : Int := s.hexVal 1

/-- Its address. -/
def LoadState.hexAddress (s : LoadState) (high : Word) : Word :=
  (high <<< 16) ||| BitVec.ofInt 32 (s.hexVal 3) <<< 8 ||| BitVec.ofInt 32 (s.hexVal 5)

/-- The sum of `n` bytes from one on. -/
def LoadState.dataSum (s : LoadState) : Nat → Nat → Byte → Byte
  | 0, _, sum => sum
  | n + 1, i, sum => s.dataSum n (i + 1) (sum + BitVec.ofInt 8 (s.hexVal (9 + i + i)))

/-- Its checksum is right. -/
def ChecksumRight (high : Word) (s : LoadState) : Prop :=
  s.dataSum s.hexCount.toNat 0 0 + s.hexType + BitVec.ofInt 8 s.hexCount +
      (s.hexAddress high).setWidth 8 + (s.hexAddress high >>> 8).setWidth 8 =
    BitVec.ofInt 8 (-s.hexVal (9 + s.hexCount.toNat + s.hexCount.toNat))

/-- The record has a count, an address and a type that makes use of its bytes. -/
structure HasData (s : LoadState) : Prop where
  digits : ([1, 2, 3, 4, 5, 6, 7, 8].all fun i => isxdigit (s.buf i)) = true
  type : s.hexType ≠ 1 ∧ s.hexType ≠ 5

/-- The checks before the bytes of a record are read. -/
structure TakesData (high : Word) (s : LoadState) : Prop extends HasData s where
  even : s.hexCount % 2 = 0
  line : s.hexCount * 2 + 11 ≤ strlen s
  aligned : s.hexAddress high &&& 3 = 0

theorem readsLine_hexAt {i : Nat} (hi : i + 2 ≤ bufSize) : ReachesBy ReadsLine (hexAt i) s (s.hexVal i) s :=
  hexAt_reachesBy fun _ hj => lt_of_lt_of_le hj hi

/-- The digits of the count, the address and the type. -/
theorem readsLine_digits : ReachesBy ReadsLine (allDigits [1, 2, 3, 4, 5, 6, 7, 8]) s
    ([1, 2, 3, 4, 5, 6, 7, 8].all fun i => isxdigit (s.buf i)) s := by
  apply allDigits_reachesBy
  intro i hi
  have hle : i ≤ 8 := by
    fin_cases hi <;> decide
  exact lt_of_le_of_lt hle (by decide)

/-- A record without digits is refused. -/
theorem hexRecord_undigits (h : ([1, 2, 3, 4, 5, 6, 7, 8].all fun i => isxdigit (s.buf i)) ≠ true) :
    RefusesBy ReadsLine (hexRecord high len) s := by
  refine .of_continuesBy readsLine_digits.continuesBy ?_
  rw [if_neg h]
  exact refusesBy_refuse _ _ s

variable (high len) in
/-- A record whose bytes are not asked for. -/
theorem hexRecord_skips (h : ([1, 2, 3, 4, 5, 6, 7, 8].all fun i => isxdigit (s.buf i)) = true)
    (htype : s.hexType = 1 ∨ s.hexType = 5) :
    ∃ step, ReachesBy ReadsLine (hexRecord high len) s step s := by
  by_cases hone : s.hexType = 1
  · refine ⟨.stop, readsLine_digits.bind ?_⟩
    rw [if_pos h]
    refine (readsLine_hexAt (by decide)).bind ?_
    change ReachesBy ReadsLine (if s.hexType = 1 then _ else _) s _ s
    rw [if_pos hone]
    exact reachesBy_pure _ s
  · refine ⟨.next len, readsLine_digits.bind ?_⟩
    rw [if_pos h]
    refine (readsLine_hexAt (by decide)).bind ?_
    change ReachesBy ReadsLine (if s.hexType = 1 then _ else if s.hexType = 5 then _ else _) s _ s
    rw [if_neg hone, if_pos (htype.resolve_left hone)]
    exact reachesBy_pure _ s

variable (high len) in
/-- The other ones are checked before their bytes are read. -/
theorem hexRecord_checks (h : HasData s) : ContinuesBy ReadsLine (hexRecord high len) s
    (if s.hexCount % 2 ≠ 0 then
      refuse "%s: odd length\n" []
    else if (strlen s : Int) < s.hexCount * 2 + 11 then
      refuse "%s: too short hex line\n" []
    else if s.hexAddress high &&& 3 ≠ 0 then
      refuse "%s: odd address\n" []
    else hexChecked s.hexType s.hexCount (s.hexAddress high) len) s := by
  refine readsLine_digits.continuesBy.trans ?_
  rw [if_pos h.digits]
  refine (readsLine_hexAt (by decide)).continuesBy.trans ?_
  change ContinuesBy ReadsLine (if s.hexType = 1 then _ else if s.hexType = 5 then _ else _) s _ s
  rw [if_neg h.type.1, if_neg h.type.2]
  refine (readsLine_hexAt (by decide)).continuesBy.trans ?_
  change ContinuesBy ReadsLine (if s.hexCount % 2 ≠ 0 then _ else _) s _ s
  split
  · exact .refl _ s
  · refine (reachesBy_read s).continuesBy.trans ?_
    change ContinuesBy ReadsLine (if (strlen s : Int) < s.hexCount * 2 + 11 then _ else _) s _ s
    split
    · exact .refl _ s
    · refine (readsLine_hexAt (by decide)).continuesBy.trans ?_
      exact (readsLine_hexAt (by decide)).continuesBy

/-- A record that the checks do not let through is refused before its bytes are read. -/
theorem hexRecord_refuses (h : HasData s) (htakes : ¬ TakesData high s) :
    RefusesBy ReadsLine (hexRecord high len) s := by
  refine .of_continuesBy (hexRecord_checks high len h) ?_
  split
  · exact refusesBy_refuse _ _ s
  split
  · exact refusesBy_refuse _ _ s
  split
  · exact refusesBy_refuse _ _ s
  rename_i heven hline haligned
  exact absurd ⟨h, not_not.mp heven, not_lt.mp hline, not_not.mp haligned⟩ htakes

/-- The bytes of the other ones are read. -/
theorem hexRecord_takes (h : TakesData high s) : ContinuesBy ReadsLine (hexRecord high len) s
    (hexChecked s.hexType s.hexCount (s.hexAddress high) len) s := by
  have hchecks := hexRecord_checks high len h.toHasData
  rwa [if_neg (not_not.mpr h.even), if_neg (not_lt.mpr h.line), if_neg (not_not.mpr h.aligned)] at hchecks

/-- A load from the line buffer, or a store into the record buffer. -/
def TakesBytes : Access → Prop
  | .readBuf i _ => i < bufSize
  | .writeData i => i < dataSize
  | .readData _ | .writeOutput _ => False

theorem writeData_reachesBy {P : Access → Prop} {i : Nat} (b : Byte) (hP : P (.writeData i)) :
    ReachesBy P (writeData i b) s () { s with data := store s.data i [b] } :=
  reachesBy_request rfl hP

/-- The bytes of a record are stored one by one, by induction on how many are left. -/
theorem hexData_reachesBy {P : Access → Prop} {m : Nat} (hread : ∀ j < 9 + 2 * m, P (.readBuf j s.stored))
    (hwrite : ∀ k < m, P (.writeData k)) {n i : Nat} (hn : i + n = m) (sum : Byte) {t : LoadState}
    (hbuf : t.buf = s.buf) (hstored : t.stored = s.stored) :
    ∃ d, ReachesBy P (hexData n i sum) t (s.dataSum n i sum) { t with data := d } := by
  induction n generalizing i sum t with
  | zero => exact ⟨t.data, reachesBy_pure sum t⟩
  | succ n ih =>
    have hval : ReachesBy P (hexAt (9 + i + i)) t (s.hexVal (9 + i + i)) t := by
      have hat := hexAt_reachesBy (P := P) (s := t) (i := 9 + i + i) fun j hj => by
        rw [hstored]
        exact hread j (by omega)
      rwa [LoadState.hexVal, hbuf] at hat
    obtain ⟨d, hrest⟩ := @ih (i + 1) (by omega) (sum + BitVec.ofInt 8 (s.hexVal (9 + i + i)))
      { t with data := store t.data i [BitVec.ofInt 8 (s.hexVal (9 + i + i))] } hbuf hstored
    exact ⟨d, hval.bind ((writeData_reachesBy _ (hwrite i (by omega))).bind hrest)⟩

/-- All bytes are stored in the record buffer. -/
theorem hexData_stores {P : Access → Prop} {n i : Nat} {sum : Byte}
    (h : Confined P (hexData n i sum) s) {k : Nat} (hle : i ≤ k) (hlt : k < i + n) : P (.writeData k) := by
  induction n generalizing i sum s with
  | zero => omega
  | succ n ih =>
    have hrest := (confined_bind_iff.mp h).2 _ _ (hexAt_value (s := s) (9 + i + i))
    rcases Nat.eq_or_lt_of_le hle with rfl | hless
    · exact hrest.of_bind _ (List.mem_singleton_self _)
    · have hwrite := writeData_reachesBy (P := fun _ => True) (s := s) (i := i)
        (BitVec.ofInt 8 (s.hexVal (9 + i + i))) trivial
      exact ih ((confined_bind_iff.mp hrest).2 _ _ hwrite.reaches) hless (by omega)

instance (high : Word) (s : LoadState) : Decidable (ChecksumRight high s) :=
  inferInstanceAs (Decidable (_ = _))

variable (high len) in
/-- A record that fits the record buffer is stored there, and its checksum is compared. -/
theorem hexChecked_checks (hcount : s.hexCount ≤ dataSize) :
    ∃ d, ContinuesBy TakesBytes (hexChecked s.hexType s.hexCount (s.hexAddress high) len) s
      (if ¬ ChecksumRight high s then refuse "%s: bad hex checksum\n" []
      else hexPlaced s.hexType s.hexCount (s.hexAddress high) len) { s with data := d } := by
  have hsize : dataSize = 16 := rfl
  have hbuf : bufSize = 256 := rfl
  obtain ⟨d, hdata⟩ := hexData_reachesBy (P := TakesBytes) (s := s) (m := s.hexCount.toNat) (t := s)
    (fun j hj => show j < bufSize by omega) (fun k hk => show k < dataSize by omega)
    (Nat.zero_add _) 0 rfl rfl
  have hcheck : ReachesBy TakesBytes (hexAt (9 + s.hexCount.toNat + s.hexCount.toNat))
      { s with data := d } (s.hexVal (9 + s.hexCount.toNat + s.hexCount.toNat)) { s with data := d } :=
    hexAt_reachesBy fun j hj => show j < bufSize by omega
  exact ⟨d, hdata.continuesBy.trans hcheck.continuesBy⟩

/-- The record in the buffer is read and stored inside the arrays, and one that does not fit its line,
the record buffer or `memory_data` is refused before a byte of it is stored there. -/
structure HexBounded (high : Word) (len : Int) (s : LoadState) : Prop where
  arrays : Confined InArrays (hexRecord high len) s
  buffers : HasData s → ¬ (s.hexCount * 2 + 11 ≤ strlen s ∧ s.hexCount ≤ dataSize) →
    RefusesBy (fun e => ¬ e.IsStore) (hexRecord high len) s
  image : HasData s → s.hexType = 0 → ¬ InImage s.memoryBase (s.hexAddress high) s.hexCount.toNat →
    RefusesBy (fun e => ∀ i, e ≠ .writeOutput i) (hexRecord high len) s

/-- A record whose bytes are read has no more of them than the record buffer, and the end of one that is
placed does not wrap around. -/
def HexFits (high : Word) (s : LoadState) : Prop :=
  TakesData high s → s.hexCount ≤ dataSize ∧
    (s.hexType = 0 → ChecksumRight high s → baseFor s.memoryBase (s.hexAddress high) ≤ s.hexAddress high →
      (s.hexAddress high - baseFor s.memoryBase (s.hexAddress high)).toNat + s.hexCount.toNat < 2 ^ 32)

/-- A look into the line is inside its array. -/
theorem ReadsLine.inArrays : ∀ e, ReadsLine e → InArrays e
  | .readBuf _ _, h => h

theorem ReadsLine.not_isStore : ∀ e, ReadsLine e → ¬ e.IsStore
  | .readBuf _ _, _ => fun h => h

/-- The bytes of a record are inside of both arrays. -/
theorem TakesBytes.inArrays : ∀ e, TakesBytes e → InArrays e
  | .readBuf _ _, h | .writeData _, h => h

/-- A record does not touch the image before it is complete. -/
theorem TakesBytes.ne_writeOutput : ∀ e, TakesBytes e → ∀ i, e ≠ .writeOutput i
  | .readBuf _ _, _, _ | .writeData _, _, _ => by simp

/-- To take the bytes is to look into the line as well. -/
theorem ReadsLine.takesBytes : ∀ e, ReadsLine e → TakesBytes e
  | .readBuf _ _, h => h

theorem readData_reachesBy {P : Access → Prop} {i : Nat} (hP : P (.readData i)) :
    ReachesBy P (readData i) s (s.data i) s := reachesBy_request rfl hP

/-- The bytes of the record are copied from its array. -/
theorem readsFrom_readData {P : Access → Prop} {n : Nat} (stored : Nat) (hP : ∀ i < n, P (.readData i)) :
    ReadsFrom P readData stored n :=
  fun i hi t _ => ⟨t.data i, readData_reachesBy (hP i hi)⟩

theorem nibble_nonneg {c : Byte} (h : isxdigit c = true) : 0 ≤ nibble c := by
  revert c
  decide

/-- A record does not have a negative count. -/
theorem HasData.count_nonneg (h : HasData s) : 0 ≤ s.hexCount := by
  have hdigits := List.all_eq_true.mp h.digits
  have hhigh := nibble_nonneg (hdigits 1 (by decide))
  have hlow : 0 ≤ nibble (s.buf (1 + 1)) := nibble_nonneg (hdigits 2 (by decide))
  unfold LoadState.hexCount LoadState.hexVal
  omega

variable (len) in
/-- A data record with the right checksum is placed. -/
theorem hexRecord_places (h : TakesData high s) (hcount : s.hexCount ≤ dataSize) (htype : s.hexType = 0)
    (hsum : ChecksumRight high s) : ∃ d, ContinuesBy TakesBytes (hexRecord high len) s
      (placeRecord (s.hexAddress high) s.hexCount readData len >>= fun len => pure (.next len))
      { s with data := d } := by
  obtain ⟨d, hchecks⟩ := hexChecked_checks high len hcount
  rw [if_neg (not_not.mpr hsum), htype, hexPlaced, if_neg (by decide), if_neg (by decide)] at hchecks
  refine ⟨d, ((hexRecord_takes h).mono ReadsLine.takesBytes).trans ?_⟩
  rw [htype]
  exact hchecks

/-- The bytes of a record in bounds fit the record buffer. -/
theorem hexCount_le (h : Confined InArrays (hexRecord high len) s) (htakes : TakesData high s) :
    s.hexCount ≤ dataSize := by
  by_contra hmore
  have hsize : dataSize = 16 := rfl
  have hchecked := ((hexRecord_takes htakes).confined_iff ReadsLine.inArrays).mp h
  have hstore := hexData_stores hchecked.of_bind (k := dataSize) (Nat.zero_le _) (by omega)
  exact absurd hstore (Nat.lt_irrefl dataSize)

/-- What a record with the right checksum asks for stays inside the arrays. -/
theorem hexPlaced_inArrays {address : Word} (hcount : s.hexCount ≤ dataSize)
    (hend : s.hexType = 0 → ∀ i < s.hexCount.toNat,
      AddressPasses s.memoryBase address s.hexCount →
        (address - baseFor s.memoryBase address).toNat + i < memorySize) (d : Nat → Byte) :
    Confined InArrays (hexPlaced s.hexType s.hexCount address len) { s with data := d } := by
  have hsize : dataSize = 16 := rfl
  have hread : ∀ {t : LoadState} {i : Nat}, i < dataSize → ReachesBy InArrays (readData i) t (t.data i) t :=
    fun hi => readData_reachesBy hi
  unfold hexPlaced
  split
  · split
    · exact confined_stop _ _
    · refine confined_bind_iff.mpr ⟨(hread (show 0 < dataSize by decide)).confined, fun _ _ _ => ?_⟩
      exact confined_bind_iff.mpr
        ⟨(hread (show 1 < dataSize by decide)).confined, fun _ _ _ => confined_pure _ _⟩
  split
  · exact confined_stop _ _
  rename_i htype
  refine confined_bind_iff.mpr ⟨?_, fun _ _ _ => confined_pure _ _⟩
  by_cases hpass : AddressPasses s.memoryBase address s.hexCount
  · refine placeRecord_confined (readsFrom_readData _ fun i hi => ?_) (fun i hi => hi) (fun i hi => ?_) len
    · change i < dataSize
      omega
    · exact hend (not_not.mp htype) i hi hpass
  · exact (placeRecord_refuses (s := { s with data := d }) hpass len).1

/-- A record that passes the checks of its address lies in the image where its end does not wrap
around. -/
theorem inImage_of_passes {memoryBase address : Word} {bytes : Int} (hbytes : 0 ≤ bytes)
    (hpass : AddressPasses memoryBase address bytes)
    (hend : (address - baseFor memoryBase address).toNat + bytes.toNat < 2 ^ 32) :
    InImage memoryBase address bytes.toNat := by
  refine ⟨hpass.1, ?_⟩
  rw [← placedEnd_toNat hend, Int.toNat_of_nonneg hbytes]
  exact hpass.2

/-- Records that fit are in bounds. -/
theorem HexFits.bounded (h : HexFits high s) : HexBounded high len s := by
  refine ⟨?_, fun hdata hunfit => ?_, fun hdata htype hout => ?_⟩
  · by_cases hdigits : ([1, 2, 3, 4, 5, 6, 7, 8].all fun i => isxdigit (s.buf i)) = true
    · by_cases htype : s.hexType = 1 ∨ s.hexType = 5
      · obtain ⟨step, hskip⟩ := hexRecord_skips high len hdigits htype
        exact hskip.confined.mono ReadsLine.inArrays
      have hdata : HasData s := ⟨hdigits, not_or.mp htype⟩
      by_cases htakes : TakesData high s
      · obtain ⟨hcount, hend⟩ := h htakes
        obtain ⟨d, hchecks⟩ := hexChecked_checks high len hcount
        refine ((((hexRecord_takes htakes).mono ReadsLine.takesBytes).trans hchecks).confined_iff
          TakesBytes.inArrays).mpr ?_
        split
        · exact confined_stop _ _
        · rename_i hsum
          refine hexPlaced_inArrays hcount (fun hzero i hi hpass => ?_) d
          have himage := inImage_of_passes hdata.count_nonneg hpass (hend hzero (not_not.mp hsum) hpass.1)
          have hlast := himage.2
          omega
      · exact (hexRecord_refuses hdata htakes).1.mono ReadsLine.inArrays
    · exact (hexRecord_undigits hdigits).1.mono ReadsLine.inArrays
  · have htakes : ¬ TakesData high s := fun htakes => hunfit ⟨htakes.line, (h htakes).1⟩
    exact (hexRecord_refuses hdata htakes).mono ReadsLine.not_isStore
  · by_cases htakes : TakesData high s
    · obtain ⟨hcount, hend⟩ := h htakes
      by_cases hsum : ChecksumRight high s
      · obtain ⟨d, hplaces⟩ := hexRecord_places len htakes hcount htype hsum
        refine .of_continuesBy (hplaces.mono TakesBytes.ne_writeOutput) (RefusesBy.bind ?_)
        refine placeRecord_refuses (fun hpass => hout ?_) len
        exact inImage_of_passes hdata.count_nonneg hpass (hend htype hsum hpass.1)
      · obtain ⟨d, hchecks⟩ := hexChecked_checks high len hcount
        rw [if_pos hsum] at hchecks
        exact .of_continuesBy ((((hexRecord_takes htakes).mono ReadsLine.takesBytes).trans hchecks).mono
          TakesBytes.ne_writeOutput) (refusesBy_refuse _ _ _)
    · exact (hexRecord_refuses hdata htakes).mono fun e he i heq => by
        rw [heq] at he
        exact he

/-- Records that are in bounds fit. -/
theorem HexBounded.fits (h : HexBounded high len s) : HexFits high s := by
  intro htakes
  have hcount := hexCount_le h.arrays htakes
  refine ⟨hcount, fun htype hsum hlow => ?_⟩
  by_contra hwrap
  have hsize : memorySize = 0x1000000 := rfl
  have hdata : dataSize = 16 := rfl
  have hnonneg := htakes.toHasData.count_nonneg
  have hoff := (s.hexAddress high - baseFor s.memoryBase (s.hexAddress high)).isLt
  obtain ⟨d, hplaces⟩ := hexRecord_places len htakes hcount htype hsum
  have hplaced := ((hplaces.confined_iff TakesBytes.inArrays).mp h.arrays).of_bind
  -- the end wraps around to at most the size of the record buffer
  have hpass : AddressPasses s.memoryBase (s.hexAddress high) s.hexCount := by
    refine ⟨hlow, ?_⟩
    rw [← Int.toNat_of_nonneg hnonneg, BitVec.ofInt_natCast, BitVec.toNat_add, BitVec.toNat_ofNat]
    omega
  have hfirst := placeRecord_first (s := { s with data := d }) hpass (by omega)
    (readsFrom_readData (P := fun _ => True) s.stored fun _ _ => trivial) hplaced
  have hlt : (s.hexAddress high - baseFor s.memoryBase (s.hexAddress high)).toNat < memorySize := hfirst
  omega

/-- From `s` with these lines left the loader comes to a record, which is in the buffer of `t`. -/
inductive HexComes : List (List Byte) → Word → Int → LoadState → Word → Int → LoadState → Prop
  | here {line : List Byte} {lines : List (List Byte)} {high : Word} {len : Int} {s : LoadState}
      (isRecord : (s.withLine line).buf 0 = colon) :
      HexComes (line :: lines) high len s high len (s.withLine line)
  | blank {line : List Byte} {lines : List (List Byte)} {high high' : Word} {len len' : Int}
      {s t : LoadState} (isBlank : (s.withLine line).buf 0 = newline)
      (rest : HexComes lines high len (s.withLine line) high' len' t) :
      HexComes (line :: lines) high len s high' len' t
  | extended {line : List Byte} {lines : List (List Byte)} {high high₁ high' : Word} {len len' : Int}
      {s s' t : LoadState} (isRecord : (s.withLine line).buf 0 = colon)
      (taken : (hexRecord high len).Reaches (s.withLine line) (.high high₁) s')
      (rest : HexComes lines high₁ len s' high' len' t) : HexComes (line :: lines) high len s high' len' t
  | placed {line : List Byte} {lines : List (List Byte)} {high high' : Word} {len len₁ len' : Int}
      {s s' t : LoadState} (isRecord : (s.withLine line).buf 0 = colon)
      (taken : (hexRecord high len).Reaches (s.withLine line) (.next len₁) s')
      (rest : HexComes lines high len₁ s' high' len' t) : HexComes (line :: lines) high len s high' len' t

variable (s high len) in
/-- A line is read into the buffer, and its first character is looked at. -/
theorem hexLines_first {P : Access → Prop} (line : List Byte) (lines : List (List Byte))
    (hP : P (.readBuf 0 (line.length + 1))) : ContinuesBy P (hexLines (line :: lines) high len) s
      (if (s.withLine line).buf 0 = newline then hexLines lines high len
      else if (s.withLine line).buf 0 ≠ colon then
        if len = 0 then pure len else refuse "%s: bad HEX file format\n" []
      else hexRecord high len >>= fun
        | .stop => pure len
        | .high high => hexLines lines high len
        | .next len => hexLines lines high len) (s.withLine line) := by
  have hfgets : ReachesBy P (fgets line) s () (s.withLine line) := reachesBy_update _ s
  have hfirst : ReachesBy P (readChar 0) (s.withLine line) ((s.withLine line).buf 0) (s.withLine line) :=
    readChar_reachesBy hP
  exact hfgets.continuesBy.trans hfirst.continuesBy

/-- A record is read from the line that is in the buffer. -/
theorem hexLines_record {line : List Byte} (lines : List (List Byte))
    (isRecord : (s.withLine line).buf 0 = colon) :
    ContinuesBy (fun _ => True) (hexLines (line :: lines) high len) s
      (hexRecord high len >>= fun
        | .stop => pure len
        | .high high => hexLines lines high len
        | .next len => hexLines lines high len) (s.withLine line) := by
  have hfirst := hexLines_first (P := fun _ => True) s high len line lines trivial
  rwa [if_neg (by rw [isRecord]; decide), if_neg (not_not.mpr isRecord)] at hfirst

/-- The lines are read inside the arrays exactly if every record is that the loader comes to. -/
theorem hexLines_confined_iff (lines : List (List Byte)) : Confined InArrays (hexLines lines high len) s ↔
    ∀ high' len' t, HexComes lines high len s high' len' t → Confined InArrays (hexRecord high' len') t := by
  induction lines generalizing high len s with
  | nil =>
    refine iff_of_true (confined_pure _ s) ?_
    rintro high' len' t ⟨⟩
  | cons line lines ih =>
    rw [(hexLines_first s high len line lines (show 0 < bufSize by decide)).confined_iff fun _ he => he]
    by_cases hblank : (s.withLine line).buf 0 = newline
    · rw [if_pos hblank, ih]
      constructor
      · intro h high' len' t hcomes
        cases hcomes with
        | here isRecord => exact absurd (hblank.symm.trans isRecord) (by decide)
        | blank _ rest => exact h _ _ _ rest
        | extended isRecord => exact absurd (hblank.symm.trans isRecord) (by decide)
        | placed isRecord => exact absurd (hblank.symm.trans isRecord) (by decide)
      · exact fun h high' len' t hcomes => h _ _ _ (.blank hblank hcomes)
    rw [if_neg hblank]
    by_cases hcolon : (s.withLine line).buf 0 = colon
    · rw [if_neg (not_not.mpr hcolon), confined_bind_iff]
      constructor
      · rintro ⟨hrecord, hrest⟩ high' len' t hcomes
        cases hcomes with
        | here => exact hrecord
        | blank isBlank => exact absurd isBlank hblank
        | extended _ taken rest => exact ih.mp (hrest _ _ taken) _ _ _ rest
        | placed _ taken rest => exact ih.mp (hrest _ _ taken) _ _ _ rest
      · intro h
        refine ⟨h _ _ _ (.here hcolon), fun step s' htaken => ?_⟩
        cases step with
        | stop => exact confined_pure _ _
        | high high₁ => exact ih.mpr fun _ _ _ hcomes => h _ _ _ (.extended hcolon htaken hcomes)
        | next len₁ => exact ih.mpr fun _ _ _ hcomes => h _ _ _ (.placed hcolon htaken hcomes)
    · rw [if_pos hcolon]
      refine iff_of_true ?_ fun high' len' t hcomes => ?_
      · split
        · exact confined_pure _ _
        · exact confined_stop _ _
      · cases hcomes with
        | here isRecord => exact absurd isRecord hcolon
        | blank isBlank => exact absurd isBlank hblank
        | extended isRecord => exact absurd isRecord hcolon
        | placed isRecord => exact absurd isRecord hcolon

/-- A record that is refused ends the reading of the file. -/
theorem HexComes.refuses {P : Access → Prop} {lines : List (List Byte)} {high' : Word} {len' : Int}
    {t : LoadState} (h : HexComes lines high len s high' len' t) (hrecord : RefusesBy P (hexRecord high' len') t) :
    ∃ e, (hexLines lines high len s).result = .error e ∧ Refusal e := by
  induction h with
  | here isRecord =>
    rw [(hexLines_record _ isRecord).result]
    exact hrecord.bind.2
  | @blank line lines high high' len len' s t isBlank rest ih =>
    have hfirst := hexLines_first (P := fun _ => True) s high len line lines trivial
    rw [if_pos isBlank] at hfirst
    rw [hfirst.result]
    exact ih hrecord
  | extended isRecord taken rest ih =>
    rw [(hexLines_record _ isRecord).result, taken.continues.result]
    exact ih hrecord
  | placed isRecord taken rest ih =>
    rw [(hexLines_record _ isRecord).result, taken.continues.result]
    exact ih hrecord

/-- The file is read inside the arrays, and with a record that does not fit it is refused, before a byte
of the record is stored where it does not fit. -/
structure ReadsHexInBounds (file : List Byte) (s : LoadState) : Prop where
  arrays : Confined InArrays (readHex file) s
  records : ∀ high len t, HexComes (fgetsLines file) 0 0 s high len t → HexBounded high len t
  refuses : ∀ high len t, HexComes (fgetsLines file) 0 0 s high len t → HasData t →
    (¬ (t.hexCount * 2 + 11 ≤ strlen t ∧ t.hexCount ≤ dataSize) ∨
      t.hexType = 0 ∧ ¬ InImage t.memoryBase (t.hexAddress high) t.hexCount.toNat) →
    ∃ e, (readHex file s).result = .error e ∧ Refusal e

/-- This is so exactly if every record fits that the loader comes to. -/
theorem readHex_inBounds_iff (file : List Byte) (s : LoadState) : ReadsHexInBounds file s ↔
    ∀ high len t, HexComes (fgetsLines file) 0 0 s high len t → HexFits high t := by
  constructor
  · exact fun h high len t hcomes => (h.records high len t hcomes).fits
  · intro h
    have hbounded : ∀ high len t, HexComes (fgetsLines file) 0 0 s high len t → HexBounded high len t :=
      fun high len t hcomes => (h high len t hcomes).bounded
    refine ⟨(hexLines_confined_iff _).mpr fun high len t hcomes => (hbounded high len t hcomes).arrays,
      hbounded, fun high len t hcomes hdata hunfit => ?_⟩
    have hrecord := hbounded high len t hcomes
    rcases hunfit with hunfit | ⟨htype, hout⟩
    · exact hcomes.refuses (hrecord.buffers hdata hunfit)
    · exact hcomes.refuses (hrecord.image hdata htype hout)

/-- One record of 32 bytes. -/
def longRecord : List Byte := colon :: hexDigits (hexBytes 0 0 (List.replicate 32 0))

/-- Its bytes from the seventeenth on are stored behind the record buffer. -/
theorem longRecord_not_inBounds : ¬ ReadsHexInBounds longRecord nothingLoaded := by
  intro h
  have hlines : fgetsLines longRecord = [longRecord] :=
    fgetsLines_last (List.cons_ne_nil _ _) (by decide) (by decide)
  have hcomes : HexComes (fgetsLines longRecord) 0 0 nothingLoaded 0 0 (nothingLoaded.withLine longRecord) := by
    rw [hlines]
    exact .here rfl
  have htakes : TakesData 0 (nothingLoaded.withLine longRecord) := by
    refine ⟨⟨?_, ?_⟩, ?_, ?_, ?_⟩ <;> decide
  exact absurd ((h.records _ _ _ hcomes).fits htakes).1 (by decide)

end Mcprog
