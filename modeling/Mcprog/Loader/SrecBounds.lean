import Mcprog.Loader.Bounds

/-!
# The cells that read_srec accesses

The count of an S-record is taken as it stands. Only the check of the address, which is made modulo
`2^32`, can refuse a record that does not fit its line or `memory_data`.
-/

namespace Mcprog

open Interaction Cells Program

variable {s t : LoadState} {type : Byte} {len : Int} {line : List Byte} {P : Access → Prop}

/-- An access to a character that `fgets` has stored, or inside `memory_data`. There is no record
buffer. -/
def InStored : Access → Prop
  | .readBuf i stored => i < stored
  | .writeOutput i => i < memorySize
  | .writeData _ | .readData _ => False

/-- The characters of a line before its end. -/
def textLength (line : List Byte) : Nat := (line.takeWhile fun c => c ≠ newline ∧ c ≠ 0x0D).length

/-- The count of the record in the buffer. -/
def LoadState.srecCount (s : LoadState) : Int := s.hexVal 2

/-- The address of `n` bytes from a position on. -/
def LoadState.srecAddress (s : LoadState) : Nat → Nat → Word → Word
  | 0, _, address => address
  | n + 1, i, address => s.srecAddress n (i + 2) ((address <<< 8) ||| BitVec.ofInt 32 (s.hexVal i))

/-- The record in the buffer has a count. -/
def HasCount (s : LoadState) : Prop := isxdigit (s.buf 2) = true ∧ isxdigit (s.buf 3) = true

/-- The number of data bytes of a record with an address of `n` bytes. -/
def LoadState.srecBytes (s : LoadState) (n : Nat) : Int := s.srecCount - 1 - n

/-- The count fits the line, and for a data record the address, and the data lie in `memory_data`. -/
def SrecFits (type : Byte) (line : List Byte) (s : LoadState) : Prop :=
  4 + 2 * s.srecCount ≤ textLength line ∧ ∀ n, srecAddressBytes type = some n →
    n + 1 ≤ s.srecCount ∧ InImage s.memoryBase (s.srecAddress n 4 0) (s.srecBytes n).toNat

/-- The rest of a line from its count on. -/
def srecTail (type : Byte) (len : Int) : Load Int := do
  if ¬ isxdigit (← readChar 2) then
    refuse "%s: bad record: %s\n" []
  else if ¬ isxdigit (← readChar 3) then
    refuse "%s: bad record: %s\n" []
  else
    srecRecord type len

/-- The record is read from the line and stored in `memory_data`, and it is refused if it does not
fit. -/
structure SrecBounded (type : Byte) (len : Int) (line : List Byte) (s : LoadState) : Prop where
  arrays : Confined InStored (srecTail type len) s
  refuses : HasCount s → ¬ SrecFits type line s →
    ∃ e, (srecTail type len s).result = .error e ∧ Refusal e

/-- The line has a second character, and a record with a count fits, or it is a data record of which the
address is on the line and does not pass the checks. -/
def SrecSafe (type : Byte) (line : List Byte) (s : LoadState) : Prop :=
  2 ≤ line.length ∧ (HasCount s → SrecFits type line s ∨ ∃ n, srecAddressBytes type = some n ∧
    4 + 2 * n ≤ line.length + 1 ∧ ¬ AddressPasses s.memoryBase (s.srecAddress n 4 0) (s.srecBytes n))

theorem srecAddress_reachesBy {n i : Nat} (hP : ∀ j < i + 2 * n, P (.readBuf j s.stored)) (address : Word) :
    ReachesBy P (srecAddress n i address) s (s.srecAddress n i address) s := by
  induction n generalizing i address with
  | zero => exact reachesBy_pure address s
  | succ n ih =>
    exact (hexAt_reachesBy fun j hj => hP j (by omega)).bind (ih (fun j hj => hP j (by omega)) _)

/-- A number is read from both of its characters. -/
theorem hexAt_reads {i : Nat} (h : Confined P (hexAt i) s) :
    P (.readBuf i s.stored) ∧ P (.readBuf (i + 1) s.stored) := by
  have hhigh := h.of_bind.of_bind (.readBuf i s.stored) (List.mem_singleton_self _)
  have hrest := (confined_bind_iff.mp h).2 _ _ (readChar_reaches i)
  exact ⟨hhigh, hrest.of_bind.of_bind (.readBuf (i + 1) s.stored) (List.mem_singleton_self _)⟩

/-- An address is read up to its last character. -/
theorem srecAddress_reads {n i : Nat} {address : Word} (h : Confined P (srecAddress (n + 1) i address) s) :
    P (.readBuf (i + 2 * n + 1) s.stored) := by
  induction n generalizing i address with
  | zero => exact (hexAt_reads h.of_bind).2
  | succ n ih =>
    have hrest := ih ((confined_bind_iff.mp h).2 _ _ (hexAt_value i))
    rwa [show i + 2 + 2 * n + 1 = i + 2 * (n + 1) + 1 by omega] at hrest

/-- The data bytes of a record. -/
theorem readsFrom_srecByte {n m stored : Nat} (hP : ∀ j < 4 + 2 * n + 2 * m, P (.readBuf j stored)) :
    ReadsFrom P (fun i => do return BitVec.ofInt 8 (← hexAt (4 + 2 * n + 2 * i))) stored m := by
  intro i hi t ht
  refine ⟨_, (hexAt_reachesBy fun j hj => ?_).bind (reachesBy_pure _ t)⟩
  rw [ht]
  exact hP j (by omega)

variable (type len) in
/-- A record without a count is refused. -/
theorem srecTail_uncounted (hsecond : P (.readBuf 2 s.stored))
    (hthird : isxdigit (s.buf 2) = true → P (.readBuf 3 s.stored)) (h : ¬ HasCount s) :
    RefusesBy P (srecTail type len) s := by
  refine .of_continuesBy (readChar_reachesBy hsecond).continuesBy ?_
  split
  · exact refusesBy_refuse _ _ s
  rename_i hdigit
  refine .of_continuesBy (readChar_reachesBy (hthird (not_not.mp hdigit))).continuesBy ?_
  split
  · exact refusesBy_refuse _ _ s
  rename_i hdigit'
  exact absurd ⟨not_not.mp hdigit, not_not.mp hdigit'⟩ h

variable (type len) in
/-- A count is read before the record. -/
theorem srecTail_counted (hP : ∀ j < 4, P (.readBuf j s.stored)) (h : HasCount s) :
    ContinuesBy P (srecTail type len) s (srecRecord type len) s := by
  refine (readChar_reachesBy (hP 2 (by decide))).continuesBy.trans ?_
  rw [if_neg (not_not.mpr h.1)]
  refine (readChar_reachesBy (hP 3 (by decide))).continuesBy.trans ?_
  rw [if_neg (not_not.mpr h.2)]
  exact .refl _ s

variable (len) in
/-- A record of another type has no effect. -/
theorem srecRecord_other (hP : ∀ j < 4, P (.readBuf j s.stored)) (htype : srecAddressBytes type = none) :
    ReachesBy P (srecRecord type len) s len s := by
  refine (hexAt_reachesBy hP).bind ?_
  rw [htype]
  exact reachesBy_pure len s

variable (len) in
/-- A data record is placed once its address has been read. -/
theorem srecRecord_places {n : Nat} (hP : ∀ j < 4 + 2 * n, P (.readBuf j s.stored))
    (htype : srecAddressBytes type = some n) : ContinuesBy P (srecRecord type len) s
      (placeRecord (s.srecAddress n 4 0) (s.srecBytes n)
        (fun i => do return BitVec.ofInt 8 (← hexAt (4 + 2 * n + 2 * i))) len) s := by
  have hcount : ReachesBy P (hexAt 2) s s.srecCount s := hexAt_reachesBy fun j hj => hP j (by omega)
  refine hcount.continuesBy.trans ?_
  rw [htype]
  exact (srecAddress_reachesBy hP 0).continuesBy

theorem srecAddressBytes_pos {n : Nat} (h : srecAddressBytes type = some n) : 0 < n := by
  unfold srecAddressBytes at h
  split_ifs at h <;> obtain rfl := Option.some.inj h <;> decide

/-- The address of a data record is read. -/
theorem srecRecord_reads {n : Nat} (h : Confined P (srecRecord type len) s)
    (htype : srecAddressBytes type = some n) : P (.readBuf (4 + 2 * n - 1) s.stored) := by
  have hrest := (confined_bind_iff.mp h).2 _ _ (hexAt_value 2)
  rw [htype] at hrest
  obtain ⟨n, rfl⟩ : ∃ n', n = n' + 1 := ⟨n - 1, by have hpos := srecAddressBytes_pos htype; omega⟩
  have hread := srecAddress_reads (s := s) hrest.of_bind
  rwa [show 4 + 2 * n + 1 = 4 + 2 * (n + 1) - 1 by omega] at hread

variable (len) in
/-- A record answers if its address passes the checks. -/
theorem srecRecord_answers {n : Nat} (htype : srecAddressBytes type = some n)
    (hpass : AddressPasses s.memoryBase (s.srecAddress n 4 0) (s.srecBytes n)) :
    ∃ len' s', (srecRecord type len).Reaches s len' s' := by
  have hplaces := srecRecord_places (P := fun _ => True) (s := s) len (fun _ _ => trivial) htype
  obtain ⟨next, hnext, hplace⟩ := placeRecord_continuesBy (P := fun _ => True)
    (fun i => do return BitVec.ofInt 8 (← hexAt (4 + 2 * n + 2 * i))) hpass len
  obtain ⟨t', hcopy⟩ := copyBytes_reachesBy (P := fun _ => True)
    (s.srecAddress n 4 0 - baseFor s.memoryBase (s.srecAddress n 4 0))
    (t := { s with memoryBase := baseFor s.memoryBase (s.srecAddress n 4 0) })
    (readsFrom_srecByte (n := n) fun _ _ => trivial) (fun _ _ => trivial) (Nat.zero_add _) rfl
  obtain ⟨len', hlen⟩ := hnext t'
  exact ⟨len', t', (hplaces.trans hplace).continues.reaches_iff.mpr (hcopy.bind hlen).reaches⟩

theorem textLength_le (line : List Byte) : textLength line ≤ line.length :=
  (List.takeWhile_prefix _).length_le

/-- A record that is safe is in bounds. -/
theorem SrecSafe.bounded (h : SrecSafe type line t) (hstored : t.stored = line.length + 1)
    (hend : t.buf line.length = 0) : SrecBounded type len line t := by
  obtain ⟨hsecond, hsafe⟩ := h
  have hthird : isxdigit (t.buf 2) = true → InStored (.readBuf 3 t.stored) := by
    intro hdigit
    change 3 < t.stored
    by_contra hnot
    rw [show line.length = 2 by omega] at hend
    rw [hend] at hdigit
    exact absurd hdigit (by decide)
  have htext := textLength_le line
  by_cases hcount : HasCount t
  · have hread : ∀ j < 4, InStored (.readBuf j t.stored) := fun j hj =>
      lt_of_lt_of_le hj (hthird hcount.1)
    have hcounted := srecTail_counted type len hread hcount
    rcases hsafe hcount with ⟨hline, hfits⟩ | ⟨n, htype, haddr, hpass⟩
    · refine ⟨(hcounted.confined_iff fun _ he => he).mpr ?_, fun _ hunfit => absurd ⟨hline, hfits⟩ hunfit⟩
      cases htype : srecAddressBytes type with
      | none => exact (srecRecord_other len hread htype).confined
      | some n =>
        obtain ⟨hshort, himage⟩ := hfits n htype
        have hbytes : t.srecBytes n = t.srecCount - 1 - n := rfl
        refine ((srecRecord_places len (fun j hj => ?_) htype).confined_iff fun _ he => he).mpr ?_
        · change j < t.stored
          omega
        · refine placeRecord_confined (readsFrom_srecByte fun j hj => ?_) (fun i hi => hi) (fun i hi => ?_) len
          · change j < t.stored
            omega
          · have hlast := himage.2
            omega
    · have hplaces := srecRecord_places (P := InStored) (s := t) len
        (fun j hj => show j < t.stored by omega) htype
      have hrefuses := RefusesBy.of_continuesBy (hcounted.trans hplaces) (placeRecord_refuses hpass len)
      exact ⟨hrefuses.1, fun _ _ => hrefuses.2⟩
  · have hrefuses := srecTail_uncounted (P := InStored) type len
      (show 2 < t.stored by omega) hthird hcount
    exact ⟨hrefuses.1, fun hhas => absurd hhas hcount⟩

/-- A record in bounds is safe. -/
theorem SrecBounded.safe (h : SrecBounded type len line t) (hstored : t.stored = line.length + 1) :
    SrecSafe type line t := by
  have hsecond : InStored (.readBuf 2 t.stored) :=
    h.arrays.of_bind.of_bind _ (List.mem_singleton_self _)
  have hlength : 2 < t.stored := hsecond
  refine ⟨by omega, fun hcount => ?_⟩
  by_contra hunsafe
  obtain ⟨hunfit, hother⟩ := not_or.mp hunsafe
  have hcounted := srecTail_counted (P := fun _ => True) type len (fun _ _ => trivial) hcount
  obtain ⟨e, herror, -⟩ := h.refuses hcount hunfit
  rw [hcounted.result] at herror
  cases htype : srecAddressBytes type with
  | none =>
    have hanswer := srecRecord_other (P := fun _ => True) (s := t) len (fun _ _ => trivial) htype
    rw [hanswer.reaches.result] at herror
    cases herror
  | some n =>
    by_cases hpass : AddressPasses t.memoryBase (t.srecAddress n 4 0) (t.srecBytes n)
    · obtain ⟨len', s', hanswer⟩ := srecRecord_answers len htype hpass
      rw [hanswer.result] at herror
      cases herror
    · have hread : InStored (.readBuf (4 + 2 * n - 1) t.stored) :=
        srecRecord_reads (hcounted.continues.confined h.arrays) htype
      have hlast : 4 + 2 * n - 1 < t.stored := hread
      exact hother ⟨n, htype, by omega, hpass⟩

/-- From `s` with these lines left the loader comes to a record on a line, which is in the buffer of `t`.
A record that ends the file is not looked at. -/
inductive SrecComes : List (List Byte) → Int → LoadState → List Byte → Int → LoadState → Prop
  | here {line : List Byte} {lines : List (List Byte)} {len : Int} {s : LoadState}
      (isRecord : (s.withLine line).buf 0 = letterS)
      (goesOn : ¬ ((s.withLine line).buf 1 = 0x37 ∨ (s.withLine line).buf 1 = 0x38 ∨
        (s.withLine line).buf 1 = 0x39)) :
      SrecComes (line :: lines) len s line len (s.withLine line)
  | blank {line line' : List Byte} {lines : List (List Byte)} {len len' : Int} {s t : LoadState}
      (isBlank : (s.withLine line).buf 0 = newline)
      (rest : SrecComes lines len (s.withLine line) line' len' t) :
      SrecComes (line :: lines) len s line' len' t
  | taken {line line' : List Byte} {lines : List (List Byte)} {len len₁ len' : Int} {s s' t : LoadState}
      (isRecord : (s.withLine line).buf 0 = letterS)
      (goesOn : ¬ ((s.withLine line).buf 1 = 0x37 ∨ (s.withLine line).buf 1 = 0x38 ∨
        (s.withLine line).buf 1 = 0x39))
      (isTaken : (srecTail ((s.withLine line).buf 1) len).Reaches (s.withLine line) len₁ s')
      (rest : SrecComes lines len₁ s' line' len' t) : SrecComes (line :: lines) len s line' len' t

/-- The line is in the buffer that the loader comes to. -/
theorem SrecComes.buffer {lines : List (List Byte)} {len' : Int} (h : SrecComes lines len s line len' t) :
    t.stored = line.length + 1 ∧ t.buf line.length = 0 := by
  induction h with
  | @here line lines len s isRecord goesOn =>
    have hline := holds_store s.buf (line ++ [0])
    refine ⟨rfl, ?_⟩
    have hend := hline line.length 0 (by simp)
    rwa [Nat.zero_add] at hend
  | blank isBlank rest ih => exact ih
  | taken isRecord goesOn isTaken rest ih => exact ih

theorem srecTail_bind (f : Int → Load Int) : srecTail type len >>= f = (do
    if ¬ isxdigit (← readChar 2) then
      refuse "%s: bad record: %s\n" []
    else if ¬ isxdigit (← readChar 3) then
      refuse "%s: bad record: %s\n" []
    else do
      let len ← srecRecord type len
      f len) := by
  rw [srecTail, bind_assoc]
  refine bind_congr fun c => ?_
  cases isxdigit c with
  | false => rfl
  | true =>
    change (readChar 3 >>= _) >>= f = _
    rw [bind_assoc]
    refine bind_congr fun c' => ?_
    cases isxdigit c' with
    | false => rfl
    | true => rfl

variable (s len) in
/-- A line is read into the buffer, and its first characters are looked at. -/
theorem srecLines_first (line : List Byte) (lines : List (List Byte)) (hne : line ≠ []) :
    ContinuesBy InStored (srecLines (line :: lines) len) s
      (if (s.withLine line).buf 0 = newline then srecLines lines len
      else if (s.withLine line).buf 0 ≠ letterS then
        if len = 0 then pure len else refuse "%s: bad file format\n" []
      else if (s.withLine line).buf 1 = 0x37 ∨ (s.withLine line).buf 1 = 0x38 ∨
          (s.withLine line).buf 1 = 0x39 then
        pure len
      else srecTail ((s.withLine line).buf 1) len >>= srecLines lines) (s.withLine line) := by
  have hpos := List.length_pos_iff.mpr hne
  have hstored : (s.withLine line).stored = line.length + 1 := rfl
  have hfgets : ReachesBy InStored (fgets line) s () (s.withLine line) := reachesBy_update _ s
  have hread : ∀ i < 2, ReachesBy InStored (readChar i) (s.withLine line) ((s.withLine line).buf i)
      (s.withLine line) := by
    intro i hi
    refine readChar_reachesBy ?_
    change i < (s.withLine line).stored
    omega
  refine hfgets.continuesBy.trans ((hread 0 (by decide)).continuesBy.trans ?_)
  split
  · exact .refl _ _
  split
  · exact .refl _ _
  refine (hread 1 (by decide)).continuesBy.trans ?_
  split
  · exact .refl _ _
  · rw [srecTail_bind]
    exact .refl _ _

/-- The lines are read and stored inside the arrays exactly if every record is that the loader comes
to. -/
theorem srecLines_confined_iff {lines : List (List Byte)} (hne : ∀ line ∈ lines, line ≠ []) :
    Confined InStored (srecLines lines len) s ↔ ∀ line len' t, SrecComes lines len s line len' t →
      Confined InStored (srecTail (t.buf 1) len') t := by
  induction lines generalizing len s with
  | nil =>
    refine iff_of_true (confined_pure _ s) ?_
    rintro line len' t ⟨⟩
  | cons line lines ih =>
    have hrest : ∀ line' ∈ lines, line' ≠ [] := fun line' h => hne line' (List.mem_cons_of_mem _ h)
    rw [(srecLines_first s len line lines (hne line List.mem_cons_self)).confined_iff fun _ he => he]
    by_cases hblank : (s.withLine line).buf 0 = newline
    · rw [if_pos hblank, ih hrest]
      constructor
      · intro h line' len' t hcomes
        cases hcomes with
        | here isRecord => exact absurd (hblank.symm.trans isRecord) (by decide)
        | blank _ rest => exact h _ _ _ rest
        | taken isRecord => exact absurd (hblank.symm.trans isRecord) (by decide)
      · exact fun h line' len' t hcomes => h _ _ _ (.blank hblank hcomes)
    rw [if_neg hblank]
    by_cases hletter : (s.withLine line).buf 0 = letterS
    · rw [if_neg (not_not.mpr hletter)]
      split
      · rename_i hlast
        refine iff_of_true (confined_pure _ _) fun line' len' t hcomes => ?_
        cases hcomes with
        | here _ goesOn => exact absurd hlast goesOn
        | blank isBlank => exact absurd isBlank hblank
        | taken _ goesOn => exact absurd hlast goesOn
      · rename_i hgoes
        rw [confined_bind_iff]
        constructor
        · rintro ⟨hrecord, hafter⟩ line' len' t hcomes
          cases hcomes with
          | here => exact hrecord
          | blank isBlank => exact absurd isBlank hblank
          | taken _ _ isTaken rest => exact (ih hrest).mp (hafter _ _ isTaken) _ _ _ rest
        · intro h
          refine ⟨h _ _ _ (.here hletter hgoes), fun len₁ s' htaken => ?_⟩
          exact (ih hrest).mpr fun _ _ _ hcomes => h _ _ _ (.taken hletter hgoes htaken hcomes)
    · rw [if_pos hletter]
      refine iff_of_true ?_ fun line' len' t hcomes => ?_
      · split
        · exact confined_pure _ _
        · exact confined_stop _ _
      · cases hcomes with
        | here isRecord => exact absurd isRecord hletter
        | blank isBlank => exact absurd isBlank hblank
        | taken isRecord => exact absurd isRecord hletter

/-- A record that is refused ends the reading of the file. -/
theorem SrecComes.refuses {lines : List (List Byte)} {len' : Int} (hne : ∀ line ∈ lines, line ≠ [])
    (h : SrecComes lines len s line len' t)
    (hrecord : ∃ e, (srecTail (t.buf 1) len' t).result = .error e ∧ Refusal e) :
    ∃ e, (srecLines lines len s).result = .error e ∧ Refusal e := by
  have hrecordStart : ∀ {line : List Byte} {lines : List (List Byte)} {len : Int} {s : LoadState},
      line ≠ [] → (s.withLine line).buf 0 = letterS →
      ¬ ((s.withLine line).buf 1 = 0x37 ∨ (s.withLine line).buf 1 = 0x38 ∨ (s.withLine line).buf 1 = 0x39) →
      ContinuesBy InStored (srecLines (line :: lines) len) s
        (srecTail ((s.withLine line).buf 1) len >>= srecLines lines) (s.withLine line) := by
    intro line lines len s hline hletter hgoes
    have hfirst := srecLines_first s len line lines hline
    rwa [if_neg (by rw [hletter]; decide), if_neg (not_not.mpr hletter), if_neg hgoes] at hfirst
  induction h with
  | @here line lines len s isRecord goesOn =>
    obtain ⟨e, herror, he⟩ := hrecord
    refine ⟨e, ?_, he⟩
    rw [(hrecordStart (hne line List.mem_cons_self) isRecord goesOn).result, bind_apply, herror]
  | @blank line line' lines len len' s t isBlank rest ih =>
    have hfirst := srecLines_first s len line lines (hne line List.mem_cons_self)
    rw [if_pos isBlank] at hfirst
    rw [hfirst.result]
    exact ih (fun line' h => hne line' (List.mem_cons_of_mem _ h)) hrecord
  | @taken line line' lines len len₁ len' s s' t isRecord goesOn isTaken rest ih =>
    rw [(hrecordStart (hne line List.mem_cons_self) isRecord goesOn).result, isTaken.continues.result]
    exact ih (fun line' h => hne line' (List.mem_cons_of_mem _ h)) hrecord

/-- The file is read from the characters that `fgets` has stored and placed inside `memory_data`, and a
record that does not fit is refused, and the file with it. -/
structure ReadsSrecInBounds (file : List Byte) (s : LoadState) : Prop where
  arrays : Confined InStored (readSrec file) s
  records : ∀ line len t, SrecComes (fgetsLines file) 0 s line len t → SrecBounded (t.buf 1) len line t
  refuses : ∀ line len t, SrecComes (fgetsLines file) 0 s line len t → HasCount t →
    ¬ SrecFits (t.buf 1) line t → ∃ e, (readSrec file s).result = .error e ∧ Refusal e

/-- This is so exactly if every record is safe that the loader comes to. -/
theorem readSrec_inBounds_iff (file : List Byte) (s : LoadState) : ReadsSrecInBounds file s ↔
    ∀ line len t, SrecComes (fgetsLines file) 0 s line len t → SrecSafe (t.buf 1) line t := by
  have hne : ∀ line ∈ fgetsLines file, line ≠ [] := fun _ h => fgetsLines_ne_nil h
  constructor
  · exact fun h line len t hcomes => (h.records line len t hcomes).safe hcomes.buffer.1
  · intro h
    have hbounded : ∀ line len t, SrecComes (fgetsLines file) 0 s line len t →
        SrecBounded (t.buf 1) len line t :=
      fun line len t hcomes => (h line len t hcomes).bounded hcomes.buffer.1 hcomes.buffer.2
    refine ⟨(srecLines_confined_iff hne).mpr fun line len t hcomes => (hbounded line len t hcomes).arrays,
      hbounded, fun line len t hcomes hcount hunfit => ?_⟩
    exact hcomes.refuses hne ((hbounded line len t hcomes).refuses hcount hunfit)

/-- A line with a count of 255 that ends behind the address. -/
def shortRecord : List Byte := letterS :: 0x31 :: hexDigits [0xFF, 0, 0]

/-- Its data are read from behind the line. -/
theorem shortRecord_not_inBounds : ¬ ReadsSrecInBounds shortRecord nothingLoaded := by
  intro h
  have hlines : fgetsLines shortRecord = [shortRecord] :=
    fgetsLines_last (List.cons_ne_nil _ _) (by decide) (by decide)
  have hcomes : SrecComes (fgetsLines shortRecord) 0 nothingLoaded shortRecord 0
      (nothingLoaded.withLine shortRecord) := by
    rw [hlines]
    exact .here rfl (by decide)
  obtain ⟨-, hsafe⟩ := (h.records _ _ _ hcomes).safe rfl
  rcases hsafe ⟨rfl, rfl⟩ with ⟨hline, -⟩ | ⟨n, htype, -, hpass⟩
  · exact absurd hline (by decide)
  · obtain rfl : 2 = n := Option.some.inj htype
    exact absurd hpass (by decide)

end Mcprog
