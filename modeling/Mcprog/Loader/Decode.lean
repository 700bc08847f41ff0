import Mcprog.Loader.Format

/-!
# Decoding the numbers of a line

What the loaders read from a line that spells a list of bytes: each byte, the address and
the checksum. The buffer holds the line from its start, whatever else stands behind it.
-/

namespace Mcprog

open Interaction Cells

theorem IsDigit.nibble {n : Nat} {c : Byte} (h : IsDigit n c) : nibble c = n := by
  unfold Mcprog.nibble isdigit tolower
  rcases h with ⟨hn, hc⟩ | ⟨hlow, hhigh, hc | hc⟩
  · have hdigit : (0x30 ≤ c && c ≤ 0x39) = true := by
      simp [BitVec.le_def]
      omega
    rw [if_pos hdigit, hc]
    omega
  · have hdigit : ¬ (0x30 ≤ c && c ≤ 0x39) = true := by
      simp [BitVec.le_def]
      omega
    have hupper : (0x41 ≤ c && c ≤ 0x5A) = true := by
      simp [BitVec.le_def]
      omega
    have hsum : (c + 0x20).toNat = (c.toNat + 0x20) % 2 ^ 8 := BitVec.toNat_add c 0x20
    rw [if_neg hdigit, if_pos hupper]
    omega
  · have hdigit : ¬ (0x30 ≤ c && c ≤ 0x39) = true := by
      simp [BitVec.le_def]
      omega
    have hupper : ¬ (0x41 ≤ c && c ≤ 0x5A) = true := by
      simp [BitVec.le_def]
      omega
    rw [if_neg hdigit, if_neg hupper]
    omega

theorem IsDigit.isxdigit {n : Nat} {c : Byte} (h : IsDigit n c) : isxdigit c = true := by
  unfold Mcprog.isxdigit isdigit
  simp only [Bool.or_eq_true, Bool.and_eq_true, decide_eq_true_eq, BitVec.le_def]
  change (48 ≤ c.toNat ∧ c.toNat ≤ 57 ∨ 65 ≤ c.toNat ∧ c.toNat ≤ 70) ∨
    97 ≤ c.toNat ∧ c.toNat ≤ 102
  rcases h with ⟨hn, hc⟩ | ⟨hlow, hhigh, hc | hc⟩ <;> omega

theorem IsDigit.ne_newline {n : Nat} {c : Byte} (h : IsDigit n c) : c ≠ newline := by
  rintro rfl
  have hnewline : newline.toNat = 10 := rfl
  rcases h with ⟨hn, hc⟩ | ⟨hlow, hhigh, hc | hc⟩ <;> omega

theorem IsDigit.ne_zero {n : Nat} {c : Byte} (h : IsDigit n c) : c ≠ 0 := by
  rintro rfl
  have hzero : (0 : Byte).toNat = 0 := rfl
  rcases h with ⟨hn, hc⟩ | ⟨hlow, hhigh, hc | hc⟩ <;> omega

/-- The characters of a text are digits. -/
theorem HexText.forall_mem {bytes text : List Byte} (h : HexText bytes text) :
    ∀ c ∈ text, ∃ n, IsDigit n c := by
  induction h with
  | nil => simp
  | cons high low _ ih =>
    intro c hc
    rcases List.mem_cons.mp hc with rfl | hc
    · exact ⟨_, high⟩
    · rcases List.mem_cons.mp hc with rfl | hc
      · exact ⟨_, low⟩
      · exact ih c hc

/-- A text has two characters for each byte. -/
theorem HexText.length_eq {bytes text : List Byte} (h : HexText bytes text) :
    text.length = 2 * bytes.length := by
  induction h with
  | nil => rfl
  | cons _ _ _ ih =>
    rw [List.length_cons, List.length_cons, List.length_cons, ih]
    omega

/-- The first bytes of a text. -/
theorem HexText.take {bytes text : List Byte} (h : HexText bytes text) (n : Nat) :
    HexText (bytes.take n) (text.take (2 * n)) := by
  induction h generalizing n with
  | nil =>
    rw [List.take_nil, List.take_nil]
    exact .nil
  | cons high low _ ih =>
    cases n with
    | zero => exact .nil
    | succ n => exact .cons high low (ih n)

/-- What is read and what is left make up the file. -/
theorem fgetsLine_append (n : Nat) (file : List Byte) :
    (fgetsLine n file).1 ++ (fgetsLine n file).2 = file := by
  induction n generalizing file with
  | zero => rfl
  | succ n ih =>
    cases file with
    | nil => rfl
    | cons c file =>
      rw [fgetsLine]
      split
      · rfl
      · exact congrArg (c :: ·) (ih file)

/-- A line takes at least one character. -/
theorem fgetsLine_rest (n : Nat) (c : Byte) (file : List Byte) :
    (fgetsLine (n + 1) (c :: file)).2.length ≤ file.length := by
  rw [fgetsLine]
  split
  · rfl
  · have happend := congrArg List.length (fgetsLine_append n file)
    rw [List.length_append] at happend
    exact Nat.le.intro (Nat.add_comm _ _ ▸ happend)

/-- More fuel than there are characters changes nothing. -/
theorem splitLines_eq {fuel fuel' : Nat} {file : List Byte} (h : file.length ≤ fuel)
    (h' : file.length ≤ fuel') : splitLines fuel file = splitLines fuel' file := by
  induction fuel generalizing fuel' file with
  | zero =>
    obtain rfl : file = [] := List.eq_nil_of_length_eq_zero (Nat.le_zero.mp h)
    cases fuel' <;> rfl
  | succ fuel ih =>
    cases file with
    | nil => cases fuel' <;> rfl
    | cons c file =>
      cases fuel' with
      | zero => simp at h'
      | succ fuel' =>
        rw [List.length_cons] at h h'
        have hrest := fgetsLine_rest (bufSize - 1 - 1) c file
        rw [splitLines, splitLines]
        congr 1
        exact ih (by exact le_trans hrest (by omega)) (by exact le_trans hrest (by omega))

/-- The lines of a file that has not ended. -/
theorem fgetsLines_cons (c : Byte) (file : List Byte) : fgetsLines (c :: file) =
    (fgetsLine (bufSize - 1) (c :: file)).1 :: fgetsLines (fgetsLine (bufSize - 1) (c :: file)).2 := by
  have hrest := fgetsLine_rest (bufSize - 1 - 1) c file
  rw [fgetsLines, List.length_cons, splitLines]
  congr 1
  exact splitLines_eq hrest (le_refl _)

/-- A line that ends, and fits. -/
theorem fgetsLine_newline {n : Nat} {line : List Byte} (rest : List Byte)
    (hline : newline ∉ line) (hlen : line.length < n) :
    fgetsLine n (line ++ newline :: rest) = (line ++ [newline], rest) := by
  induction line generalizing n with
  | nil =>
    obtain ⟨n, rfl⟩ : ∃ k, n = k + 1 := ⟨n - 1, by rw [List.length_nil] at hlen; omega⟩
    rw [List.nil_append, fgetsLine, if_pos rfl]
    rfl
  | cons c line ih =>
    rw [List.length_cons] at hlen
    obtain ⟨n, rfl⟩ : ∃ k, n = k + 1 := ⟨n - 1, by omega⟩
    have hc : c ≠ newline := fun h => hline (h ▸ List.mem_cons_self)
    rw [List.cons_append, fgetsLine, if_neg hc,
      ih (fun h => hline (List.mem_cons_of_mem _ h)) (by omega)]
    rfl

/-- The last line may stand without an end. -/
theorem fgetsLine_last {n : Nat} {line : List Byte} (hline : newline ∉ line)
    (hlen : line.length ≤ n) : fgetsLine n line = (line, []) := by
  induction line generalizing n with
  | nil => cases n <;> rfl
  | cons c line ih =>
    rw [List.length_cons] at hlen
    obtain ⟨n, rfl⟩ : ∃ k, n = k + 1 := ⟨n - 1, by omega⟩
    have hc : c ≠ newline := fun h => hline (h ▸ List.mem_cons_self)
    rw [fgetsLine, if_neg hc, ih (fun h => hline (List.mem_cons_of_mem _ h)) (by omega)]

/-- The first line of a file that starts with a line and its end. -/
theorem fgetsLines_line {line eol : List Byte} (rest : List Byte) (hne : line ≠ [])
    (hline : newline ∉ line) (heol : IsEol eol) (hlen : (line ++ eol).length ≤ 255) :
    fgetsLines (line ++ (eol ++ rest)) = (line ++ eol) :: fgetsLines rest := by
  obtain ⟨c, line', rfl⟩ := List.exists_cons_of_ne_nil hne
  have hfirst : fgetsLine (bufSize - 1) (c :: line' ++ (eol ++ rest)) =
      (c :: line' ++ eol, rest) := by
    rcases heol with rfl | rfl
    · rw [List.length_append] at hlen
      exact fgetsLine_newline rest hline (Nat.lt_of_succ_le hlen)
    · have hcr : newline ∉ c :: line' ++ [0x0D] := by
        intro h
        rcases List.mem_append.mp h with h | h
        · exact hline h
        · exact absurd (List.mem_singleton.mp h) (by decide)
      have happend := fgetsLine_newline (n := 255) rest hcr (by
        rw [List.length_append] at hlen ⊢
        exact Nat.lt_of_succ_le hlen)
      rw [List.append_assoc, List.append_assoc] at happend
      exact happend
  rw [List.cons_append, fgetsLines_cons, ← List.cons_append, hfirst]

/-- The only line of a file without an end. -/
theorem fgetsLines_last {line : List Byte} (hne : line ≠ []) (hline : newline ∉ line)
    (hlen : line.length ≤ 255) : fgetsLines line = [line] := by
  obtain ⟨c, line', rfl⟩ := List.exists_cons_of_ne_nil hne
  rw [fgetsLines_cons, fgetsLine_last hline (le_trans hlen (by decide))]
  rfl

/-- The first line of a file starts with what the file starts with. -/
theorem fgetsLines_start {text : List Byte} (rest : List Byte) (hne : text ≠ [])
    (htext : newline ∉ text) (hlen : text.length ≤ 255) :
    ∃ more lines, fgetsLines (text ++ rest) = (text ++ more) :: lines := by
  have hstart : ∀ n : Nat, text.length ≤ n →
      ∃ more, (fgetsLine n (text ++ rest)).1 = text ++ more := by
    intro n hn
    clear hne hlen
    induction text generalizing n with
    | nil => exact ⟨_, rfl⟩
    | cons c text ih =>
      rw [List.length_cons] at hn
      obtain ⟨n, rfl⟩ : ∃ k, n = k + 1 := ⟨n - 1, by omega⟩
      have hc : c ≠ newline := fun h => htext (h ▸ List.mem_cons_self)
      obtain ⟨more, hmore⟩ := ih (fun h => htext (List.mem_cons_of_mem _ h)) n (by omega)
      refine ⟨more, ?_⟩
      rw [List.cons_append, fgetsLine, if_neg hc, hmore]
      rfl
  obtain ⟨c, text', rfl⟩ := List.exists_cons_of_ne_nil hne
  obtain ⟨more, hmore⟩ := hstart (bufSize - 1) hlen
  exact ⟨more, _, by rw [List.cons_append, fgetsLines_cons, ← List.cons_append, hmore]⟩

/-- The buffer holds a text from a position on. -/
def Holds (buf : Nat → Byte) (pos : Nat) (text : List Byte) : Prop :=
  ∀ i c, text[i]? = some c → buf (pos + i) = c

/-- The first character of a text in the line. -/
theorem Holds.head {buf : Nat → Byte} {pos : Nat} {c : Byte} {text : List Byte}
    (h : Holds buf pos (c :: text)) : buf pos = c := h 0 c rfl

theorem Holds.tail {buf : Nat → Byte} {pos : Nat} {c : Byte} {text : List Byte}
    (h : Holds buf pos (c :: text)) : Holds buf (pos + 1) text := by
  intro i b hi
  rw [Nat.add_right_comm]
  exact h (i + 1) b hi

/-- The front of a text. -/
theorem Holds.append_left {buf : Nat → Byte} {pos : Nat} {text text' : List Byte}
    (h : Holds buf pos (text ++ text')) : Holds buf pos text := by
  intro i c hi
  apply h i c
  rw [List.getElem?_append_left (List.getElem?_eq_some_iff.mp hi).1, hi]

/-- So many characters of a text. -/
theorem Holds.take {buf : Nat → Byte} {pos : Nat} {text : List Byte} (h : Holds buf pos text)
    (n : Nat) : Holds buf pos (text.take n) := by
  rw [← List.take_append_drop n text] at h
  exact h.append_left

/-- A line that is put into the buffer is held there, with the byte that ends it. -/
theorem holds_store (buf : Nat → Byte) (text : List Byte) : Holds (store buf 0 text) 0 text := by
  intro i c hi
  rw [store, Nat.zero_add, placed_of_le (Nat.zero_le i), Nat.sub_zero, hi]
  rfl

variable {s : LoadState}

theorem readChar_reaches (i : Nat) : (readChar i).Reaches s (s.buf i) s :=
  (Program.reaches_request rfl).bind (Program.reaches_pure (s.buf i) s)

/-- Two digits are read as their byte. -/
theorem hexAt_reaches {i : Nat} {b : Byte} (high : IsDigit (b.toNat / 16) (s.buf i))
    (low : IsDigit (b.toNat % 16) (s.buf (i + 1))) : (hexAt i).Reaches s b.toNat s := by
  have hvalue : nibble (s.buf i) * 16 + nibble (s.buf (i + 1)) = (b.toNat : Int) := by
    rw [high.nibble, low.nibble]
    omega
  rw [← hvalue]
  exact (readChar_reaches i).bind ((readChar_reaches (i + 1)).bind (Program.reaches_pure _ s))

/-- Each byte of a text is read where its digits stand. -/
theorem HexText.hexAt_reaches {bytes text : List Byte} (h : HexText bytes text) {pos : Nat}
    (hbuf : Holds s.buf pos text) {k : Nat} {b : Byte} (hb : bytes[k]? = some b) :
    (hexAt (pos + 2 * k)).Reaches s b.toNat s := by
  induction h generalizing pos k with
  | nil => simp at hb
  | cons high low rest ih =>
    cases k with
    | zero =>
      obtain rfl := Option.some.inj hb
      rw [Nat.mul_zero, Nat.add_zero]
      apply Mcprog.hexAt_reaches
      · rwa [hbuf.head]
      · rwa [hbuf.tail.head]
    | succ k =>
      have hpos : pos + 2 * (k + 1) = pos + 1 + 1 + 2 * k := by omega
      rw [hpos]
      exact ih hbuf.tail.tail hb

/-- The character of a byte that a text spells is a digit. -/
theorem HexText.isxdigit {bytes text : List Byte} (h : HexText bytes text) {pos : Nat}
    (hbuf : Holds s.buf pos text) {j : Nat} (hj : j < text.length) :
    isxdigit (s.buf (pos + j)) = true := by
  have hc := List.getElem?_eq_getElem hj
  obtain ⟨n, hn⟩ := h.forall_mem _ (List.getElem_mem hj)
  rw [hbuf j _ hc]
  exact hn.isxdigit

/-- A byte below a number that is moved up. -/
theorem shift_or_toNat (a : Word) (b : Byte) :
    ((a <<< 8) ||| BitVec.ofInt 32 b.toNat) = BitVec.ofNat 32 (a.toNat * 256 + b.toNat) := by
  have hb := b.isLt
  have ha := a.isLt
  apply BitVec.eq_of_toNat_eq
  rw [BitVec.ofInt_natCast, BitVec.toNat_or, BitVec.toNat_shiftLeft, BitVec.toNat_ofNat,
    BitVec.toNat_ofNat, Nat.shiftLeft_eq]
  have hshift : a.toNat * 2 ^ 8 % 2 ^ 32 = 2 ^ 8 * (a.toNat % 2 ^ 24) := by omega
  have hbyte : b.toNat % 2 ^ 32 = b.toNat := by omega
  rw [hshift, hbyte, ← Nat.two_pow_add_eq_or_of_lt hb]
  omega

theorem length_bytesBE (n x : Nat) : (bytesBE n x).length = n := by
  induction n with
  | zero => rfl
  | succ n ih => rw [bytesBE, List.length_cons, ih]

/-- The address that follows a number which was read before it. -/
theorem srecAddress_reaches {n i x : Nat} (address : Word) {rest text : List Byte}
    (h : HexText (bytesBE n x ++ rest) text) (hbuf : Holds s.buf i text) :
    (srecAddress n i address).Reaches s
      (BitVec.ofNat 32 (address.toNat * 256 ^ n + x % 256 ^ n)) s := by
  induction n generalizing i address text with
  | zero =>
    have hsame : BitVec.ofNat 32 (address.toNat * 256 ^ 0 + x % 256 ^ 0) = address := by
      rw [Nat.pow_zero, Nat.mul_one, Nat.mod_one, Nat.add_zero, BitVec.ofNat_toNat,
        BitVec.setWidth_eq]
    rw [hsame]
    exact Program.reaches_pure address s
  | succ n ih =>
    cases h with
    | cons high low hrest =>
      have hbyte := hexAt_reaches (s := s) (i := i) (by rwa [hbuf.head]) (by rwa [hbuf.tail.head])
      apply hbyte.bind
      have hnext := ih ((address <<< 8) ||| BitVec.ofInt 32
        ((BitVec.ofNat 8 (x / 256 ^ n) : Byte).toNat : Int)) hrest hbuf.tail.tail
      have hvalue : BitVec.ofNat 32 (address.toNat * 256 ^ (n + 1) + x % 256 ^ (n + 1)) =
          BitVec.ofNat 32 (((address <<< 8) ||| BitVec.ofInt 32
            ((BitVec.ofNat 8 (x / 256 ^ n) : Byte).toNat : Int)).toNat * 256 ^ n +
              x % 256 ^ n) := by
        apply BitVec.eq_of_toNat_eq
        rw [shift_or_toNat, BitVec.toNat_ofNat, BitVec.toNat_ofNat, BitVec.toNat_ofNat,
          BitVec.toNat_ofNat, Nat.pow_succ, Nat.mod_mul]
        have hmod := ((Nat.mod_modEq (address.toNat * 256 + x / 256 ^ n % 256)
          (2 ^ 32)).mul_right (256 ^ n)).add_right (x % 256 ^ n)
        have hsum : address.toNat * (256 ^ n * 256) +
            (x % 256 ^ n + 256 ^ n * (x / 256 ^ n % 256)) =
              (address.toNat * 256 + x / 256 ^ n % 256) * 256 ^ n + x % 256 ^ n := by
          ring
        rw [hsum]
        exact hmod.symm
      rw [hvalue]
      exact hnext

end Mcprog
