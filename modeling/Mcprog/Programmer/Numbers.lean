import Mcprog.Loader.Records
import Mcprog.Programmer.Conf

/-!
# Numbers in the configuration

`strtoul` and `sscanf` as the parameters of a board are read with them, where a `long` has 64 bits. A
number that is written with `0x` and eight digits is read as it is by each of them.
-/

namespace Mcprog

/-- The value of a digit or a letter. -/
def digitValue (c : Byte) : Nat :=
  if isdigit c then c.toNat - 0x30
  else if 0x61 ≤ tolower c ∧ tolower c ≤ 0x7A then (tolower c).toNat - 0x61 + 10
  else 36

def isDigitOf (base : Nat) (c : Byte) : Bool := digitValue c < base

/-- A number in a text: its sign, its digits, and what comes behind them. -/
structure Numeral where
  negative : Bool
  base : Nat
  digits : List Byte
  rest : List Byte

/-- The number at the start of a text. The base 0 stands for the one that the number is written in. -/
def scanNumeral (base : Nat) (text : List Byte) : Numeral :=
  let text := text.dropWhile isspace
  let body := if text.head? = some (ascii '-') ∨ text.head? = some (ascii '+') then text.tail else text
  let hex := (base = 0 ∨ base = 16) ∧ body.head? = some (ascii '0') ∧
    (body.tail.head? = some (ascii 'x') ∨ body.tail.head? = some (ascii 'X'))
  let radix := if hex then 16 else if base ≠ 0 then base else if body.head? = some (ascii '0') then 8 else 10
  let body := if hex then body.drop 2 else body
  ⟨text.head? = some (ascii '-'), radix, body.takeWhile (isDigitOf radix), body.dropWhile (isDigitOf radix)⟩

namespace Numeral

/-- What the digits stand for. -/
def magnitude (n : Numeral) : Nat := n.digits.foldl (fun m c => n.base * m + digitValue c) 0

/-- The number as an `unsigned long`. -/
def unsignedLong (n : Numeral) : BitVec 64 :=
  if n.magnitude ≥ 2 ^ 64 then BitVec.allOnes 64
  else if n.negative then -BitVec.ofNat 64 n.magnitude
  else BitVec.ofNat 64 n.magnitude

/-- The number as a `long`. -/
def long (n : Numeral) : BitVec 64 :=
  if n.negative then if n.magnitude > 2 ^ 63 then BitVec.intMin 64 else -BitVec.ofNat 64 n.magnitude
  else if n.magnitude ≥ 2 ^ 63 then BitVec.intMax 64 else BitVec.ofNat 64 n.magnitude

end Numeral

/-- `strtoul`, assigned to an `unsigned`. -/
def strtoul (text : List Byte) (base : Nat) : Word := (scanNumeral base text).unsignedLong.setWidth 32

/-- `sscanf` with `%x`. -/
def sscanfHex (text : List Byte) : Option Word :=
  if (scanNumeral 16 text).digits = [] then none else some ((scanNumeral 16 text).unsignedLong.setWidth 32)

/-- `sscanf` with `%i-%i`. -/
def sscanfRange (text : List Byte) : Option (Word × Word) :=
  let first := scanNumeral 0 text
  let last := scanNumeral 0 first.rest.tail
  if first.digits = [] ∨ first.rest.head? ≠ some (ascii '-') ∨ last.digits = [] then none
  else some (first.long.setWidth 32, last.long.setWidth 32)

def hexDigitUpper (d : Word) : Byte :=
  if d < 10 then ascii '0' + d.setWidth 8 else ascii 'A' + (d - 10).setWidth 8

/-- The digits of `%08X`. -/
def wordDigits (w : Word) : List Byte := [28, 24, 20, 16, 12, 8, 4, 0].map fun i => hexDigitUpper ((w >>> i) &&& 0xF)

/-- A word as it is written in a configuration. -/
def wordText (w : Word) : List Byte := ascii '0' :: ascii 'x' :: wordDigits w

/-- A digit is read as the number that it was written for. -/
theorem hexDigitUpper_spec (n : Fin 16) : digitValue (hexDigitUpper (BitVec.ofNat 32 n.val)) = n.val ∧
    isDigitOf 16 (hexDigitUpper (BitVec.ofNat 32 n.val)) = true ∧
    isxdigit (hexDigitUpper (BitVec.ofNat 32 n.val)) = true := by
  revert n
  decide

/-- Four bits of a word are a digit of its number. -/
theorem nibble_eq (w : Word) (i : Nat) :
    ∃ n : Fin 16, (w >>> i) &&& 0xF = BitVec.ofNat 32 n.val ∧ n.val = w.toNat / 2 ^ i % 16 := by
  refine ⟨⟨w.toNat / 2 ^ i % 16, Nat.mod_lt _ (by decide)⟩, ?_, rfl⟩
  apply BitVec.eq_of_toNat_eq
  rw [BitVec.toNat_and, BitVec.toNat_ushiftRight, Nat.shiftRight_eq_div_pow, BitVec.toNat_ofNat]
  change w.toNat / 2 ^ i &&& (2 ^ 4 - 1) = w.toNat / 2 ^ i % 16 % 2 ^ 32
  rw [Nat.and_two_pow_sub_one_eq_mod]
  omega

/-- The digits of a word are digits. -/
theorem wordDigits_digit {w : Word} {c : Byte} (h : c ∈ wordDigits w) : isDigitOf 16 c = true ∧ isxdigit c = true := by
  obtain ⟨i, -, rfl⟩ := List.mem_map.mp h
  obtain ⟨n, hn, -⟩ := nibble_eq w i
  rw [hn]
  exact (hexDigitUpper_spec n).2

/-- The digits of a word stand for it. -/
theorem foldl_wordDigits (w : Word) : (wordDigits w).foldl (fun m c => 16 * m + digitValue c) 0 = w.toNat := by
  have hdigit (i : Nat) : digitValue (hexDigitUpper ((w >>> i) &&& 0xF)) = w.toNat / 2 ^ i % 16 := by
    obtain ⟨n, hn, hval⟩ := nibble_eq w i
    rw [hn, (hexDigitUpper_spec n).1, hval]
  have hlt := w.isLt
  simp only [wordDigits, List.map_cons, List.map_nil, List.foldl_cons, List.foldl_nil, hdigit]
  omega

/-- A word is read as the number that it is, up to what is no digit. -/
theorem scanNumeral_wordText {base : Nat} (hbase : base = 0 ∨ base = 16) (w : Word) (rest : List Byte)
    (hrest : ∀ c ∈ rest.head?, isDigitOf 16 c = false) :
    scanNumeral base (wordText w ++ rest) = ⟨false, 16, wordDigits w, rest⟩ := by
  have hspace : (wordText w ++ rest).dropWhile isspace = wordText w ++ rest :=
    List.dropWhile_cons_of_neg (by decide)
  have hdigits : ∀ c ∈ wordDigits w, isDigitOf 16 c = true := fun c hc => (wordDigits_digit hc).1
  have hstop : rest.takeWhile (isDigitOf 16) = [] ∧ rest.dropWhile (isDigitOf 16) = rest := by
    cases rest with
    | nil => exact ⟨rfl, rfl⟩
    | cons c rest =>
      have hc : ¬isDigitOf 16 c = true := by rw [hrest c rfl]; decide
      exact ⟨List.takeWhile_cons_of_neg hc, List.dropWhile_cons_of_neg hc⟩
  have hhead : (wordText w ++ rest).head? = some (ascii '0') := rfl
  have hsecond : (wordText w ++ rest).tail.head? = some (ascii 'x') := rfl
  have hdrop : (wordText w ++ rest).drop 2 = wordDigits w ++ rest := rfl
  have hplain : ¬(some (ascii '0') = some (ascii '-') ∨ some (ascii '0') = some (ascii '+')) := by decide
  have hminus : decide (some (ascii '0') = some (ascii '-')) = false := by decide
  unfold scanNumeral
  dsimp only
  rw [hspace, hhead, if_neg hplain, hhead, hsecond, hdrop, if_pos ⟨hbase, rfl, .inl rfl⟩, hminus,
    if_pos ⟨hbase, rfl, .inl rfl⟩, List.takeWhile_append_of_pos hdigits, List.dropWhile_append_of_pos hdigits,
    hstop.1, hstop.2, List.append_nil]

/-- In the range of a word neither reading is cut. -/
theorem long_wordText (w : Word) (rest : List Byte) :
    (⟨false, 16, wordDigits w, rest⟩ : Numeral).long.setWidth 32 = w ∧
      (⟨false, 16, wordDigits w, rest⟩ : Numeral).unsignedLong.setWidth 32 = w := by
  have hmagnitude : (⟨false, 16, wordDigits w, rest⟩ : Numeral).magnitude = w.toNat := foldl_wordDigits w
  have hlt := w.isLt
  have hsame : (BitVec.ofNat 64 w.toNat).setWidth 32 = w := by
    apply BitVec.eq_of_toNat_eq
    rw [BitVec.toNat_setWidth, BitVec.toNat_ofNat]
    omega
  constructor
  · rw [Numeral.long, hmagnitude, if_neg Bool.false_ne_true, if_neg (by omega)]
    exact hsame
  · rw [Numeral.unsignedLong, hmagnitude, if_neg (by omega), if_neg Bool.false_ne_true]
    exact hsame

/-- There are eight of them. -/
theorem wordDigits_ne_nil (w : Word) : wordDigits w ≠ [] := List.cons_ne_nil _ _

/-- `strtoul` reads a word as it was written. -/
theorem strtoul_wordText (w : Word) : strtoul (wordText w) 0 = w := by
  have hscan := scanNumeral_wordText (.inl rfl) w [] (by simp)
  rw [List.append_nil] at hscan
  rw [strtoul, hscan]
  exact (long_wordText w []).2

/-- So does `sscanf` for one number. -/
theorem sscanfHex_wordText (w : Word) : sscanfHex (wordText w) = some w := by
  have hscan := scanNumeral_wordText (.inr rfl) w [] (by simp)
  rw [List.append_nil] at hscan
  rw [sscanfHex, hscan, if_neg (wordDigits_ne_nil w), (long_wordText w []).2]

/-- And for two numbers. -/
theorem sscanfRange_wordText (first last : Word) :
    sscanfRange (wordText first ++ ascii '-' :: wordText last) = some (first, last) := by
  have hfirst := scanNumeral_wordText (.inl rfl) first (ascii '-' :: wordText last)
    fun c hc => by obtain rfl := Option.some.inj hc; decide
  have hlast := scanNumeral_wordText (.inl rfl) last [] (by simp)
  rw [List.append_nil] at hlast
  have hboth : ¬(wordDigits first = [] ∨ some (ascii '-') ≠ some (ascii '-') ∨ wordDigits last = []) := by
    simp [wordDigits_ne_nil]
  simp only [sscanfRange, hfirst, List.tail_cons, List.head?_cons, hlast]
  rw [if_neg hboth, (long_wordText first _).1, (long_wordText last _).1]

end Mcprog
