import Mcprog.Remote.Decode

/-!
# Numbers in a packet

A number is spelled with hexadecimal digits and ends with a break character, or with the text. The
decoders go over the digits until there are none left or enough of them, and look only then at what has
stopped them; what they accept is given here without that loop.
-/

namespace Mcprog

/-- The number that digits spell. -/
def hexValue (digits : List Byte) : Nat :=
  digits.foldl (fun n c => 16 * n + ((rpHexNibble c).getD 0).toNat) 0

/-- A field of a packet: digits, and at most `count` of them. -/
structure HexField (count : Nat) (text : List Byte) : Prop where
  digits : ∀ c ∈ text, (rpHexNibble c).isSome
  length_le : text.length ≤ count

/-- The break character as the decoders compare it with what stands behind the digits. NUL is the end of
the text. -/
def breakMark (breakChar : Byte) : Option Byte := if breakChar = 0 then none else some breakChar

/-- The text begins with a number: with digits, at least one and at most `count`, and right behind them
with the break character, or with nothing if that is NUL. -/
structure Begins (count : Nat) (breakChar : Byte) (text digits rest : List Byte) : Prop where
  field : HexField count digits
  ne_nil : digits ≠ []
  text_eq : text = digits ++ rest
  breaks : rest.head? = breakMark breakChar

/-- A decoder succeeds exactly on a text that begins with a number. It answers with the number and with
what is left behind the break character. -/
def ReadsNumbers {w : Nat} (decode : Option Byte → List Byte → Option (BitVec w × List Byte)) (count : Nat)
    (breakChar : Byte) (text : List Byte) : Prop :=
  ∀ val left, decode (breakMark breakChar) text = some (val, left) ↔
    ∃ digits rest, Begins count breakChar text digits rest ∧ val.toNat = hexValue digits ∧ left = rest.tail

/-- A digit stands for less than sixteen. -/
theorem rpHexNibble_toNat_lt {c nibble : Byte} (h : rpHexNibble c = some nibble) : nibble.toNat < 16 := by
  have hchars : ascii '0' = 48 ∧ ascii '9' = 57 ∧ ascii 'A' = 65 ∧ ascii 'F' = 70 ∧ ascii 'a' = 97 ∧
    ascii 'f' = 102 := by decide
  obtain ⟨h0, h9, hA, hF, ha, hf⟩ := hchars
  rw [rpHexNibble, h0, h9, hA, hF, ha, hf] at h
  split_ifs at h with hdigit hupper hlower
  · obtain rfl := Option.some.inj h
    bv_omega
  · obtain rfl := Option.some.inj h
    bv_omega
  · obtain rfl := Option.some.inj h
    bv_omega

/-- A digit that is put behind a number. -/
theorem shiftLeft_add_nibble {w : Nat} (n : Nat) {c nibble : Byte} (h : rpHexNibble c = some nibble) :
    (BitVec.ofNat w n <<< 4) + nibble.setWidth w = BitVec.ofNat w (16 * n + nibble.toNat) := by
  have hlt := rpHexNibble_toNat_lt h
  have hmask : ∀ d : Fin 16, BitVec.ofNat 8 d &&& 0xF = BitVec.ofNat 8 d := by decide
  have hnibble : BitVec.ofNat 8 nibble.toNat &&& 0xF = nibble := by
    rw [hmask ⟨nibble.toNat, hlt⟩, BitVec.ofNat_toNat, BitVec.setWidth_eq]
  rw [← shiftLeft_add_digit n hlt, hnibble]

/-- A number goes on over its digits. -/
theorem rpDecodeDigits_of_digits {w count : Nat} {digits rest : List Byte} (n : Nat)
    (h : HexField count digits) (hrest : ∀ c ∈ rest.head?, rpHexNibble c = none) :
    rpDecodeDigits count (BitVec.ofNat w n) (digits ++ rest) =
      (BitVec.ofNat w (digits.foldl (fun n c => 16 * n + ((rpHexNibble c).getD 0).toNat) n), rest) := by
  induction digits generalizing count n with
  | nil =>
    cases count with
    | zero => rfl
    | succ count =>
      cases rest with
      | nil => rfl
      | cons c rest =>
        rw [List.nil_append, rpDecodeDigits, hrest c rfl]
        rfl
  | cons c digits ih =>
    have hlen := h.length_le
    rw [List.length_cons] at hlen
    obtain ⟨count, rfl⟩ : ∃ k, count = k + 1 := ⟨count - 1, by omega⟩
    obtain ⟨nibble, hc⟩ := Option.isSome_iff_exists.mp (h.digits c List.mem_cons_self)
    have htail : HexField count digits :=
      ⟨fun c' hc' => h.digits c' (List.mem_cons_of_mem _ hc'), by omega⟩
    rw [List.cons_append, rpDecodeDigits, hc, List.foldl_cons, hc, Option.getD_some]
    dsimp only
    rw [shiftLeft_add_nibble n hc]
    exact ih _ htail

/-- The digits that a number has been read from. -/
theorem digits_of_rpDecodeDigits {w : Nat} (count n : Nat) (text : List Byte) : ∃ digits,
    HexField count digits ∧ text = digits ++ (rpDecodeDigits count (BitVec.ofNat w n) text).2 := by
  induction count generalizing n text with
  | zero => exact ⟨[], ⟨by simp, Nat.le_refl 0⟩, by rw [rpDecodeDigits, List.nil_append]⟩
  | succ count ih =>
    cases text with
    | nil => exact ⟨[], ⟨by simp, Nat.zero_le _⟩, rfl⟩
    | cons c text =>
      rw [rpDecodeDigits]
      cases hc : rpHexNibble c with
      | none => exact ⟨[], ⟨by simp, Nat.zero_le _⟩, rfl⟩
      | some nibble =>
        dsimp only
        rw [shiftLeft_add_nibble n hc]
        obtain ⟨digits, hfield, htext⟩ := ih (16 * n + nibble.toNat) text
        refine ⟨c :: digits, ⟨fun c' hc' => ?_, Nat.succ_le_succ hfield.length_le⟩, ?_⟩
        · rcases List.mem_cons.mp hc' with rfl | hmem
          · rw [hc]
            rfl
          · exact hfield.digits c' hmem
        · rw [List.cons_append, ← htext]

/-- A field is read as its number. -/
theorem rpDecodeUint_of_field {w count : Nat} {digits : List Byte} (h : HexField count digits)
    (rest : List Byte) (hrest : ∀ c ∈ rest.head?, rpHexNibble c = none) (hne : digits ++ rest ≠ []) :
    rpDecodeUint w count rest.head? (digits ++ rest) =
      some (BitVec.ofNat w (hexValue digits), rest.tail) := by
  have hdigits : rpDecodeDigits count (0 : BitVec w) (digits ++ rest) =
      (BitVec.ofNat w (hexValue digits), rest) := rpDecodeDigits_of_digits 0 h hrest
  rw [rpDecodeUint, if_neg hne, hdigits, if_pos rfl]

/-- What is read is a field. -/
theorem field_of_rpDecodeUint {w count : Nat} {breakChar : Option Byte} {text : List Byte}
    (h : (rpDecodeUint w count breakChar text).isSome) : text ≠ [] ∧ ∃ digits rest,
      HexField count digits ∧ text = digits ++ rest ∧ rest.head? = breakChar := by
  rw [rpDecodeUint] at h
  by_cases hne : text = []
  · rw [if_pos hne] at h
    exact absurd h (by simp)
  · rw [if_neg hne] at h
    obtain ⟨digits, hfield, htext⟩ : ∃ digits, HexField count digits ∧
      text = digits ++ (rpDecodeDigits count (0 : BitVec w) text).2 := digits_of_rpDecodeDigits count 0 text
    refine ⟨hne, digits, _, hfield, htext, ?_⟩
    by_contra hbreak
    rw [if_neg hbreak] at h
    exact absurd h (by simp)

/-- A field that is the whole text. -/
theorem rpDecodeUint_field {w count : Nat} {text : List Byte} (h : HexField count text) (hne : text ≠ []) :
    rpDecodeUint w count none text = some (BitVec.ofNat w (hexValue text), []) := by
  have hread := rpDecodeUint_of_field (w := w) h [] (by simp) (by rwa [List.append_nil])
  rwa [List.append_nil] at hread

/-- A whole text that is read is a field. -/
theorem field_of_whole {w count : Nat} {text : List Byte}
    (h : (rpDecodeUint w count none text).isSome) : text ≠ [] ∧ HexField count text := by
  obtain ⟨hne, digits, rest, hfield, htext, hrest⟩ := field_of_rpDecodeUint h
  rw [List.head?_eq_none_iff.mp hrest, List.append_nil] at htext
  rw [htext]
  exact ⟨htext ▸ hne, hfield⟩

/-- Digits spell a number that has no more places than they are. -/
theorem hexValue_lt (digits : List Byte) : hexValue digits < 16 ^ digits.length := by
  have hfrom : ∀ (digits : List Byte) (n : Nat),
      digits.foldl (fun n c => 16 * n + ((rpHexNibble c).getD 0).toNat) n < (n + 1) * 16 ^ digits.length := by
    intro digits
    induction digits with
    | nil => exact fun n => by simp
    | cons c digits ih =>
      intro n
      have hlt : ((rpHexNibble c).getD 0).toNat < 16 := by
        cases hc : rpHexNibble c with
        | none => exact Nat.zero_lt_succ 15
        | some nibble => exact rpHexNibble_toNat_lt hc
      have hplace : (n + 1) * 16 ^ (c :: digits).length = (16 * n + 16) * 16 ^ digits.length := by
        rw [List.length_cons]
        ring
      rw [List.foldl_cons, hplace]
      exact (ih _).trans_le (Nat.mul_le_mul_right _ (by omega))
  have h := hfrom digits 0
  rwa [Nat.zero_add, Nat.one_mul] at h

/-- A field has its number within its width. -/
theorem HexField.toNat_ofNat {count : Nat} {digits : List Byte} (h : HexField count digits) :
    (BitVec.ofNat (4 * count) (hexValue digits)).toNat = hexValue digits := by
  rw [BitVec.toNat_ofNat, pow_mul]
  exact Nat.mod_eq_of_lt ((hexValue_lt digits).trans_le (Nat.pow_le_pow_right (by decide) h.length_le))

/-- What the decoders accept, before a mark that is no digit: a field in front of it, which may be empty
where the text is not. -/
theorem rpDecodeUint_eq_some_iff {w count : Nat} {mark : Option Byte} (hmark : ∀ c ∈ mark, rpHexNibble c = none)
    {text left : List Byte} {val : BitVec w} : rpDecodeUint w count mark text = some (val, left) ↔
      text ≠ [] ∧ ∃ digits rest, HexField count digits ∧ text = digits ++ rest ∧ rest.head? = mark ∧
        val = BitVec.ofNat w (hexValue digits) ∧ left = rest.tail := by
  constructor
  · intro h
    have hsome : (rpDecodeUint w count mark text).isSome := by
      rw [h]
      rfl
    obtain ⟨hne, digits, rest, hfield, rfl, rfl⟩ := field_of_rpDecodeUint hsome
    rw [rpDecodeUint_of_field hfield rest hmark hne] at h
    obtain ⟨hval, hleft⟩ := Prod.mk.inj (Option.some.inj h)
    exact ⟨hne, digits, rest, hfield, rfl, rfl, hval.symm, hleft.symm⟩
  · rintro ⟨hne, digits, rest, hfield, rfl, rfl, rfl, rfl⟩
    exact rpDecodeUint_of_field hfield rest hmark hne

/-- A break character that is no digit. -/
theorem breakMark_notDigit {c : Byte} (hc : rpHexNibble c = none) : ∀ c' ∈ breakMark c, rpHexNibble c' = none := by
  intro c' hc'
  unfold breakMark at hc'
  split at hc'
  · exact absurd hc' (by simp)
  · rwa [← Option.some.inj hc']

/-- A text that is not empty begins with the mark of its break character exactly if it begins with that. -/
theorem head?_eq_breakMark_iff {c : Byte} {text : List Byte} (htext : 0 ∉ text) (hne : text ≠ []) :
    text.head? = breakMark c ↔ text.head? = some c := by
  unfold breakMark
  split
  case isFalse => exact Iff.rfl
  case isTrue hzero =>
    rw [hzero, List.head?_eq_none_iff]
    exact ⟨fun h => absurd h hne, fun h => absurd (List.mem_of_head? h) htext⟩

/-- The loop of a decoder, for fields that fill its width. It takes an empty field for a number exactly
where the text begins with the break character. -/
theorem rpDecodeUint_readsNumbers_iff (count : Nat) {c : Byte} (hc : rpHexNibble c = none) {text : List Byte}
    (htext : 0 ∉ text) :
    ReadsNumbers (rpDecodeUint (4 * count) count) count c text ↔ text.head? ≠ some c := by
  have hiff := @rpDecodeUint_eq_some_iff (4 * count) count _ (breakMark_notDigit hc) text
  constructor
  · intro h hhead
    have hne : text ≠ [] := by
      rintro rfl
      exact absurd hhead (by simp)
    have hmark := (head?_eq_breakMark_iff htext hne).mpr hhead
    have hempty : HexField count [] := ⟨fun _ hmem => absurd hmem List.not_mem_nil, Nat.zero_le count⟩
    have hread := hiff.mpr ⟨hne, [], text, hempty, rfl, hmark, rfl, rfl⟩
    obtain ⟨digits, rest, hbegins, -⟩ := (h _ _).mp hread
    -- the first digit would be the break character
    cases hdigits : digits with
    | nil => exact hbegins.ne_nil hdigits
    | cons d digits' =>
      rw [hbegins.text_eq, hdigits, List.cons_append, List.head?_cons] at hhead
      have hdigit := hbegins.field.digits d (hdigits ▸ List.mem_cons_self)
      rw [Option.some.inj hhead, hc] at hdigit
      exact absurd hdigit (by simp)
  · intro hhead val left
    rw [hiff]
    constructor
    · rintro ⟨hne, digits, rest, hfield, rfl, hbreaks, rfl, rfl⟩
      refine ⟨digits, rest, ⟨hfield, ?_, rfl, hbreaks⟩, hfield.toNat_ofNat, rfl⟩
      rintro rfl
      exact hhead ((head?_eq_breakMark_iff htext hne).mp hbreaks)
    · rintro ⟨digits, rest, ⟨hfield, hdigits, rfl, hbreaks⟩, hval, rfl⟩
      refine ⟨List.append_ne_nil_of_left_ne_nil hdigits rest, digits, rest, hfield, rfl, hbreaks, ?_, rfl⟩
      rw [← BitVec.toNat_inj, hval, hfield.toNat_ofNat]

/-- The two decoders read the numbers of a text, before a break character that is no digit, if and only
if the text does not begin with that character. -/
theorem rpDecodeUints_readNumbers_iff {c : Byte} (hc : rpHexNibble c = none) {text : List Byte}
    (htext : 0 ∉ text) : (ReadsNumbers rpDecodeUint32 8 c text ↔ text.head? ≠ some c) ∧
      (ReadsNumbers rpDecodeUint64 16 c text ↔ text.head? ≠ some c) :=
  ⟨rpDecodeUint_readsNumbers_iff 8 hc htext, rpDecodeUint_readsNumbers_iff 16 hc htext⟩

/-- An address in front of a comma is read. -/
theorem rpDecodeUints_readNumbers_comma :
    ReadsNumbers rpDecodeUint32 8 (ascii ',') [ascii '1', ascii 'f', ascii ',', ascii '2'] ∧
      ReadsNumbers rpDecodeUint64 16 (ascii ',') [ascii '1', ascii 'f', ascii ',', ascii '2'] := by
  have hcomma : rpHexNibble (ascii ',') = none := rfl
  have htext : 0 ∉ [ascii '1', ascii 'f', ascii ',', ascii '2'] := by decide
  have hread := rpDecodeUints_readNumbers_iff hcomma htext
  exact ⟨hread.1.mpr (by decide), hread.2.mpr (by decide)⟩

/-- An address that is left out is read as zero. -/
theorem rpDecodeUint_emptyField :
    rpDecodeUint32 (some (ascii ',')) [ascii ',', ascii '4'] = some (0, [ascii '4']) ∧
      rpDecodeUint64 (some (ascii ',')) [ascii ',', ascii '4'] = some (0, [ascii '4']) ∧
      ¬ ReadsNumbers rpDecodeUint32 8 (ascii ',') [ascii ',', ascii '4'] ∧
      ¬ ReadsNumbers rpDecodeUint64 16 (ascii ',') [ascii ',', ascii '4'] := by
  refine ⟨by decide, by decide, fun h => ?_, fun h => ?_⟩
  · exact (rpDecodeUint_readsNumbers_iff 8 (by decide) (by decide)).mp h rfl
  · exact (rpDecodeUint_readsNumbers_iff 16 (by decide) (by decide)).mp h rfl

end Mcprog
