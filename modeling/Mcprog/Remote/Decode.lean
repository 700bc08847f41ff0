import Mcprog.Remote.Frames

/-!
# Fields of a packet

The text of a packet is a string without a terminator inside, given here as the list of
its characters. A decoder takes its field off the front of what is left of the text. The
spellings that a debugger sends are read back as what they spell.
-/

namespace Mcprog

/-- `rp_decode_byte`. -/
def rpDecodeByte (c₁ c₂ : Byte) : Option Byte := do
  let msNibble ← rpHexNibble c₁
  let lsNibble ← rpHexNibble c₂
  return (msNibble <<< 4) + lsNibble

/-- The digits of a number, as many as `count` of them. -/
def rpDecodeDigits {w : Nat} : Nat → BitVec w → List Byte → BitVec w × List Byte
  | 0, tmp, text => (tmp, text)
  | _ + 1, tmp, [] => (tmp, [])
  | count + 1, tmp, c :: text =>
    match rpHexNibble c with
    | none => (tmp, c :: text)
    | some nibble => rpDecodeDigits count ((tmp <<< 4) + nibble.setWidth w) text

/-- A number that ends with the character `breakChar`, or with the text. -/
def rpDecodeUint (w count : Nat) (breakChar : Option Byte) (text : List Byte) :
    Option (BitVec w × List Byte) :=
  if text = [] then none
  else if (rpDecodeDigits count (0 : BitVec w) text).2.head? = breakChar then
    some ((rpDecodeDigits count (0 : BitVec w) text).1, (rpDecodeDigits count (0 : BitVec w) text).2.tail)
  else none

/-- `rp_decode_uint32`. -/
def rpDecodeUint32 (breakChar : Option Byte) (text : List Byte) : Option (BitVec 32 × List Byte) :=
  rpDecodeUint 32 8 breakChar text

/-- `rp_decode_uint64`. -/
def rpDecodeUint64 (breakChar : Option Byte) (text : List Byte) : Option (BitVec 64 × List Byte) :=
  rpDecodeUint 64 16 breakChar text

/-- `rp_decode_mem`. -/
def rpDecodeMem (text : List Byte) : Option (BitVec 64 × BitVec 32) := do
  let (addr, text) ← rpDecodeUint64 (some (ascii ',')) text
  let (val, _) ← rpDecodeUint32 none text
  return (addr, val)

/-- The loop of `rp_decode_data`, after `count` bytes and with space for some more. -/
def rpDecodeDataFrom (count : Nat) : Nat → List Byte → Option (List Byte)
  | _, [] => some []
  | 0, _ :: _ => none
  | _ + 1, [_] => if count = 0 then none else some []
  | outSize + 1, c₁ :: c₂ :: text => do
    let byte ← rpDecodeByte c₁ c₂
    let data ← rpDecodeDataFrom (count + 1) outSize text
    return byte :: data

/-- `rp_decode_data`. -/
def rpDecodeData (text : List Byte) (outSize : Nat) : Option (List Byte) :=
  rpDecodeDataFrom 0 outSize text

/-- What the methods of a target answer. -/
inductive RetVal
  | ok
  | err
  | nosupp
  deriving DecidableEq, Repr

/-- `rp_write_retval`. -/
def rpWriteRetval : RetVal → List Byte
  | .ok => [ascii 'O', ascii 'K']
  | .err => [ascii 'E', ascii '0', ascii '0']
  | .nosupp => []

/-- The digits of a number. -/
def hexNumber (n : Nat) : List Byte := (Nat.toDigits 16 n).map ascii

/-- The digits of some bytes. -/
def byteDigits (data : List Byte) : List Byte := data.flatMap fun (b : Byte) => [hexChar (b >>> 4), hexChar b]

@[simp] theorem byteDigits_nil : byteDigits [] = [] := rfl

/-- The digits of a byte come before the others. -/
theorem byteDigits_cons (b : Byte) (data : List Byte) :
    byteDigits (b :: data) = hexChar (b >>> 4) :: hexChar b :: byteDigits data := rfl

@[simp] theorem length_byteDigits (data : List Byte) : (byteDigits data).length = 2 * data.length := by
  induction data with
  | nil => rfl
  | cons b data ih =>
    rw [byteDigits_cons, List.length_cons, List.length_cons, List.length_cons, ih]
    omega

/-- The last digit of a number comes last. -/
theorem hexNumber_eq (n : Nat) :
    hexNumber n = if n < 16 then [hexChar (BitVec.ofNat 8 n)]
      else hexNumber (n / 16) ++ [hexChar (BitVec.ofNat 8 (n % 16))] := by
  have hchar : ∀ d : Fin 16, ascii (Nat.digitChar d) = hexChar (BitVec.ofNat 8 d) := by decide
  rw [hexNumber, Nat.toDigits_eq_if (by omega)]
  split
  · rename_i hlt
    rw [List.map_singleton, hchar ⟨n, hlt⟩]
  · rw [List.map_append, List.map_singleton, hchar ⟨n % 16, Nat.mod_lt n (by omega)⟩]
    rfl

/-- The number of digits. -/
theorem length_hexNumber_le {n k : Nat} (hk : 0 < k) (h : n < 16 ^ k) : (hexNumber n).length ≤ k := by
  rw [hexNumber, List.length_map]
  exact (Nat.length_toDigits_le_iff (by omega) hk).mpr h

theorem hexNumber_ne_nil (n : Nat) : hexNumber n ≠ [] := by
  rw [hexNumber]
  simp

/-- A digit is none of the characters with another meaning. -/
theorem hexChar_notMem (b : Byte) : hexChar b ∉ [ascii '$', ascii '#', ascii ':'] := by
  revert b
  decide

/-- The spelling of a number is made of digits. -/
theorem exists_of_mem_hexNumber {n : Nat} {c : Byte} (h : c ∈ hexNumber n) : ∃ b, c = hexChar b := by
  induction n using Nat.strong_induction_on with
  | _ n ih =>
    rw [hexNumber_eq] at h
    split at h
    · exact ⟨_, List.mem_singleton.mp h⟩
    · rcases List.mem_append.mp h with h | h
      · exact ih (n / 16) (by omega) h
      · exact ⟨_, List.mem_singleton.mp h⟩

/-- The spelling of bytes is made of digits. -/
theorem exists_of_mem_byteDigits {data : List Byte} {c : Byte} (h : c ∈ byteDigits data) :
    ∃ b, c = hexChar b := by
  obtain ⟨b, -, hc⟩ := List.mem_flatMap.mp h
  rw [List.mem_cons, List.mem_singleton] at hc
  rcases hc with hc | hc
  · exact ⟨_, hc⟩
  · exact ⟨_, hc⟩

/-- Digits are read one after the other. -/
theorem rpDecodeDigits_append {w count : Nat} (ds text : List Byte) (tmp : BitVec w)
    (h : ∀ c ∈ ds, ∃ b, c = hexChar b) (hlen : ds.length ≤ count) :
    rpDecodeDigits count tmp (ds ++ text) =
      rpDecodeDigits (count - ds.length) (rpDecodeDigits count tmp ds).1 text := by
  induction ds generalizing count tmp with
  | nil =>
    cases count with
    | zero => rfl
    | succ count => rfl
  | cons c ds ih =>
    obtain ⟨b, rfl⟩ := h c List.mem_cons_self
    rw [List.length_cons] at hlen
    obtain ⟨n, rfl⟩ : ∃ n, count = n + 1 := ⟨count - 1, by omega⟩
    rw [List.cons_append, rpDecodeDigits, rpDecodeDigits, rpHexNibble_hexChar, List.length_cons,
      Nat.add_sub_add_right]
    exact ih _ (fun c hc => h c (List.mem_cons_of_mem _ hc)) (by omega)

/-- One more digit. -/
theorem shiftLeft_add_digit {w : Nat} (n : Nat) {d : Nat} (hd : d < 16) :
    (BitVec.ofNat w n <<< 4) + (BitVec.ofNat 8 d &&& 0xF).setWidth w = BitVec.ofNat w (16 * n + d) := by
  have hmask : ∀ d : Fin 16, (BitVec.ofNat 8 d &&& 0xF) = BitVec.ofNat 8 d := by decide
  have hd8 : d % 2 ^ 8 = d := Nat.mod_eq_of_lt (by omega)
  apply BitVec.eq_of_toNat_eq
  rw [hmask ⟨d, hd⟩, BitVec.toNat_add, BitVec.toNat_shiftLeft, BitVec.toNat_setWidth,
    BitVec.toNat_ofNat, BitVec.toNat_ofNat, BitVec.toNat_ofNat, Nat.shiftLeft_eq, Nat.mod_add_mod,
    Nat.add_mod_mod, hd8, Nat.add_mod, Nat.mod_mul_mod, ← Nat.add_mod, Nat.mul_comm]

/-- The spelling of a number is read as the number. -/
theorem rpDecodeDigits_hexNumber {w count : Nat} (n : Nat) (hlen : (hexNumber n).length ≤ count) :
    (rpDecodeDigits count (0 : BitVec w) (hexNumber n)).1 = BitVec.ofNat w n := by
  induction n using Nat.strong_induction_on with
  | _ n ih =>
    have hlast : ∀ m k d, 0 < m → d < 16 → (rpDecodeDigits m (BitVec.ofNat w k)
        [hexChar (BitVec.ofNat 8 d)]).1 = BitVec.ofNat w (16 * k + d) := by
      intro m k d hm hd
      obtain ⟨m, rfl⟩ : ∃ m', m = m' + 1 := ⟨m - 1, by omega⟩
      rw [rpDecodeDigits, rpHexNibble_hexChar]
      dsimp only
      rw [shiftLeft_add_digit k hd]
      cases m with
      | zero => rfl
      | succ m => rfl
    rw [hexNumber_eq] at hlen ⊢
    split
    · rename_i hlt
      rw [if_pos hlt, List.length_singleton] at hlen
      have h := hlast count 0 n (by omega) hlt
      rwa [Nat.mul_zero, Nat.zero_add] at h
    · rename_i hge
      rw [if_neg hge, List.length_append, List.length_singleton] at hlen
      rw [rpDecodeDigits_append _ _ _ (fun c hc => exists_of_mem_hexNumber hc) (by omega),
        ih (n / 16) (by omega) (by omega), hlast _ _ _ (by omega) (Nat.mod_lt n (by omega)),
        Nat.div_add_mod]

/-- A number is read up to the character that ends it. -/
theorem rpDecodeUint_hexNumber {w count : Nat} (n : Nat) (rest : List Byte)
    (hlen : (hexNumber n).length ≤ count) (hrest : ∀ c ∈ rest.head?, rpHexNibble c = none) :
    rpDecodeUint w count rest.head? (hexNumber n ++ rest) = some (BitVec.ofNat w n, rest.tail) := by
  have hstop : ∀ (m : Nat) (tmp : BitVec w), rpDecodeDigits m tmp rest = (tmp, rest) := by
    intro m tmp
    cases m with
    | zero => rfl
    | succ m =>
      cases rest with
      | nil => rfl
      | cons c rest =>
        rw [rpDecodeDigits, hrest c rfl]
  have hne : hexNumber n ++ rest ≠ [] := by
    intro h
    exact hexNumber_ne_nil n (List.append_eq_nil_iff.mp h).1
  rw [rpDecodeUint, if_neg hne, rpDecodeDigits_append _ _ _ (fun c hc => exists_of_mem_hexNumber hc) hlen,
    rpDecodeDigits_hexNumber n hlen, hstop, if_pos rfl]

/-- An address and a length are read back. -/
theorem rpDecodeMem_hexNumber {a n : Nat} (ha : a < 2 ^ 64) (hn : n < 2 ^ 32) :
    rpDecodeMem (hexNumber a ++ ascii ',' :: hexNumber n) =
      some (BitVec.ofNat 64 a, BitVec.ofNat 32 n) := by
  have haddr : rpDecodeUint 64 16 _ _ = _ := rpDecodeUint_hexNumber a (ascii ',' :: hexNumber n)
    (length_hexNumber_le (by omega) (by omega)) (by
      intro c hc
      rw [← Option.some.inj hc]
      rfl)
  have hlen : rpDecodeUint 32 8 _ _ = _ := rpDecodeUint_hexNumber n []
    (length_hexNumber_le (by omega) (by omega)) (by simp)
  rw [List.append_nil] at hlen
  rw [rpDecodeMem, rpDecodeUint64]
  rw [List.head?_cons] at haddr
  rw [haddr]
  change (rpDecodeUint32 none (hexNumber n)).bind _ = _
  rw [rpDecodeUint32]
  rw [List.head?_nil] at hlen
  rw [hlen]
  rfl

/-- Bytes are read back as far as there is space for them. -/
theorem rpDecodeDataFrom_byteDigits (data : List Byte) (count outSize : Nat) :
    rpDecodeDataFrom count outSize (byteDigits data) =
      if data.length ≤ outSize then some data else none := by
  have hbyte : ∀ b : Byte, rpDecodeByte (hexChar (b >>> 4)) (hexChar b) = some b := by decide
  induction data generalizing count outSize with
  | nil =>
    cases outSize with
    | zero => rfl
    | succ outSize => rfl
  | cons b data ih =>
    rw [byteDigits_cons, List.length_cons]
    cases outSize with
    | zero => rfl
    | succ outSize =>
      rw [rpDecodeDataFrom, hbyte]
      change (rpDecodeDataFrom (count + 1) outSize (byteDigits data)).bind _ = _
      rw [ih]
      by_cases h : data.length ≤ outSize
      · rw [if_pos h, if_pos (by omega)]
        rfl
      · rw [if_neg h, if_neg (by omega)]
        rfl

/-- The digits of bytes are read as the bytes, where there is room for them. -/
theorem rpDecodeData_byteDigits (data : List Byte) (outSize : Nat) :
    rpDecodeData (byteDigits data) outSize = if data.length ≤ outSize then some data else none :=
  rpDecodeDataFrom_byteDigits data 0 outSize

end Mcprog
