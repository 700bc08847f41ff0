import Mathlib.Data.List.GetD
import Mcprog.Remote.Methods
import Mcprog.Target.BlockAccess

/-!
# Bytes of ordinary memory

The methods of the target that read and write memory cut a range of bytes into an unaligned head,
a block of words and a tail. Over ordinary memory they read the bytes of the range, and change
these bytes and no others.
-/

namespace Mcprog

open Cells Interaction Program

/-- A byte of a word. -/
def byteOf (w : Word) (k : Nat) : Byte := (w >>> (8 * k)).setWidth 8

/-- The bytes of a word, the lowest one first. -/
theorem wordBytes_eq (w : Word) : wordBytes w = [byteOf w 0, byteOf w 1, byteOf w 2, byteOf w 3] := by
  simp [wordBytes, byteOf]

/-- A word is known by its bytes. -/
theorem word_ext {w w' : Word} (h : ∀ k < 4, byteOf w k = byteOf w' k) : w = w' := by
  apply BitVec.eq_of_getLsbD_eq
  intro i hi
  have hbit := congrArg (fun b : Byte => b.getLsbD (i % 8)) (h (i / 8) (by omega))
  have hlt : i % 8 < 8 := Nat.mod_lt i (by decide)
  simp only [byteOf, BitVec.getLsbD_setWidth, BitVec.getLsbD_ushiftRight, hlt, decide_true, Bool.true_and,
    Nat.div_add_mod] at hbit
  exact hbit

/-- A byte of a word in which some bytes are replaced. -/
theorem byteOf_setBytes (w : Word) (off : Nat) (bs : List Byte) (hlen : off + bs.length ≤ 4) {k : Nat}
    (hk : k < 4) : byteOf (setBytes w off bs) k =
      if off ≤ k ∧ k < off + bs.length then bs.getD (k - off) 0 else byteOf w k := by
  induction bs generalizing w off with
  | nil => rw [setBytes, if_neg (by rw [List.length_nil]; omega)]
  | cons b bs ih =>
    rw [List.length_cons] at hlen
    rw [setBytes, ih _ (off + 1) (by omega), List.length_cons]
    have hrest : byteOf ((w &&& ~~~((0xFF : Word) <<< (8 * off))) ||| (b.setWidth 32 <<< (8 * off))) k =
        if k = off then b else byteOf w k := byte_replaced w b (by omega) hk
    rw [hrest]
    by_cases hoff : k = off
    · subst hoff
      rw [if_neg (by omega), if_pos rfl, if_pos (by omega), Nat.sub_self]
      rfl
    · by_cases hin : off + 1 ≤ k ∧ k < off + 1 + bs.length
      · rw [if_pos hin, if_pos (by omega)]
        obtain ⟨j, hj⟩ := Nat.exists_eq_add_of_le hin.1
        rw [hj, show off + 1 + j - (off + 1) = j by omega, show off + 1 + j - off = j + 1 by omega]
        rfl
      · rw [if_neg hin, if_neg hoff, if_neg (by omega)]

/-- Where a word is in the physical memory. -/
def wordAddr (w : Nat) : Word := physical (BitVec.ofNat 32 (4 * w))

namespace AddressSpace

variable {μ : Type} (M : AddressSpace μ)

/-- The addresses of `P` are those of ordinary memory: a load changes nothing and answers what was
stored last. -/
structure Ordinary (P : Word → Prop) : Prop where
  load_memory : ∀ p, P p → ∀ m, (M.load p m).2 = m
  load_store : ∀ p q, P p → P q → ∀ val m,
    (M.load p (M.store q val m)).1 = if p = q then val else (M.load p m).1

/-- The word with a number. -/
def wordAt (m : μ) (w : Nat) : Word := (M.load (wordAddr w) m).1

/-- The byte at an address. -/
def byteAt (m : μ) (x : Nat) : Byte := byteOf (M.wordAt m (x / 4)) (x % 4)

/-- The words from `lo` up to `hi` are ordinary memory of one segment. -/
structure PlainWords (lo hi : Nat) : Prop where
  bound : hi ≤ 2 ^ 30
  segment_eq : ∀ w, lo ≤ w → w < hi →
    segment (BitVec.ofNat 32 (4 * w)) = segment (BitVec.ofNat 32 (4 * lo))
  load_memory : ∀ w, lo ≤ w → w < hi → ∀ m, (M.load (wordAddr w) m).2 = m
  wordAt_store : ∀ v w, lo ≤ v → v < hi → lo ≤ w → w < hi → ∀ val m,
    M.wordAt (M.store (wordAddr v) val m) w = if w = v then val else M.wordAt m w

/-- From `m` to `m'` the bytes from `a` on have become `d`, and the other bytes have stayed. -/
def Writes (lo hi a : Nat) (d : List Byte) (m m' : μ) : Prop :=
  ∀ x, lo ≤ x / 4 → x / 4 < hi →
    M.byteAt m' x = if a ≤ x ∧ x < a + d.length then d.getD (x - a) 0 else M.byteAt m x

variable {M} {lo hi : Nat} {m m' m'' : μ}

/-- Two ranges that follow each other. -/
theorem Writes.append {a : Nat} {d d' : List Byte} (h : M.Writes lo hi a d m m')
    (h' : M.Writes lo hi (a + d.length) d' m' m'') : M.Writes lo hi a (d ++ d') m m'' := by
  intro x hlo hhi
  rw [h' x hlo hhi, h x hlo hhi, List.length_append]
  by_cases hfirst : x < a + d.length
  · rw [if_neg (by omega)]
    by_cases hle : a ≤ x
    · rw [if_pos ⟨hle, hfirst⟩, if_pos (by omega), List.getD_append _ _ _ _ (by omega)]
    · rw [if_neg (by omega), if_neg (by omega)]
  · by_cases hsecond : x < a + d.length + d'.length
    · rw [if_pos (by omega), if_pos (by omega), List.getD_append_right _ _ _ _ (by omega),
        Nat.sub_sub]
    · rw [if_neg (by omega), if_neg (by omega), if_neg (by omega)]

/-- A word is stored with some of its bytes replaced, and the others as they were. -/
theorem PlainWords.writes_word (h : M.PlainWords lo hi) {w off : Nat} (hlo : lo ≤ w) (hhi : w < hi)
    {bs : List Byte} (hlen : off + bs.length ≤ 4) {base : Word}
    (hbase : ∀ k < 4, ¬(off ≤ k ∧ k < off + bs.length) → byteOf base k = byteOf (M.wordAt m w) k) :
    M.Writes lo hi (4 * w + off) bs m (M.store (wordAddr w) (setBytes base off bs) m) := by
  intro x hxlo hxhi
  have hmod : x % 4 < 4 := Nat.mod_lt x (by omega)
  rw [byteAt, h.wordAt_store w (x / 4) hlo hhi hxlo hxhi]
  by_cases hw : x / 4 = w
  · rw [if_pos hw, byteOf_setBytes base off bs hlen hmod]
    by_cases hin : off ≤ x % 4 ∧ x % 4 < off + bs.length
    · rw [if_pos hin, if_pos (by omega), show x % 4 - off = x - (4 * w + off) by omega]
    · rw [if_neg hin, if_neg (by omega), hbase _ hmod hin, byteAt, hw]
  · rw [if_neg hw, if_neg (by omega), byteAt]

variable (M)

/-- Some bytes from an address on. -/
def bytes (m : μ) (a n : Nat) : List Byte := (List.range n).map fun i => M.byteAt m (a + i)

@[simp] theorem length_bytes (m : μ) (a n : Nat) : (M.bytes m a n).length = n := by
  rw [bytes, List.length_map, List.length_range]

/-- The bytes of the memory in two parts. -/
theorem bytes_add (m : μ) (a n k : Nat) :
    M.bytes m a (n + k) = M.bytes m a n ++ M.bytes m (a + n) k := by
  have hsame : ∀ i, M.byteAt m (a + (n + i)) = M.byteAt m (a + n + i) := fun i => by rw [Nat.add_assoc]
  rw [bytes, List.range_add, List.map_append, List.map_map]
  exact congrArg _ (List.map_congr_left fun i _ => hsame i)

theorem take_bytes (m : μ) (a : Nat) {n k : Nat} (h : k ≤ n) :
    (M.bytes m a n).take k = M.bytes m a k := by
  obtain ⟨j, rfl⟩ := Nat.exists_eq_add_of_le h
  rw [bytes_add, List.take_left' (M.length_bytes m a k)]

theorem drop_bytes (m : μ) (a : Nat) {n k : Nat} (h : k ≤ n) :
    (M.bytes m a n).drop k = M.bytes m (a + k) (n - k) := by
  obtain ⟨j, rfl⟩ := Nat.exists_eq_add_of_le h
  rw [bytes_add, List.drop_left' (M.length_bytes m a k), Nat.add_sub_cancel_left]

/-- The bytes of a word. -/
theorem wordBytes_wordAt (m : μ) (w : Nat) : wordBytes (M.wordAt m w) = M.bytes m (4 * w) 4 := by
  have hbyte : ∀ k < 4, M.byteAt m (4 * w + k) = byteOf (M.wordAt m w) k := by
    intro k hk
    rw [byteAt, show (4 * w + k) / 4 = w by omega, show (4 * w + k) % 4 = k by omega]
  change _ = [M.byteAt m (4 * w + 0), _, _, _]
  rw [wordBytes_eq, ← hbyte 0 (by omega), ← hbyte 1 (by omega), ← hbyte 2 (by omega),
    ← hbyte 3 (by omega)]

variable {M}

/-- What has been written is found where it was written. -/
theorem Writes.bytes_eq {a : Nat} {d : List Byte} (h : M.Writes lo hi a d m m') {k n : Nat}
    (hlo : lo ≤ (a + k) / 4) (hhi : a + k + n ≤ 4 * hi) (hsub : k + n ≤ d.length) :
    M.bytes m' (a + k) n = (d.drop k).take n := by
  apply List.ext_getElem?
  intro i
  by_cases hi : i < n
  · rw [bytes, List.getElem?_map, List.getElem?_range hi, List.getElem?_take_of_lt hi,
      List.getElem?_drop, Option.map_some, h _ (by omega) (by omega), if_pos (by omega),
      show a + k + i - a = k + i by omega, List.getD_eq_getElem _ _ (by omega),
      List.getElem?_eq_getElem (by omega)]
  · rw [List.getElem?_eq_none (by rw [length_bytes]; omega),
      List.getElem?_eq_none (by rw [List.length_take]; omega)]

end AddressSpace

section Writing

open AddressSpace

variable {σ μ : Type} {A : Adapter σ} {M : AddressSpace μ} {S : Serves A M} {m : μ} {t : Target}
  {lo hi : Nat}

/-- The address of a word in the methods. -/
theorem setWidth_addr (w : Nat) :
    (BitVec.ofNat 64 (4 * w)).setWidth 32 = BitVec.ofNat 32 (4 * w) := by
  apply BitVec.eq_of_toNat_eq
  rw [BitVec.toNat_setWidth, BitVec.toNat_ofNat, BitVec.toNat_ofNat]
  omega

/-- The tail of a write. -/
theorem writeMemLast_performs (h : M.PlainWords lo hi) {w : Nat} (hlo : lo ≤ w) (hhi : w < hi)
    (buf : List Byte) (hlen : buf.length ≤ 4) :
    ∃ m', Performs S.Holds (writeMemLast A t (BitVec.ofNat 64 (4 * w)) buf) m () m' ∧
      M.Writes lo hi (4 * w) buf m m' := by
  refine ⟨_, (Serves.readWord_performs _).bind (Serves.writeWord_performs _ _), ?_⟩
  rw [setWidth_addr, ← wordAddr, h.load_memory w hlo hhi]
  exact h.writes_word hlo hhi (by omega) fun k _ _ => rfl

/-- The words of a write, one after the other. -/
theorem writes_words (h : M.PlainWords lo hi) (n w : Nat) (hlo : lo ≤ w) (hhi : w + n ≤ hi)
    (buf : List Byte) (hlen : 4 * n ≤ buf.length) :
    M.Writes lo hi (4 * w) (buf.take (4 * n)) m
      (M.storeAll (((wordSteps n (BitVec.ofNat 32 (4 * w))).map physical).zip
        (wordsOf n fun i => setBytes 0 0 ((buf.drop (4 * i)).take 4))) m) := by
  induction n generalizing w buf m with
  | zero =>
    intro x _ _
    rw [Nat.mul_zero, List.take_zero, if_neg (by rw [List.length_nil]; omega)]
    rfl
  | succ n ih =>
    have hfirst : (buf.take 4).length = 4 := by
      rw [List.length_take]
      omega
    have hsplit : buf.take (4 * (n + 1)) = buf.take 4 ++ (buf.drop 4).take (4 * n) := by
      rw [show 4 * (n + 1) = 4 + 4 * n by omega, List.take_add]
    have hnext : BitVec.ofNat 32 (4 * w) + 4 = BitVec.ofNat 32 (4 * (w + 1)) := by
      rw [Nat.mul_add, BitVec.ofNat_add]
      rfl
    have hwords : (fun i => setBytes 0 0 ((buf.drop (4 * (i + 1))).take 4)) =
        fun i => setBytes 0 0 (((buf.drop 4).drop (4 * i)).take 4) := by
      funext i
      rw [List.drop_drop, show 4 * (i + 1) = 4 + 4 * i by omega]
    have hone : M.Writes lo hi (4 * w) (buf.take 4) m
        (M.store (wordAddr w) (setBytes 0 0 (buf.take 4)) m) :=
      h.writes_word hlo (by omega) (by omega) fun k hk hout => absurd ⟨Nat.zero_le k, by omega⟩ hout
    rw [hsplit, wordSteps, wordsOf_succ, List.map_cons, List.zip_cons_cons,
      AddressSpace.storeAll_cons, hnext, hwords]
    refine hone.append ?_
    rw [hfirst]
    exact ih (w + 1) (by omega) (by omega) (buf.drop 4) (by rw [List.length_drop]; omega)

/-- In one segment a block of words is in place. -/
theorem AddressSpace.PlainWords.inPlace (h : M.PlainWords lo hi) (fast : Bool) {w n : Nat} (hlo : lo ≤ w)
    (hhi : w + n ≤ hi) : InPlace fast (BitVec.ofNat 32 (4 * w)) (BitVec.ofNat 32 n) := by
  have hbound := h.bound
  apply inPlace_of_segment
  intro k hk
  have hk' : k < n := by
    rw [BitVec.toNat_ofNat] at hk
    exact lt_of_lt_of_le hk (Nat.mod_le _ _)
  have hstep : BitVec.ofNat 32 (4 * w) + 4 * BitVec.ofNat 32 k = BitVec.ofNat 32 (4 * (w + k)) := by
    rw [Nat.mul_add, BitVec.ofNat_add, BitVec.ofNat_mul 4 k]
    rfl
  rw [hstep, h.segment_eq (w + k) (by omega) (by omega), h.segment_eq w hlo (by omega),
    BitVec.toNat_ofNat]
  exact ⟨by omega, rfl⟩

/-- The block of words of a write. -/
theorem writeMemBlock_performs (h : M.PlainWords lo hi) {w n : Nat} (hlo : lo ≤ w) (hpos : 0 < n)
    (hhi : w + n ≤ hi) (buf : List Byte) (hlen : 4 * n ≤ buf.length) :
    ∃ m', Performs S.Holds (targetWriteBlock A t (BitVec.ofNat 32 (4 * w)) (BitVec.ofNat 32 n)
        fun i => setBytes 0 0 ((buf.drop (4 * i)).take 4)) m () m' ∧
      M.Writes lo hi (4 * w) (buf.take (4 * n)) m m' := by
  have hbound := h.bound
  have hcount : (BitVec.ofNat 32 n).toNat = n := by
    rw [BitVec.toNat_ofNat]
    omega
  have hplaces := (blockPlaces_eq_iff A.writeBlock.isSome _ _).mpr
    (h.inPlace A.writeBlock.isSome hlo hhi)
  have hblock := Serves.writeBlock_performs (S := S) (t := t) (m := m) (BitVec.ofNat 32 (4 * w))
    (BitVec.ofNat 32 n) (fun i => setBytes 0 0 ((buf.drop (4 * i)).take 4)) (by omega)
  rw [hcount] at hplaces hblock
  rw [hplaces] at hblock
  exact ⟨_, hblock, writes_words h n w hlo hhi buf hlen⟩

/-- The number of bytes in a number of words. -/
theorem wordsSize_toNat {n : Nat} (h : n < 2 ^ 30) : (BitVec.ofNat 32 n * 4).toNat = 4 * n := by
  rw [BitVec.toNat_mul, BitVec.toNat_ofNat]
  change n % 2 ^ 32 * 4 % 2 ^ 32 = 4 * n
  omega

/-- The address after a number of words. -/
theorem addr_add_words (w : Nat) {n : Nat} (hn : n < 2 ^ 30) :
    BitVec.ofNat 64 (4 * w) + (BitVec.ofNat 32 n * 4).setWidth 64 = BitVec.ofNat 64 (4 * (w + n)) := by
  apply BitVec.eq_of_toNat_eq
  rw [BitVec.toNat_add, BitVec.toNat_setWidth, wordsSize_toNat hn, BitVec.toNat_ofNat,
    BitVec.toNat_ofNat]
  omega

/-- The words of a write and what is left after them. -/
theorem writeMemWords_performs (h : M.PlainWords lo hi) {w : Nat} (hlo : lo ≤ w) (buf : List Byte)
    (hpos : 0 < buf.length) (hhi : 4 * w + buf.length ≤ 4 * hi) :
    ∃ m', Performs S.Holds (writeMemWords A t (BitVec.ofNat 64 (4 * w)) buf) m () m' ∧
      M.Writes lo hi (4 * w) buf m m' := by
  have hbound := h.bound
  unfold writeMemWords
  by_cases hlen : buf.length ≥ 4
  · obtain ⟨n, hn⟩ : ∃ n, n = buf.length / 4 := ⟨_, rfl⟩
    obtain ⟨m₁, hblock, hwrites⟩ := writeMemBlock_performs (S := S) (t := t) (m := m) h hlo
      (n := n) (by omega) (by omega) buf (by omega)
    rw [if_pos hlen, setWidth_addr, ← hn]
    by_cases hrest : buf.length % 4 = 0
    · refine ⟨m₁, hblock.bind ?_, ?_⟩
      · rw [if_pos hrest]
        exact performs_pure _ _
      · rwa [List.take_of_length_le (by omega)] at hwrites
    · obtain ⟨m', hlast, hwrites'⟩ := writeMemLast_performs (S := S) (t := t) (m := m₁) h
        (w := w + n) (by omega) (by omega) (buf.drop (4 * n))
        (by rw [List.length_drop]; omega)
      refine ⟨m', hblock.bind ?_, ?_⟩
      · rw [if_neg hrest, addr_add_words w (by omega), wordsSize_toNat (by omega)]
        exact hlast
      · have hlen' : (buf.take (4 * n)).length = 4 * n := by
          rw [List.length_take]
          omega
        rw [Nat.mul_add, ← hlen'] at hwrites'
        have hboth := hwrites.append hwrites'
        rwa [hlen', List.take_append_drop] at hboth
  · rw [if_neg hlen]
    exact writeMemLast_performs h hlo (by omega) buf (by omega)

/-- The address of the word of a byte. -/
theorem aligned_addr (a : Nat) : BitVec.ofNat 64 a &&& ~~~3 = BitVec.ofNat 64 (4 * (a / 4)) := by
  have hbits : 4 * (a / 4) = a / 2 ^ 2 * 2 ^ 2 := Nat.mul_comm _ _
  have hmask : ∀ i < 64, (~~~(3 : BitVec 64)).getLsbD i = decide (2 ≤ i) := by decide
  apply BitVec.eq_of_getLsbD_eq
  intro i hi
  rw [BitVec.getLsbD_and, hmask i hi, BitVec.getLsbD_ofNat, BitVec.getLsbD_ofNat, hbits,
    Nat.testBit_mul_two_pow, Nat.testBit_div_two_pow]
  by_cases h : 2 ≤ i
  · rw [Nat.sub_add_cancel h, decide_eq_true h, Bool.and_true, Bool.true_and]
  · rw [decide_eq_false h, Bool.and_false, Bool.false_and, Bool.and_false]

/-- The number of a byte in its word. -/
theorem offset_toNat (a : Nat) : (BitVec.ofNat 64 a &&& 3).toNat = a % 4 := by
  rw [BitVec.toNat_and, BitVec.toNat_ofNat]
  change a % 2 ^ 64 &&& (2 ^ 2 - 1) = a % 4
  rw [Nat.and_two_pow_sub_one_eq_mod]
  omega

/-- An address is aligned where its lowest two bits are 0. -/
theorem offset_eq_zero_iff (a : Nat) : BitVec.ofNat 64 a &&& 3 = 0 ↔ a % 4 = 0 := by
  rw [← BitVec.toNat_inj, offset_toNat]
  rfl

/-- An address of a word is not above the last one. -/
theorem not_above_of_lt {a : Nat} (ha : a < 2 ^ 32) : ¬BitVec.ofNat 64 a > maxAddress := by
  rw [gt_iff_lt, BitVec.lt_def, BitVec.toNat_ofNat]
  change ¬0xFFFFFFFF < a % 2 ^ 64
  omega

/-- The end of a write that fits is not above the last address. -/
theorem not_writesAbove {a n : Nat} (hpos : 0 < n) (hend : a + n ≤ 2 ^ 32) :
    ¬BitVec.ofNat 64 a + BitVec.ofNat 64 n - 1 > maxAddress := by
  rw [gt_iff_lt, BitVec.lt_def, BitVec.toNat_sub, BitVec.toNat_add, BitVec.toNat_ofNat, BitVec.toNat_ofNat]
  change ¬0xFFFFFFFF < (2 ^ 64 - 1 + (a % 2 ^ 64 + n % 2 ^ 64) % 2 ^ 64) % 2 ^ 64
  omega

/-- The steps of a write from the start of a word on. -/
theorem elveesWriteMem_aligned {a : Nat} {d : List Byte} (hpos : 0 < d.length)
    (hend : a + d.length ≤ 2 ^ 32) (hoffset : a % 4 = 0) : elveesWriteMem A t (BitVec.ofNat 64 a) d =
      writeMemWords A t (BitVec.ofNat 64 (4 * (a / 4))) d >>= fun _ => pure .ok := by
  rw [elveesWriteMem, if_neg (by omega), if_neg (not_above_of_lt (by omega)),
    if_neg (not_writesAbove hpos hend), show 4 * (a / 4) = a by omega]
  exact if_neg (not_not.mpr ((offset_eq_zero_iff a).mpr hoffset))

/-- The steps of a write from within a word on: `n` bytes are written into that word. -/
theorem elveesWriteMem_unaligned {a : Nat} {d : List Byte} (hpos : 0 < d.length)
    (hend : a + d.length ≤ 2 ^ 32) (hoffset : a % 4 ≠ 0) :
    ∃ n, n ≤ d.length ∧ a % 4 + n ≤ 4 ∧ (n < d.length → a % 4 + n = 4) ∧
      elveesWriteMem A t (BitVec.ofNat 64 a) d =
        targetReadWord A (BitVec.ofNat 32 (4 * (a / 4))) >>= fun data =>
          targetWriteWord A t (BitVec.ofNat 32 (4 * (a / 4))) (setBytes data (a % 4) (d.take n)) >>= fun _ =>
            if d.length - n = 0 then pure .ok
            else writeMemWords A t (BitVec.ofNat 64 (4 * (a / 4 + 1))) (d.drop n) >>= fun _ => pure .ok := by
  obtain ⟨n, hn⟩ : ∃ n, n = if 4 - a % 4 > d.length then d.length else 4 - a % 4 := ⟨_, rfl⟩
  have hfit : n ≤ d.length ∧ a % 4 + n ≤ 4 ∧ (n < d.length → a % 4 + n = 4) := by
    rw [hn]
    split_ifs <;> omega
  refine ⟨n, hfit.1, hfit.2.1, hfit.2.2, ?_⟩
  rw [elveesWriteMem, if_neg (by omega), if_neg (not_above_of_lt (by omega)),
    if_neg (not_writesAbove hpos hend)]
  dsimp only
  rw [if_pos (mt (offset_eq_zero_iff a).mp hoffset), offset_toNat, aligned_addr, setWidth_addr, ← hn]
  by_cases hrest : d.length - n = 0
  · rw [if_pos hrest, if_pos hrest]
  · have hnext : BitVec.ofNat 64 a + BitVec.ofNat 64 n = BitVec.ofNat 64 (4 * (a / 4 + 1)) := by
      rw [← BitVec.ofNat_add]
      congr 1
      omega
    rw [if_neg hrest, if_neg hrest, hnext]

/-- A write changes the bytes of its range, and no others. -/
theorem elveesWriteMem_performs (h : M.PlainWords lo hi) {a : Nat} (hlo : lo ≤ a / 4) {d : List Byte}
    (hpos : 0 < d.length) (hhi : a + d.length ≤ 4 * hi) :
    ∃ m', Performs S.Holds (elveesWriteMem A t (BitVec.ofNat 64 a) d) m .ok m' ∧
      M.Writes lo hi a d m m' := by
  have hbound := h.bound
  by_cases hoffset : a % 4 = 0
  · obtain ⟨m', hwords, hwrites⟩ := writeMemWords_performs (S := S) (t := t) (m := m) h hlo d hpos
      (by omega)
    have haddr : 4 * (a / 4) = a := by omega
    rw [haddr] at hwrites
    rw [elveesWriteMem_aligned hpos (by omega) hoffset]
    exact ⟨m', hwords.bind (performs_pure _ _), hwrites⟩
  · obtain ⟨n, hle, hin, hword, hsteps⟩ := elveesWriteMem_unaligned (A := A) (t := t) hpos (by omega) hoffset
    have hlen : (d.take n).length = n := List.length_take_of_le hle
    have hhead : M.Writes lo hi (4 * (a / 4) + a % 4) (d.take n) m
        (M.store (wordAddr (a / 4)) (setBytes (M.wordAt m (a / 4)) (a % 4) (d.take n)) m) :=
      h.writes_word hlo (by omega) (by omega) fun k _ _ => rfl
    rw [Nat.div_add_mod a 4] at hhead
    have hread := Serves.readWord_performs (S := S) (m := m) (BitVec.ofNat 32 (4 * (a / 4)))
    rw [← wordAddr, h.load_memory _ hlo (by omega)] at hread
    obtain ⟨m₁, hwrite, hhead⟩ : ∃ m₁, Performs S.Holds (targetWriteWord A t
        (BitVec.ofNat 32 (4 * (a / 4))) (setBytes (M.load (wordAddr (a / 4)) m).1 (a % 4) (d.take n)))
        m () m₁ ∧ M.Writes lo hi a (d.take n) m m₁ :=
      ⟨_, Serves.writeWord_performs _ _, hhead⟩
    rw [hsteps]
    by_cases hrest : d.length - n = 0
    · refine ⟨m₁, hread.bind (hwrite.bind ?_), ?_⟩
      · rw [if_pos hrest]
        exact performs_pure _ _
      · rwa [List.take_of_length_le (by omega)] at hhead
    · obtain ⟨m', hwords, hwrites⟩ := writeMemWords_performs (S := S) (t := t) (m := m₁) h
        (w := a / 4 + 1) (by omega) (d.drop n) (by rw [List.length_drop]; omega)
        (by rw [List.length_drop]; omega)
      refine ⟨m', hread.bind (hwrite.bind ?_), ?_⟩
      · rw [if_neg hrest]
        exact hwords.bind (performs_pure _ _)
      · rw [show 4 * (a / 4 + 1) = a + (d.take n).length by omega] at hwrites
        have hboth := hhead.append hwrites
        rwa [List.take_append_drop] at hboth

end Writing

section Reading

open AddressSpace

variable {σ μ : Type} {A : Adapter σ} {M : AddressSpace μ} {S : Serves A M} {m : μ} {lo hi : Nat}

/-- The tail of a read. -/
theorem readMemLast_performs (h : M.PlainWords lo hi) {w n : Nat} (hlo : lo ≤ w) (hhi : w < hi)
    (hn : n ≤ 4) (buf : Buffer Byte) (pos : Nat) :
    Performs S.Holds (readMemLast A (BitVec.ofNat 64 (4 * w)) (BitVec.ofNat 64 n) buf pos) m
      (buf.setAll pos (M.bytes m (4 * w) n)) m := by
  have hread := Serves.readWord_performs (S := S) (m := m) (BitVec.ofNat 32 (4 * w))
  rw [← wordAddr, h.load_memory w hlo hhi] at hread
  have hcount : (BitVec.ofNat 64 n).toNat = n := by
    rw [BitVec.toNat_ofNat]
    omega
  have hbytes : (wordBytes (M.load (wordAddr w) m).1).take n = M.bytes m (4 * w) n :=
    (congrArg (List.take n) (M.wordBytes_wordAt m w)).trans (M.take_bytes m _ hn)
  rw [readMemLast, setWidth_addr, hcount, ← hbytes]
  exact hread.bind (performs_pure _ _)

/-- The words of a read, one after the other. -/
theorem loads_words (h : M.PlainWords lo hi) (n w : Nat) (hlo : lo ≤ w) (hhi : w + n ≤ hi) :
    ∃ words, M.loadAll ((wordSteps n (BitVec.ofNat 32 (4 * w))).map physical) m = (words, m) ∧
      words.flatMap wordBytes = M.bytes m (4 * w) (4 * n) := by
  induction n generalizing w with
  | zero => exact ⟨[], rfl, rfl⟩
  | succ n ih =>
    obtain ⟨words, hloads, hbytes⟩ := ih (w + 1) (by omega) (by omega)
    have hnext : BitVec.ofNat 32 (4 * w) + 4 = BitVec.ofNat 32 (4 * (w + 1)) := by
      rw [Nat.mul_add, BitVec.ofNat_add]
      rfl
    refine ⟨M.wordAt m w :: words, ?_, ?_⟩
    · rw [wordSteps, List.map_cons, loadAll_cons, hnext, ← wordAddr, h.load_memory w hlo (by omega),
        hloads]
      rfl
    · rw [List.flatMap_cons, hbytes, wordBytes_wordAt, show 4 * (n + 1) = 4 + 4 * n by omega,
        bytes_add]
      rfl

/-- The block of words of a read. -/
theorem readMemBlock_performs (h : M.PlainWords lo hi) {w n : Nat} (hlo : lo ≤ w) (hhi : w + n ≤ hi) :
    ∃ words, Performs S.Holds (targetReadBlock A (BitVec.ofNat 32 (4 * w)) (BitVec.ofNat 32 n)) m
      words m ∧ words.flatMap wordBytes = M.bytes m (4 * w) (4 * n) := by
  have hbound := h.bound
  have hcount : (BitVec.ofNat 32 n).toNat = n := by
    rw [BitVec.toNat_ofNat]
    omega
  have hplaces := (blockPlaces_eq_iff A.readBlock.isSome _ _).mpr
    (h.inPlace A.readBlock.isSome hlo hhi)
  have hblock := Serves.readBlock_performs (S := S) (m := m) (BitVec.ofNat 32 (4 * w))
    (BitVec.ofNat 32 n)
  obtain ⟨words, hloads, hbytes⟩ := loads_words (m := m) h n w hlo hhi
  rw [hcount] at hplaces hblock
  rw [hplaces, hloads] at hblock
  exact ⟨words, hblock, hbytes⟩

/-- The words of a read and what is left after them. -/
theorem readMemWords_performs (h : M.PlainWords lo hi) {w n : Nat} (hlo : lo ≤ w)
    (hpos : 0 < n) (hhi : 4 * w + n ≤ 4 * hi) (buf : Buffer Byte) (pos : Nat) :
    Performs S.Holds (readMemWords A (BitVec.ofNat 64 (4 * w)) (BitVec.ofNat 64 n) buf pos) m
      (buf.setAll pos (M.bytes m (4 * w) n)) m := by
  have hbound := h.bound
  have hcount : (BitVec.ofNat 64 n).toNat = n := by
    rw [BitVec.toNat_ofNat]
    omega
  unfold readMemWords
  by_cases hlen : n ≥ 4
  · have hwords : (BitVec.ofNat 64 n / 4).setWidth 32 = BitVec.ofNat 32 (n / 4) := by
      apply BitVec.eq_of_toNat_eq
      rw [BitVec.toNat_setWidth, BitVec.toNat_udiv, hcount, BitVec.toNat_ofNat]
      rfl
    have hge : BitVec.ofNat 64 n ≥ 4 := by
      rw [ge_iff_le, BitVec.le_def, hcount]
      exact hlen
    obtain ⟨words, hblock, hbytes⟩ := readMemBlock_performs (S := S) (m := m) h (n := n / 4) hlo
      (by omega)
    rw [if_pos hge, hwords, setWidth_addr]
    refine hblock.bind ?_
    dsimp only
    rw [hbytes]
    by_cases hrest : n % 4 = 0
    · rw [if_pos ((offset_eq_zero_iff n).mpr hrest), show 4 * (n / 4) = n by omega]
      exact performs_pure _ _
    · have hlast := readMemLast_performs (S := S) (m := m) h (w := w + n / 4) (n := n % 4) (by omega)
        (by omega) (by omega) (buf.setAll pos (M.bytes m (4 * w) (4 * (n / 4))))
        (pos + (M.bytes m (4 * w) (4 * (n / 4))).length)
      have hleft : BitVec.ofNat 64 n &&& 3 = BitVec.ofNat 64 (n % 4) := by
        apply BitVec.eq_of_toNat_eq
        rw [offset_toNat, BitVec.toNat_ofNat]
        omega
      rw [Buffer.setAll_append, Nat.mul_add, ← M.bytes_add, Nat.div_add_mod n 4, ← Nat.mul_add,
        length_bytes] at hlast
      rw [if_neg (mt (offset_eq_zero_iff n).mp hrest), addr_add_words w (by omega),
        wordsSize_toNat (by omega), hleft]
      exact hlast
  · have hlt : ¬BitVec.ofNat 64 n ≥ 4 := by
      rw [ge_iff_le, BitVec.le_def, hcount]
      exact hlen
    rw [if_neg hlt]
    exact readMemLast_performs h hlo (by omega) (by omega) buf pos

/-- The end of a read that fits is not cut. -/
theorem not_readsAbove {a n : Nat} (hend : a + n ≤ 2 ^ 32) :
    ¬BitVec.ofNat 64 a + BitVec.ofNat 64 n > maxAddress + 1 := by
  rw [gt_iff_lt, BitVec.lt_def, ← BitVec.ofNat_add, BitVec.toNat_ofNat]
  change ¬2 ^ 32 < (a + n) % 2 ^ 64
  omega

/-- A read that fits goes on after its checks. -/
theorem elveesReadMem_checked {a n : Nat} (hpos : 0 < n) (hend : a + n ≤ 2 ^ 32) :
    BitVec.ofNat 64 n > 0 ∧ ¬BitVec.ofNat 64 a > maxAddress ∧
      ¬BitVec.ofNat 64 a + BitVec.ofNat 64 n > maxAddress + 1 := by
  refine ⟨?_, not_above_of_lt (by omega), not_readsAbove hend⟩
  rw [gt_iff_lt, BitVec.lt_def, BitVec.toNat_ofNat]
  change 0 < n % 2 ^ 64
  omega

/-- The steps of a read from the start of a word on. -/
theorem elveesReadMem_aligned {a n : Nat} (hpos : 0 < n) (hend : a + n ≤ 2 ^ 32) (hoffset : a % 4 = 0)
    (buf : Buffer Byte) (actualSize : Nat) :
    elveesReadMem A (BitVec.ofNat 64 a) buf (BitVec.ofNat 64 n) actualSize =
      readMemWords A (BitVec.ofNat 64 (4 * (a / 4))) (BitVec.ofNat 64 n) buf 0 >>= fun buf =>
        pure (.ok, buf, n) := by
  obtain ⟨hsize, hstart, hstop⟩ := elveesReadMem_checked hpos hend
  have hcount : (BitVec.ofNat 64 n).toNat = n := by
    rw [BitVec.toNat_ofNat]
    omega
  rw [elveesReadMem, assert, if_pos hsize, pure_bind, if_neg hstart]
  dsimp only
  rw [if_neg hstop, if_neg (not_not.mpr ((offset_eq_zero_iff a).mpr hoffset)), hcount,
    show 4 * (a / 4) = a by omega]

/-- The steps of a read from within a word on: `j` bytes are taken out of that word. -/
theorem elveesReadMem_unaligned {a n : Nat} (hpos : 0 < n) (hend : a + n ≤ 2 ^ 32) (hoffset : a % 4 ≠ 0)
    (buf : Buffer Byte) (actualSize : Nat) :
    ∃ j, j ≤ n ∧ a % 4 + j ≤ 4 ∧ (j < n → a % 4 + j = 4) ∧
      elveesReadMem A (BitVec.ofNat 64 a) buf (BitVec.ofNat 64 n) actualSize =
        targetReadWord A (BitVec.ofNat 32 (4 * (a / 4))) >>= fun data =>
          if n - j = 0 then pure (.ok, buf.setAll 0 (((wordBytes data).drop (a % 4)).take j), n)
          else readMemWords A (BitVec.ofNat 64 (4 * (a / 4 + 1))) (BitVec.ofNat 64 (n - j))
              (buf.setAll 0 (((wordBytes data).drop (a % 4)).take j)) j >>= fun buf =>
            pure (.ok, buf, n) := by
  obtain ⟨hsize, hstart, hstop⟩ := elveesReadMem_checked hpos hend
  have hcount : (BitVec.ofNat 64 n).toNat = n := by
    rw [BitVec.toNat_ofNat]
    omega
  obtain ⟨j, hj⟩ : ∃ j, j = if 4 - a % 4 > n then n else 4 - a % 4 := ⟨_, rfl⟩
  have hfit : j ≤ n ∧ a % 4 + j ≤ 4 ∧ (j < n → a % 4 + j = 4) := by
    rw [hj]
    split_ifs <;> omega
  have hnbytes : (if 4 - (BitVec.ofNat 64 a &&& 3) > BitVec.ofNat 64 n then BitVec.ofNat 64 n
      else 4 - (BitVec.ofNat 64 a &&& 3)) = BitVec.ofNat 64 j := by
    have hleft : 4 - (BitVec.ofNat 64 a &&& 3) = BitVec.ofNat 64 (4 - a % 4) := by
      apply BitVec.eq_of_toNat_eq
      rw [BitVec.toNat_sub, offset_toNat, BitVec.toNat_ofNat]
      change (2 ^ 64 - a % 4 + 4) % 2 ^ 64 = _
      omega
    have hiff : BitVec.ofNat 64 (4 - a % 4) > BitVec.ofNat 64 n ↔ 4 - a % 4 > n := by
      rw [gt_iff_lt, BitVec.lt_def, hcount, BitVec.toNat_ofNat, Nat.mod_eq_of_lt (by omega)]
    rw [hleft, hj]
    simp only [hiff]
    split_ifs <;> rfl
  have hj' : (BitVec.ofNat 64 j).toNat = j := by
    rw [BitVec.toNat_ofNat]
    omega
  have hrest : BitVec.ofNat 64 n - BitVec.ofNat 64 j = BitVec.ofNat 64 (n - j) := by
    apply BitVec.eq_of_toNat_eq
    rw [BitVec.toNat_sub, hcount, hj', BitVec.toNat_ofNat]
    omega
  have hdone : BitVec.ofNat 64 (n - j) = 0 ↔ n - j = 0 := by
    rw [← BitVec.toNat_inj, BitVec.toNat_ofNat, Nat.mod_eq_of_lt (by omega)]
    rfl
  refine ⟨j, hfit.1, hfit.2.1, hfit.2.2, ?_⟩
  rw [elveesReadMem, assert, if_pos hsize, pure_bind, if_neg hstart]
  dsimp only
  rw [if_neg hstop, if_pos (mt (offset_eq_zero_iff a).mp hoffset), hnbytes, offset_toNat, aligned_addr,
    setWidth_addr, hj', hrest, hcount]
  refine congrArg (targetReadWord A _ >>= ·) (funext fun data => ?_)
  by_cases hnone : n - j = 0
  · rw [if_pos hnone, if_pos (hdone.mpr hnone)]
  · have hnext : BitVec.ofNat 64 a + BitVec.ofNat 64 j = BitVec.ofNat 64 (4 * (a / 4 + 1)) := by
      rw [← BitVec.ofNat_add]
      congr 1
      omega
    rw [if_neg hnone, if_neg (mt hdone.mp hnone), hnext]

/-- A read fills the buffer with the bytes of its range. -/
theorem elveesReadMem_performs (h : M.PlainWords lo hi) {a n : Nat} (hlo : lo ≤ a / 4) (hpos : 0 < n)
    (hhi : a + n ≤ 4 * hi) (buf : Buffer Byte) (actualSize : Nat) :
    Performs S.Holds (elveesReadMem A (BitVec.ofNat 64 a) buf (BitVec.ofNat 64 n) actualSize) m
      (.ok, buf.setAll 0 (M.bytes m a n), n) m := by
  have hbound := h.bound
  by_cases hoffset : a % 4 = 0
  · have hwords := readMemWords_performs (S := S) (m := m) h (w := a / 4) hlo hpos (by omega) buf 0
    rw [elveesReadMem_aligned hpos (by omega) hoffset]
    rw [show M.bytes m (4 * (a / 4)) n = M.bytes m a n by rw [show 4 * (a / 4) = a by omega]] at hwords
    exact hwords.bind (performs_pure _ _)
  · have hread := Serves.readWord_performs (S := S) (m := m) (BitVec.ofNat 32 (4 * (a / 4)))
    rw [← wordAddr, h.load_memory _ hlo (by omega)] at hread
    obtain ⟨j, hle, hin, hword, hsteps⟩ :=
      elveesReadMem_unaligned (A := A) hpos (by omega) hoffset buf actualSize
    have hbytes : ((wordBytes (M.load (wordAddr (a / 4)) m).1).drop (a % 4)).take j =
        M.bytes m a j := by
      have hmem := M.wordBytes_wordAt m (a / 4)
      rw [wordAt] at hmem
      rw [hmem, M.drop_bytes _ _ (by omega), M.take_bytes _ _ (by omega), Nat.div_add_mod a 4]
    rw [hsteps]
    refine hread.bind ?_
    rw [hbytes]
    by_cases hnone : n - j = 0
    · rw [if_pos hnone, show j = n by omega]
      exact performs_pure _ _
    · have hwords := readMemWords_performs (S := S) (m := m) h (w := a / 4 + 1) (by omega)
        (n := n - j) (by omega) (by omega) (buf.setAll 0 (M.bytes m a j))
        (0 + (M.bytes m a j).length)
      have hsplit := M.bytes_add m a j (n - j)
      rw [Buffer.setAll_append, show M.bytes m (4 * (a / 4 + 1)) (n - j) = M.bytes m (a + j) (n - j) by
        rw [show 4 * (a / 4 + 1) = a + j by omega], ← hsplit, show j + (n - j) = n by omega, Nat.zero_add,
        length_bytes] at hwords
      rw [if_neg hnone]
      exact hwords.bind (performs_pure _ _)

end Reading

end Mcprog
