import Mcprog.Remote.ReadAfterWrite

/-!
# The memory methods of the target

`elvees_read_mem` and `elvees_write_mem` over a memory of words, for every address and every
size: which bytes they read or change, and that there are no others.
-/

namespace Mcprog

open Cells Interaction Program AddressSpace

variable {σ : Type} {A : Adapter σ}

section Reading

variable {buf : Buffer Byte} {actualSize : Nat}

/-- How many bytes are there to be read. -/
def readSize (a : Word) (reqSize : BitVec 64) : Nat := min reqSize.toNat (2 ^ 32 - a.toNat)

/-- A read of `reqSize` bytes from `a` on: the number of bytes that there are, each in its place,
and no store behind them. -/
def ReadsRange (S : Serves A ram) (m : Word → Word) (s : Session σ) (a : Word) (reqSize : BitVec 64)
    (buf : Buffer Byte) (actualSize : Nat) : Prop :=
  ∃ buf' s', (elveesReadMem A (a.setWidth 64) buf reqSize actualSize).Reaches s
      (.ok, buf', readSize a reqSize) s' ∧ S.Holds m s' ∧
    (∀ k < readSize a reqSize, buf'.get k = ram.byteAt m (a.toNat + k)) ∧
    ∀ i ∈ buf'.stored, i ∈ buf.stored ∨ i < readSize a reqSize

/-- A request is cut where it goes on behind the last address. -/
theorem clipped_iff (a : Word) (n : BitVec 64) :
    a.setWidth 64 + n > maxAddress + 1 ↔ 2 ^ 32 < (a.toNat + n.toNat) % 2 ^ 64 := by
  have ha := a.isLt
  have hsum : (a.setWidth 64 + n).toNat = (a.toNat % 2 ^ 64 + n.toNat) % 2 ^ 64 := by
    rw [BitVec.toNat_add, BitVec.toNat_setWidth]
  rw [gt_iff_lt, BitVec.lt_def, hsum]
  change 2 ^ 32 < _ ↔ _
  omega

/-- Where the end does not wrap around, a read is one of the bytes that there are. -/
theorem elveesReadMem_clipped (a : Word) {reqSize : BitVec 64} (hpos : 0 < reqSize)
    (hsum : a.toNat + reqSize.toNat < 2 ^ 64) :
    elveesReadMem A (a.setWidth 64) buf reqSize actualSize =
      elveesReadMem A (BitVec.ofNat 64 a.toNat) buf (BitVec.ofNat 64 (readSize a reqSize)) actualSize := by
  have ha := a.isLt
  have haddr : a.setWidth 64 = BitVec.ofNat 64 a.toNat := by
    apply BitVec.eq_of_toNat_eq
    rw [BitVec.toNat_setWidth, BitVec.toNat_ofNat]
  have hreq : 0 < reqSize.toNat := BitVec.lt_def.mp hpos
  obtain ⟨n, hn⟩ : ∃ n, n = readSize a reqSize := ⟨_, rfl⟩
  have hsize : n = min reqSize.toNat (2 ^ 32 - a.toNat) := hn
  have hcount : (BitVec.ofNat 64 n).toNat = n := by
    rw [BitVec.toNat_ofNat]
    omega
  have hpos' : BitVec.ofNat 64 n > 0 := by
    rw [gt_iff_lt, BitVec.lt_def, hcount]
    change 0 < n
    omega
  have hclip : (if a.setWidth 64 + reqSize > maxAddress + 1 then maxAddress + 1 - a.setWidth 64
      else reqSize) = BitVec.ofNat 64 n := by
    apply BitVec.eq_of_toNat_eq
    rw [hcount]
    split
    · rename_i h
      rw [clipped_iff] at h
      have hmax : (maxAddress + 1).toNat = 2 ^ 32 := by decide
      rw [BitVec.toNat_sub, BitVec.toNat_setWidth, hmax]
      omega
    · rename_i h
      rw [clipped_iff] at h
      omega
  have hkeep : (if a.setWidth 64 + BitVec.ofNat 64 n > maxAddress + 1 then
      maxAddress + 1 - a.setWidth 64 else BitVec.ofNat 64 n) = BitVec.ofNat 64 n := by
    refine if_neg ?_
    rw [clipped_iff, hcount]
    omega
  rw [← haddr, ← hn, elveesReadMem, elveesReadMem, assert, if_pos hpos, assert, if_pos hpos']
  dsimp only
  rw [hclip, hkeep]

/-- The size that a read reports is the one that it was asked for, unless that is cut. -/
theorem elveesReadMem_size (addr reqSize : BitVec 64) :
    Ensures (elveesReadMem A addr buf reqSize actualSize) fun r => r.1 = .ok →
      r.2.2 = (if addr + reqSize > maxAddress + 1 then maxAddress + 1 - addr else reqSize).toNat := by
  rw [elveesReadMem]
  refine ensures_bind fun _ => ?_
  refine ensures_ite (fun _ => ensures_pure fun h => absurd h RetVal.noConfusion) fun _ => ?_
  refine ensures_ite (fun _ => ensures_bind fun data => ?_) fun _ => ?_
  · exact ensures_ite (fun _ => ensures_pure fun _ => rfl) fun _ =>
      ensures_bind fun buf' => ensures_pure fun _ => rfl
  · exact ensures_bind fun buf' => ensures_pure fun _ => rfl

/-- A range of one segment is read, as far as there are bytes, exactly where its end does not wrap
around; above the last address there is an error. -/
theorem elveesReadMem_readsRange_iff (S : Serves A ram) {m : Word → Word} {s : Session σ}
    (hs : S.Holds m s) (buf : Buffer Byte) (actualSize : Nat) (reqSize : BitVec 64) (hpos : 0 < reqSize) :
    (∀ a : Word, ¬Crosses a.toNat (readSize a reqSize) 0x80000000 →
      ¬Crosses a.toNat (readSize a reqSize) 0xA0000000 →
      (ReadsRange S m s a reqSize buf actualSize ↔ a.toNat + reqSize.toNat < 2 ^ 64)) ∧
    ∀ addr : BitVec 64, 2 ^ 32 ≤ addr.toNat →
      (elveesReadMem A addr buf reqSize actualSize).Reaches s (.err, buf, actualSize) s := by
  have hreq : 0 < reqSize.toNat := BitVec.lt_def.mp hpos
  constructor
  · intro a hcached huncached
    have ha := a.isLt
    constructor
    · rintro ⟨buf', s', ⟨tr, hr⟩, -, -, -⟩
      have hsize := elveesReadMem_size (a.setWidth 64) reqSize s _ tr s' hr rfl
      dsimp only at hsize
      by_contra hsum
      -- a sum that wraps around is small, so nothing is cut
      rw [if_neg (by rw [clipped_iff]; omega), readSize] at hsize
      omega
    · intro hsum
      obtain ⟨n, hn⟩ : ∃ n, n = readSize a reqSize := ⟨_, rfl⟩
      have hmin : n = min reqSize.toNat (2 ^ 32 - a.toNat) := hn
      rw [← hn] at hcached huncached
      have hlen : 0 < n := by omega
      have hend : a.toNat + n ≤ 2 ^ 32 := by omega
      have h := plainWords_of_ordinary (ram_ordinary (RangeWords a.toNat n)) hlen hend hcached huncached
      obtain ⟨s', hr, hs'⟩ := elveesReadMem_performs (S := S) (m := m) h le_rfl (by omega) (by omega)
        buf actualSize s hs
      refine ⟨buf.setAll 0 (ram.bytes m a.toNat n), s', ?_, hs', fun k hk => ?_, fun i hi => ?_⟩
      · rw [elveesReadMem_clipped a hpos hsum, ← hn]
        exact hr
      · rw [← hn] at hk
        have hbyte : (ram.bytes m a.toNat n)[k]? = some (ram.byteAt m (a.toNat + k)) := by
          rw [bytes, List.getElem?_map, List.getElem?_range hk]
          rfl
        have hget := buf.get_setAll 0 _ hbyte
        rwa [Nat.zero_add] at hget
      · rw [Buffer.mem_stored_setAll, length_bytes] at hi
        exact hi.imp_right fun h => by omega
  · intro addr haddr
    have hbad : addr > maxAddress := by
      rw [gt_iff_lt, BitVec.lt_def]
      change 0xFFFFFFFF < addr.toNat
      omega
    rw [elveesReadMem, assert, if_pos hpos]
    refine (reaches_pure () s).bind ?_
    rw [if_pos hbad]
    exact reaches_pure _ s

/-- Five bytes at the end of the addresses, of a request for eight. -/
theorem elveesReadMem_readsRange_end :
    (memoryAdapter_serves ram true true).Holds (fun _ => 0xFFFF) (idleSession fun _ => 0xFFFF) ∧
      (0 : BitVec 64) < 8 ∧
      ReadsRange (memoryAdapter_serves ram true true) (fun _ => 0xFFFF) (idleSession fun _ => 0xFFFF)
        0xFFFFFFFB 8 ⟨fun _ => 0, []⟩ 0 ∧
      (elveesReadMem (memoryAdapter ram true true) 0x100000000 ⟨fun _ => 0, []⟩ 8 0).Reaches
        (idleSession fun _ => 0xFFFF) (.err, ⟨fun _ => 0, []⟩, 0) (idleSession fun _ => 0xFFFF) := by
  have hs := idleSession_holds ram true true fun _ => 0xFFFF
  have hread := elveesReadMem_readsRange_iff (memoryAdapter_serves ram true true) hs
    ⟨fun _ => 0, []⟩ 0 8 (by decide)
  exact ⟨hs, by decide, (hread.1 0xFFFFFFFB (by decide) (by decide)).mpr (by decide),
    hread.2 0x100000000 (by decide)⟩

/-- A request whose end is the address 0 again. -/
theorem not_readsRange_wrapped :
    ¬Crosses (0xA0000000 : Word).toNat (readSize 0xA0000000 0xFFFFFFFF60000000) 0x80000000 ∧
    ¬Crosses (0xA0000000 : Word).toNat (readSize 0xA0000000 0xFFFFFFFF60000000) 0xA0000000 ∧
    ¬ReadsRange (memoryAdapter_serves ram true true) (fun _ => 0) (idleSession fun _ => 0)
      0xA0000000 0xFFFFFFFF60000000 ⟨fun _ => 0, []⟩ 0 := by
  refine ⟨by decide, by decide, ?_⟩
  rintro ⟨buf', s', ⟨tr, hr⟩, -, -, -⟩
  have hsize : readSize 0xA0000000 0xFFFFFFFF60000000 = _ := elveesReadMem_size _ _ _ _ tr s' hr rfl
  revert hsize
  decide

end Reading

/-- From `m` to `m'` only words at addresses with `W` have changed. -/
def ChangesOnly (W : Word → Prop) (m m' : Word → Word) : Prop := ∀ p, ¬W p → m' p = m p

/-- From `m` to `m'` the bytes of the memory that the range from `a` on names have become `d`, and
every other byte has stayed, at each of its addresses. -/
def WritesRange (m m' : Word → Word) (a : Nat) (d : List Byte) : Prop :=
  ∀ x : Word, ram.byteAt m' x.toNat =
    if (physical (BitVec.ofNat 32 a)).toNat ≤ (physical x).toNat ∧
        (physical x).toNat < (physical (BitVec.ofNat 32 a)).toNat + d.length
    then d.getD ((physical x).toNat - (physical (BitVec.ofNat 32 a)).toNat) 0
    else ram.byteAt m x.toNat

section Writing

variable {S : Serves A ram} {t : Target} {m m' m'' : Word → Word} {W : Word → Prop}

/-- Two steps that change only these words. -/
theorem ChangesOnly.trans (h : ChangesOnly W m m') (h' : ChangesOnly W m' m'') : ChangesOnly W m m'' :=
  fun p hp => (h' p hp).trans (h p hp)

theorem changesOnly_store {addr : Word} (h : W addr) (val : Word) (m : Word → Word) :
    ChangesOnly W m (ram.store addr val m) := by
  intro p hp
  have hne : p ≠ addr := fun heq => hp (by rwa [heq])
  exact Function.update_of_ne hne val m

/-- Stores of these words, by induction on them. -/
theorem changesOnly_storeAll (args : List (Word × Word)) (h : ∀ a ∈ args, W a.1) (m : Word → Word) :
    ChangesOnly W m (ram.storeAll args m) := by
  induction args generalizing m with
  | nil => exact fun _ _ => rfl
  | cons a args ih =>
    exact (changesOnly_store (h a List.mem_cons_self) a.2 m).trans
      (ih (fun a' ha' => h a' (List.mem_cons_of_mem a ha')) _)

/-- The tail of a write. -/
theorem writeMemLast_changesOnly {w : Nat} (h : W (wordAddr w)) (buf : List Byte) :
    ∃ m', Performs S.Holds (writeMemLast A t (BitVec.ofNat 64 (4 * w)) buf) m () m' ∧ ChangesOnly W m m' := by
  refine ⟨_, (Serves.readWord_performs _).bind (Serves.writeWord_performs _ _), ?_⟩
  rw [setWidth_addr]
  exact changesOnly_store h _ m

/-- The words of a write and what is left after them. -/
theorem writeMemWords_changesOnly {w : Nat} (buf : List Byte) (hend : 4 * w + buf.length ≤ 2 ^ 32)
    (hblock : ∀ p ∈ blockPlaces A.writeBlock.isSome (buf.length / 4) (BitVec.ofNat 32 (4 * w)), W p)
    (hlast : buf.length % 4 ≠ 0 → W (wordAddr (w + buf.length / 4))) (hpos : 0 < buf.length) :
    ∃ m', Performs S.Holds (writeMemWords A t (BitVec.ofNat 64 (4 * w)) buf) m () m' ∧
      ChangesOnly W m m' := by
  unfold writeMemWords
  by_cases hlen : buf.length ≥ 4
  · obtain ⟨n, hn⟩ : ∃ n, n = buf.length / 4 := ⟨_, rfl⟩
    have hcount : (BitVec.ofNat 32 n).toNat = n := by
      rw [BitVec.toNat_ofNat]
      omega
    rw [← hn] at hblock hlast
    rw [if_pos hlen, setWidth_addr, ← hn]
    have hwords := Serves.writeBlock_performs (S := S) (t := t) (m := m) (BitVec.ofNat 32 (4 * w))
      (BitVec.ofNat 32 n) (fun i => setBytes 0 0 ((buf.drop (4 * i)).take 4)) (by omega)
    rw [hcount] at hwords
    have hchange : ChangesOnly W m _ := changesOnly_storeAll
      ((blockPlaces A.writeBlock.isSome n (BitVec.ofNat 32 (4 * w))).zip
        (wordsOf n fun i => setBytes 0 0 ((buf.drop (4 * i)).take 4)))
      (fun a ha => hblock a.1 (List.of_mem_zip ha).1) m
    by_cases hrest : buf.length % 4 = 0
    · refine ⟨_, hwords.bind ?_, hchange⟩
      rw [if_pos hrest]
      exact performs_pure _ _
    · obtain ⟨m', htail, hchange'⟩ := writeMemLast_changesOnly (S := S) (t := t) (hlast hrest)
        (m := ram.storeAll ((blockPlaces A.writeBlock.isSome n (BitVec.ofNat 32 (4 * w))).zip
          (wordsOf n fun i => setBytes 0 0 ((buf.drop (4 * i)).take 4))) m)
        (buf.drop (4 * n))
      refine ⟨m', hwords.bind ?_, hchange.trans hchange'⟩
      rw [if_neg hrest]
      by_cases hsmall : n < 2 ^ 30
      · rw [addr_add_words w hsmall, wordsSize_toNat hsmall]
        exact htail
      · omega
  · rw [if_neg hlen]
    have hzero : buf.length / 4 = 0 := by omega
    rw [hzero] at hlast
    exact writeMemLast_changesOnly (hlast (by omega)) buf

/-- A write answers, and changes words of its range only. -/
theorem elveesWriteMem_changesOnly {a : Nat} {d : List Byte} (hpos : 0 < d.length)
    (hend : a + d.length ≤ 2 ^ 32) (hword : ∀ w, a / 4 ≤ w → 4 * w < a + d.length → W (wordAddr w))
    (hblock : ∀ w n, a ≤ 4 * w → 4 * (w + n) ≤ a + d.length →
      ∀ p ∈ blockPlaces A.writeBlock.isSome n (BitVec.ofNat 32 (4 * w)), W p) :
    ∃ m', Performs S.Holds (elveesWriteMem A t (BitVec.ofNat 64 a) d) m .ok m' ∧ ChangesOnly W m m' := by
  by_cases hoffset : a % 4 = 0
  · obtain ⟨m', hwords, hchange⟩ := writeMemWords_changesOnly (S := S) (t := t) (m := m) (w := a / 4) d
      (by omega) (hblock (a / 4) _ (by omega) (by omega)) (fun _ => hword _ (by omega) (by omega)) hpos
    rw [elveesWriteMem_aligned hpos hend hoffset]
    exact ⟨m', hwords.bind (performs_pure _ _), hchange⟩
  · obtain ⟨n, hle, -, hfit, hsteps⟩ := elveesWriteMem_unaligned (A := A) (t := t) hpos hend hoffset
    obtain ⟨m₁, hwrite, hchange⟩ : ∃ m₁, Performs S.Holds (targetWriteWord A t
        (BitVec.ofNat 32 (4 * (a / 4))) (setBytes (m (wordAddr (a / 4))) (a % 4) (d.take n))) m () m₁ ∧
        ChangesOnly W m m₁ :=
      ⟨_, Serves.writeWord_performs _ _, changesOnly_store (hword _ le_rfl (by omega)) _ m⟩
    have hread : Performs S.Holds (targetReadWord A (BitVec.ofNat 32 (4 * (a / 4)))) m
      (m (wordAddr (a / 4))) m := Serves.readWord_performs (S := S) (m := m) _
    rw [hsteps]
    by_cases hrest : d.length - n = 0
    · refine ⟨m₁, hread.bind (hwrite.bind ?_), hchange⟩
      rw [if_pos hrest]
      exact performs_pure _ _
    · have hleft : (d.drop n).length = d.length - n := List.length_drop
      obtain ⟨m', hwords, hchange'⟩ := writeMemWords_changesOnly (S := S) (t := t) (m := m₁)
        (w := a / 4 + 1) (d.drop n) (by omega) (hblock _ _ (by omega) (by omega))
        (fun _ => hword _ (by omega) (by omega)) (by omega)
      refine ⟨m', hread.bind (hwrite.bind ?_), hchange.trans hchange'⟩
      rw [if_neg hrest]
      exact hwords.bind (performs_pure _ _)

/-- The place of a word, as a number. -/
theorem wordAddr_toNat {w : Nat} (hw : w < 2 ^ 30) : (wordAddr w).toNat =
    if 0xA0000000 ≤ 4 * w then 4 * w - 0xA0000000
    else if 0x80000000 ≤ 4 * w then 4 * w - 0x80000000 else 4 * w := by
  rw [wordAddr, physical_toNat, BitVec.toNat_ofNat, Nat.mod_eq_of_lt (by omega)]

theorem four_dvd_wordAddr {w : Nat} (hw : w < 2 ^ 30) : 4 ∣ (wordAddr w).toNat := by
  rw [wordAddr_toNat hw]
  split_ifs <;> omega

/-- A byte stands behind the start of its word. -/
theorem physical_eq_wordAddr_add {x : Nat} (hx : x < 2 ^ 32) :
    (physical (BitVec.ofNat 32 x)).toNat = (wordAddr (x / 4)).toNat + x % 4 := by
  rw [physical_toNat, BitVec.toNat_ofNat, Nat.mod_eq_of_lt hx, wordAddr_toNat (by omega)]
  split_ifs <;> omega

/-- Two bytes are at one place if they are the same byte of one word. -/
theorem physical_eq_iff {x y : Nat} (hx : x < 2 ^ 32) (hy : y < 2 ^ 32) :
    (physical (BitVec.ofNat 32 x)).toNat = (physical (BitVec.ofNat 32 y)).toNat ↔
      wordAddr (x / 4) = wordAddr (y / 4) ∧ x % 4 = y % 4 := by
  have hwordx := four_dvd_wordAddr (show x / 4 < 2 ^ 30 by omega)
  have hwordy := four_dvd_wordAddr (show y / 4 < 2 ^ 30 by omega)
  rw [physical_eq_wordAddr_add hx, physical_eq_wordAddr_add hy, ← BitVec.toNat_inj]
  omega

/-- In one segment the places of a range follow one another. -/
theorem physical_toNat_add {a n k : Nat} (hcached : ¬Crosses a n 0x80000000) (huncached : ¬Crosses a n 0xA0000000)
    (hend : a + n ≤ 2 ^ 32) (hk : k < n) :
    (physical (BitVec.ofNat 32 (a + k))).toNat = (physical (BitVec.ofNat 32 a)).toNat + k := by
  rw [Crosses] at hcached huncached
  rw [physical_toNat, physical_toNat, BitVec.toNat_ofNat, BitVec.toNat_ofNat,
    Nat.mod_eq_of_lt (show a + k < 2 ^ 32 by omega), Nat.mod_eq_of_lt (show a < 2 ^ 32 by omega)]
  split_ifs <;> omega

/-- A write of a range of one segment changes its bytes, and no others anywhere. -/
theorem writesRange_of_writes {a : Nat} {d : List Byte} (hend : a + d.length ≤ 2 ^ 32)
    (hcached : ¬Crosses a d.length 0x80000000) (huncached : ¬Crosses a d.length 0xA0000000)
    (hwrites : ram.Writes (a / 4) ((a + d.length + 3) / 4) a d m m')
    (hchange : ChangesOnly (RangeWords a d.length) m m') : WritesRange m m' a d := by
  intro x
  have hx := x.isLt
  have hxNat : BitVec.ofNat 32 x.toNat = x := by
    rw [BitVec.ofNat_toNat, BitVec.setWidth_eq]
  obtain ⟨q, hq⟩ : ∃ q, q = (physical (BitVec.ofNat 32 a)).toNat := ⟨_, rfl⟩
  obtain ⟨p, hp⟩ : ∃ p, p = (physical x).toNat := ⟨_, rfl⟩
  have hname : ∀ k < d.length, (physical (BitVec.ofNat 32 (a + k))).toNat = q + k := fun k hk => by
    rw [hq]
    exact physical_toNat_add hcached huncached hend hk
  rw [← hq, ← hp]
  by_cases hin : q ≤ p ∧ p < q + d.length
  · -- the byte has a name in the range
    obtain ⟨k, hk⟩ := Nat.exists_eq_add_of_le hin.1
    have hlt : k < d.length := by omega
    obtain ⟨hword, hmod⟩ := (physical_eq_iff hx (show a + k < 2 ^ 32 by omega)).mp (by
      rw [hxNat, ← hp, hname k hlt, hk])
    rw [if_pos hin, byteAt, wordAt, hword, hmod]
    refine (hwrites (a + k) (by omega) (by omega)).trans ?_
    rw [if_pos (by omega), show a + k - a = p - q by omega]
  · rw [if_neg hin]
    by_cases hword : RangeWords a d.length (wordAddr (x.toNat / 4))
    · -- another byte of a word of the range
      obtain ⟨z, hzlo, hzhi, hz⟩ := hword
      obtain ⟨y, hy⟩ : ∃ y, y = 4 * (z / 4) + x.toNat % 4 := ⟨_, rfl⟩
      have hdiv : y / 4 = z / 4 := by omega
      have hmod : y % 4 = x.toNat % 4 := by omega
      have hsame := (physical_eq_iff (show y < 2 ^ 32 by omega) hx).mpr ⟨by rw [hdiv, hz], hmod⟩
      have hout : ¬(a ≤ y ∧ y < a + d.length) := by
        rintro ⟨hlo, hhi⟩
        obtain ⟨k, rfl⟩ := Nat.exists_eq_add_of_le hlo
        rw [hname k (by omega), hxNat, ← hp] at hsame
        omega
      have hkeep := hwrites y (by omega) (by omega)
      rw [if_neg hout, byteAt, byteAt, hdiv, hmod] at hkeep
      rw [byteAt, byteAt, wordAt, wordAt, hz]
      exact hkeep
    · rw [byteAt, byteAt, wordAt, wordAt]
      exact congrArg (byteOf · _) (hchange _ hword)

/-- The words of a block in one segment are words of the range. -/
theorem rangeWords_block {a n : Nat} (h : ram.PlainWords (a / 4) ((a + n + 3) / 4)) (hn : n ≤ 2 ^ 31)
    (fast : Bool) {w k : Nat} (hlo : a ≤ 4 * w) (hhi : 4 * (w + k) ≤ a + n) (p : Word)
    (hp : p ∈ blockPlaces fast k (BitVec.ofNat 32 (4 * w))) : RangeWords a n p := by
  have hbound := h.bound
  have hcount : (BitVec.ofNat 32 k).toNat = k := by
    rw [BitVec.toNat_ofNat]
    omega
  have hplaces := (blockPlaces_eq_iff fast _ _).mpr (h.inPlace fast (w := w) (n := k) (by omega) (by omega))
  rw [hcount] at hplaces
  rw [hplaces] at hp
  obtain ⟨p', hp', rfl⟩ := List.mem_map.mp hp
  obtain ⟨j, hj⟩ := List.mem_iff_getElem?.mp hp'
  have hjk : j < k := by
    rw [← length_wordSteps k (BitVec.ofNat 32 (4 * w))]
    exact (List.getElem?_eq_some_iff.mp hj).1
  rw [getElem?_wordSteps hjk] at hj
  have hstep : BitVec.ofNat 32 (4 * w) + 4 * BitVec.ofNat 32 j = BitVec.ofNat 32 (4 * (w + j)) := by
    rw [Nat.mul_add, BitVec.ofNat_add, BitVec.ofNat_mul 4 j]
    rfl
  refine ⟨4 * (w + j), by omega, by omega, ?_⟩
  rw [← Option.some.inj hj, hstep, wordAddr, Nat.mul_div_cancel_left _ (by omega)]

/-- A write beyond the last address is refused without any access. Any other one is done, and in
one segment it changes the bytes of its range and no others. No array has 2^63 bytes. -/
theorem elveesWriteMem_writesRange (S : Serves A ram) {m : Word → Word} {s : Session σ}
    (hs : S.Holds m s) (t : Target) (addr : BitVec 64) (d : List Byte) (hd : d.length < 2 ^ 63) :
    (0 < d.length ∧ 2 ^ 32 < addr.toNat + d.length → (elveesWriteMem A t addr d).Returns s .err [] s) ∧
    (¬(0 < d.length ∧ 2 ^ 32 < addr.toNat + d.length) →
      ∃ m' s', (elveesWriteMem A t addr d).Reaches s .ok s' ∧ S.Holds m' s' ∧
        (¬Crosses addr.toNat d.length 0x80000000 → ¬Crosses addr.toNat d.length 0xA0000000 →
          WritesRange m m' addr.toNat d)) := by
  have haddr : BitVec.ofNat 64 addr.toNat = addr := by
    rw [BitVec.ofNat_toNat, BitVec.setWidth_eq]
  have hlast : (addr + BitVec.ofNat 64 d.length - 1 > maxAddress) ↔
      0xFFFFFFFF < (2 ^ 64 - 1 + (addr.toNat + d.length) % 2 ^ 64) % 2 ^ 64 := by
    rw [gt_iff_lt, BitVec.lt_def, BitVec.toNat_sub, BitVec.toNat_add, BitVec.toNat_ofNat,
      Nat.mod_eq_of_lt (a := d.length) (by omega)]
    rfl
  constructor
  · rintro ⟨hpos, hend⟩
    rw [elveesWriteMem, if_neg (by omega)]
    by_cases hstart : addr > maxAddress
    · rw [if_pos hstart]
      exact returns_pure_iff.mpr ⟨rfl, rfl, rfl⟩
    · have hle : addr.toNat ≤ 0xFFFFFFFF := by
        rw [gt_iff_lt, BitVec.lt_def] at hstart
        change ¬0xFFFFFFFF < addr.toNat at hstart
        omega
      rw [if_neg hstart, if_pos (hlast.mpr (by omega))]
      exact returns_pure_iff.mpr ⟨rfl, rfl, rfl⟩
  · intro hfits
    by_cases hpos : 0 < d.length
    · have hend : addr.toNat + d.length ≤ 2 ^ 32 := by omega
      by_cases hcross : ¬Crosses addr.toNat d.length 0x80000000 ∧ ¬Crosses addr.toNat d.length 0xA0000000
      · have h := plainWords_of_ordinary (ram_ordinary (RangeWords addr.toNat d.length)) hpos hend
          hcross.1 hcross.2
        have hsize : d.length ≤ 2 ^ 31 := by
          rw [Crosses, Crosses] at hcross
          omega
        obtain ⟨m₁, hwrite, hwrites⟩ := elveesWriteMem_performs (S := S) (t := t) (m := m) h le_rfl
          hpos (by omega)
        obtain ⟨m₂, hkeep, hchange⟩ := elveesWriteMem_changesOnly (S := S) (t := t) (m := m)
          (W := RangeWords addr.toNat d.length) hpos hend
          (fun w hlo hhi => ⟨max addr.toNat (4 * w), by omega, by omega,
            by rw [show max addr.toNat (4 * w) / 4 = w by omega]⟩)
          fun w n hlo hhi => rangeWords_block h hsize _ hlo hhi
        rw [haddr] at hwrite hkeep
        obtain ⟨s₁, hr₁, hs₁⟩ := hwrite s hs
        obtain ⟨s₂, hr₂, hs₂⟩ := hkeep s hs
        -- both are the one run there is
        obtain rfl := (hr₁.unique hr₂).2
        have hsame : m₁ = m₂ := hs₁.memory.symm.trans hs₂.memory
        rw [← hsame] at hchange
        exact ⟨m₁, s₁, hr₁, hs₁, fun hcached huncached =>
          writesRange_of_writes hend hcached huncached hwrites hchange⟩
      · obtain ⟨m', hwrite, -⟩ := elveesWriteMem_changesOnly (S := S) (t := t) (m := m)
          (W := fun _ => True) hpos hend (fun _ _ _ => trivial) fun _ _ _ _ _ _ => trivial
        rw [haddr] at hwrite
        obtain ⟨s', hr, hs'⟩ := hwrite s hs
        exact ⟨m', s', hr, hs', fun hcached huncached => absurd ⟨hcached, huncached⟩ hcross⟩
    · refine ⟨m, s, ?_, hs, fun _ _ x => ?_⟩
      · rw [elveesWriteMem, if_pos (by omega)]
        exact reaches_pure _ s
      · rw [if_neg (by omega)]

/-- Three bytes across two words of the uncached segment, and a byte more than there is. -/
theorem elveesWriteMem_writesRange_three :
    (elveesWriteMem (memoryAdapter ram true true) Target.allocated 0xFFFFFFFF [1, 2]).Returns
        (idleSession fun _ => 0) .err [] (idleSession fun _ => 0) ∧
      ∃ m' s', (elveesWriteMem (memoryAdapter ram true true) Target.allocated 0xA0000003 [1, 2, 3]).Reaches
          (idleSession fun _ => 0) .ok s' ∧ (memoryAdapter_serves ram true true).Holds m' s' ∧
        WritesRange (fun _ => 0) m' 0xA0000003 [1, 2, 3] := by
  have hs := idleSession_holds ram true true fun _ => 0
  refine ⟨(elveesWriteMem_writesRange (memoryAdapter_serves ram true true) hs Target.allocated 0xFFFFFFFF
    [1, 2] (by decide)).1 (by decide), ?_⟩
  obtain ⟨m', s', hr, hs', hwrites⟩ := (elveesWriteMem_writesRange (memoryAdapter_serves ram true true) hs
    Target.allocated 0xA0000003 [1, 2, 3] (by decide)).2 (by decide)
  exact ⟨m', s', hr, hs', hwrites (by decide) (by decide)⟩

end Writing

end Mcprog
