import Mcprog.Target.BlockAccess
import Mcprog.Target.FlashDetect

/-!
# Checking that a chip is clean

`check_clean` takes the addresses of the chip from the address by its size, where `target_erase` looks
up the region. It reads the chip by chunks and stops at the first word that is not erased. The memory
is one that notes the addresses of its loads.
-/

namespace Mcprog

open Interaction Program

variable {σ : Type}

/-- The size of the buffer in bytes. -/
def cleanSz : Word := 64 * 1024

/-- The loop over the chunks from an offset on. The fuel bounds their number: the offset is back at its
start after so many steps. -/
def checkChunks (A : Adapter σ) (addr last : Word) : Nat → Word → Action σ Bool
  | 0, offset => if addr + offset < last then Program.stop .fuel else pure true
  | fuel + 1, offset =>
    if addr + offset < last then do
      let sz := if cleanSz + offset > last then last - offset else cleanSz
      let mem ← targetReadBlock A (addr + offset) (sz / 4)
      if mem.any (· ≠ 0xFFFFFFFF) then return false
      else checkChunks A addr last fuel (offset + cleanSz)
    else pure true

/-- Check chip clean. -/
def checkClean (A : Adapter σ) (t : Target) (addr : Word) : Action σ Bool :=
  let memSize := t.flashBytes
  let addr := addr &&& ~~~(memSize - 1)
  checkChunks A addr (addr + memSize) (2 ^ 16) 0

/-- A memory that notes the addresses of its loads. -/
def loadLog : AddressSpace ((Word → Word) × List Word) where
  store addr val m := (fun a => if a = addr then val else m.1 a, m.2)
  load addr m := (m.1 addr, (m.1, m.2 ++ [addr]))

/-- The log of loads gets longer by their addresses. -/
theorem loadLog_loadAll (addrs : List Word) (f : Word → Word) (log : List Word) :
    loadLog.loadAll addrs (f, log) = (addrs.map f, (f, log ++ addrs)) := by
  induction addrs generalizing log with
  | nil => rw [List.append_nil]; rfl
  | cons addr addrs ih =>
    rw [AddressSpace.loadAll_cons]
    change (f addr :: (loadLog.loadAll addrs (f, log ++ [addr])).1,
      (loadLog.loadAll addrs (f, log ++ [addr])).2) = _
    rw [ih, List.append_assoc]
    rfl

/-- Every word of a range is erased. -/
def Erased (f : Word → Word) (base bytes : Word) : Prop :=
  ∀ a ∈ wordSteps (bytes.toNat / 4) base, f a = 0xFFFFFFFF

/-- A word lies in a range of bytes. -/
def Within (base bytes a : Word) : Prop :=
  base.toNat ≤ a.toNat ∧ a.toNat + 4 ≤ base.toNat + bytes.toNat

/-- The check answers, whatever the memory holds, whether the chip at a base is erased, and reads
nothing but this chip. -/
def ChecksChip (t : Target) (addr base : Word) : Prop :=
  ∀ ⦃σ : Type⦄ ⦃A : Adapter σ⦄ (S : Serves A loadLog) (f : Word → Word) (s : Session σ),
    S.Holds (f, []) s → ∃ clean log s', (checkClean A t addr).Reaches s clean s' ∧
      S.Holds (f, log) s' ∧ (clean = true ↔ Erased f base t.flashBytes) ∧
      ∀ a ∈ log, Within base t.flashBytes a

/-- The size of the flash memory is one that the detection sets. -/
def Detected (t : Target) : Prop :=
  ∃ count dev c, findChip (flashVariant count) dev = some c ∧ t.flashBytes = c.bytes (flashVariant count)

/-- A detection that finds a chip sets its size. -/
theorem targetFlashDetect_detected (A : Adapter σ) (t : Target) (addr : Word) (id : FlashId) :
    (targetFlashDetect A t addr id).Ensures fun d => d.found.isSome → Detected d.target := by
  intro s d tr s' hrun hfound
  obtain ⟨⟨count, c⟩, hc⟩ := Option.isSome_iff_exists.mp hfound
  obtain ⟨hchip, hparams⟩ := targetFlashDetect_ensures A t addr id s d tr s' hrun count c hc
  exact ⟨count, d.id.dev, c, hchip, congrArg FlashParams.flashBytes hparams⟩

/-- The sizes of the chips on every bus they are found on. -/
theorem flashChips_bytes : ∀ count < 6, ∀ c ∈ flashChips,
    c.byteWide = false ∨ (flashVariant count).flashWidth = 8 →
      ∃ k < 9, c.bytes (flashVariant count) = BitVec.ofNat 32 (2 ^ (k + 19)) := by
  decide

/-- A detected size is a power of two, from 512 kbytes to 128 Mbytes. -/
theorem Detected.size {t : Target} (h : Detected t) :
    ∃ k, 19 ≤ k ∧ k ≤ 27 ∧ t.flashBytes.toNat = 2 ^ k := by
  obtain ⟨count, dev, c, hchip, hbytes⟩ := h
  obtain ⟨hfind, hwide⟩ := Option.filter_eq_some_iff.mp hchip
  have hcount : flashVariant count = flashVariant (count % 6) := flashVariant_congr (Nat.mod_mod _ _).symm
  rw [hcount] at hbytes hwide
  obtain ⟨k, hk, hsize⟩ := flashChips_bytes (count % 6) (Nat.mod_lt _ (by decide)) c
    (List.mem_of_find?_eq_some hfind) (by simpa using hwide)
  refine ⟨k + 19, by omega, by omega, ?_⟩
  rw [hbytes, hsize, BitVec.toNat_ofNat]
  exact Nat.mod_eq_of_lt (Nat.pow_lt_pow_right (by decide) (by omega))

/-- Multiples of a number are at least that number apart. -/
theorem add_le_of_dvd {a b d : Nat} (ha : d ∣ a) (hb : d ∣ b) (h : a < b) : a + d ≤ b := by
  have hle := Nat.le_of_dvd (Nat.sub_pos_of_lt h) (Nat.dvd_sub hb ha)
  omega

section Places

variable {size addr : Word} {k : Nat} (hsize : size.toNat = 2 ^ k)

include hsize in
/-- An address without its low bits is the multiple of the size below it. -/
theorem alignDown_toNat : (addr &&& ~~~(size - 1)).toNat = addr.toNat - addr.toNat % 2 ^ k := by
  have hpos : 0 < 2 ^ k := Nat.two_pow_pos k
  have hmask : (size - 1).toNat = 2 ^ k - 1 := by
    rw [BitVec.toNat_sub_of_le (BitVec.le_def.mpr (by rw [hsize]; exact hpos)), hsize]
    rfl
  have hdisjoint : (addr &&& ~~~(size - 1)) &&& (addr &&& (size - 1)) = 0#32 := by
    ext i
    simp only [BitVec.getElem_and, BitVec.getElem_not, BitVec.getElem_zero]
    cases (size - 1)[i] <;> simp
  have hjoin : (addr &&& ~~~(size - 1)) ||| (addr &&& (size - 1)) = addr := by
    ext i
    simp only [BitVec.getElem_or, BitVec.getElem_and, BitVec.getElem_not]
    cases (size - 1)[i] <;> simp
  have hlow : (addr &&& (size - 1)).toNat = addr.toNat % 2 ^ k := by
    rw [BitVec.toNat_and, hmask, Nat.and_two_pow_sub_one_eq_mod]
  have hsum := BitVec.toNat_add_of_and_eq_zero hdisjoint
  rw [BitVec.add_eq_or_of_and_eq_zero _ _ hdisjoint, hjoin, hlow] at hsum
  omega

/-- A multiple of the size is not above the aligned address unless it is above the address. -/
theorem le_alignDown_iff {x a d : Nat} (hd : 0 < d) (hx : d ∣ x) : x ≤ a - a % d ↔ x ≤ a := by
  obtain ⟨q, rfl⟩ := hx
  have hdiv := Nat.div_add_mod a d
  constructor
  · intro h
    omega
  · intro h
    have hq : q ≤ a / d := (Nat.le_div_iff_mul_le hd).mpr (by rw [Nat.mul_comm]; exact h)
    have hmul := Nat.mul_le_mul_left d hq
    omega

variable (hk : k ≤ 27)

include hk in
/-- The segments are whole numbers of sectors. -/
theorem size_dvd_segments : 2 ^ k ∣ 2 ^ 28 ∧ 2 ^ k ∣ 0x80000000 ∧ 2 ^ k ∣ 0xA0000000 := by
  have hsmall : 2 ^ k ∣ 2 ^ 28 := Nat.pow_dvd_pow 2 (by omega)
  exact ⟨hsmall, hsmall.trans ⟨8, rfl⟩, hsmall.trans ⟨10, rfl⟩⟩

include hsize hk in
/-- Mapping the segment commutes with the alignment. -/
theorem physical_alignDown : (physical (addr &&& ~~~(size - 1))).toNat =
    (physical addr).toNat - (physical addr).toNat % 2 ^ k := by
  obtain ⟨hsmall, hlow, hhigh⟩ := size_dvd_segments hk
  have hmod : (physical addr).toNat % 2 ^ k = addr.toNat % 2 ^ k := by
    have h := congrArg (· % 2 ^ k) (physical_mod addr)
    simpa only [Nat.mod_mod_of_dvd _ hsmall] using h
  have hpos : 0 < 2 ^ k := Nat.two_pow_pos k
  rw [hmod, physical_toNat, physical_toNat, alignDown_toNat hsize, if_congr (le_alignDown_iff hpos hhigh) rfl rfl]
  simp only [le_alignDown_iff hpos hlow]
  split_ifs <;> omega

include hk in
/-- The bytes of an aligned chip are in one segment. -/
theorem physical_add {start offset : Word} (hstart : 2 ^ k ∣ start.toNat)
    (hoffset : offset.toNat < 2 ^ k) : physical (start + offset) = physical start + offset := by
  obtain ⟨hsmall, hlow, hhigh⟩ := size_dvd_segments hk
  have hlt := start.isLt
  have hfull := add_le_of_dvd hstart (hsmall.trans ⟨16, rfl⟩) hlt
  have hsum : (start + offset).toNat = start.toNat + offset.toNat := BitVec.toNat_add_of_lt (by omega)
  have hsame : ∀ {x}, 2 ^ k ∣ x → (x ≤ start.toNat + offset.toNat ↔ x ≤ start.toNat) := by
    intro x hx
    refine ⟨fun h => ?_, fun h => by omega⟩
    by_contra hnot
    have hbelow := add_le_of_dvd hstart hx (not_le.mp hnot)
    omega
  apply BitVec.eq_of_toNat_eq
  rw [BitVec.toNat_add, physical_toNat, physical_toNat, hsum]
  simp only [hsame hlow, hsame hhigh]
  split_ifs <;> omega

end Places

/-- The words of a block by their numbers. -/
theorem mem_wordSteps {a addr : Word} {n : Nat} :
    a ∈ wordSteps n addr ↔ ∃ i < n, a = addr + 4 * BitVec.ofNat 32 i := by
  rw [List.mem_iff_getElem?]
  constructor
  · rintro ⟨i, hi⟩
    have hlt : i < n := by
      rw [← length_wordSteps n addr]
      exact (List.getElem?_eq_some_iff.mp hi).1
    rw [getElem?_wordSteps hlt] at hi
    exact ⟨i, hlt, (Option.some.inj hi).symm⟩
  · rintro ⟨i, hlt, rfl⟩
    exact ⟨i, getElem?_wordSteps hlt addr⟩

/-- The offset of a chunk. -/
def chunkAt (i : Nat) : Word := BitVec.ofNat 32 (65536 * i)

/-- A range that the loop goes through chunk by chunk. -/
structure Chunks (start phys last : Word) (n : Nat) : Prop where
  end_eq : last.toNat = start.toNat + 65536 * n
  place : ∀ fast, ∀ i < n,
    blockPlaces fast 16384 (start + chunkAt i) = wordSteps 16384 (phys + chunkAt i)

section Chunks

variable {A : Adapter σ} {S : Serves A loadLog} {f : Word → Word} {start phys last : Word} {n : Nat}

theorem chunkAt_succ (i : Nat) : chunkAt (i + 1) = chunkAt i + cleanSz := by
  rw [chunkAt, chunkAt, Nat.mul_succ, BitVec.ofNat_add]
  rfl

/-- The words of a chunk, and those behind it. -/
theorem wordSteps_chunk (m i : Nat) (phys : Word) : wordSteps (16384 * (m + 1)) (phys + chunkAt i) =
    wordSteps 16384 (phys + chunkAt i) ++ wordSteps (16384 * m) (phys + chunkAt (i + 1)) := by
  rw [Nat.mul_succ, Nat.add_comm, wordSteps_add, chunkAt_succ, ← BitVec.add_assoc]
  rfl

theorem Chunks.chunkAt_toNat (h : Chunks start phys last n) {i : Nat} (hi : i ≤ n) :
    (chunkAt i).toNat = 65536 * i ∧ (start + chunkAt i).toNat = start.toNat + 65536 * i := by
  have hlast := last.isLt
  rw [h.end_eq] at hlast
  have hoffset : (chunkAt i).toNat = 65536 * i := by
    rw [chunkAt, BitVec.toNat_ofNat]
    omega
  refine ⟨hoffset, ?_⟩
  rw [BitVec.toNat_add_of_lt (by omega), hoffset]

/-- A chunk inside the range is read as a whole. -/
theorem Chunks.step (h : Chunks start phys last n) {i fuel : Nat} (hi : i < n) :
    checkChunks A start last (fuel + 1) (chunkAt i) = (do
      let mem ← targetReadBlock A (start + chunkAt i) 16384
      if mem.any (· ≠ 0xFFFFFFFF) then return false
      else checkChunks A start last fuel (chunkAt (i + 1))) := by
  obtain ⟨hoffset, haddr⟩ := h.chunkAt_toNat hi.le
  have hend := h.end_eq
  have hbelow : start + chunkAt i < last := by
    rw [BitVec.lt_def, haddr, hend]
    omega
  have hnext := (h.chunkAt_toNat (Nat.succ_le_of_lt hi)).1
  have hfits : ¬ cleanSz + chunkAt i > last := by
    rw [BitVec.add_comm, ← chunkAt_succ, gt_iff_lt, BitVec.lt_def, hnext, hend]
    omega
  rw [checkChunks, if_pos hbelow, if_neg hfits, ← chunkAt_succ]
  rfl

/-- Behind the end the loop ends. -/
theorem checkChunks_end {addr offset : Word} (h : ¬ addr + offset < last) (fuel : Nat) :
    checkChunks A addr last fuel offset = pure true := by
  cases fuel with
  | zero => rw [checkChunks, if_neg h]
  | succ fuel => rw [checkChunks, if_neg h]

theorem Chunks.stop (h : Chunks start phys last n) (fuel : Nat) :
    checkChunks A start last fuel (chunkAt n) = pure true := by
  apply checkChunks_end
  rw [BitVec.lt_def, (h.chunkAt_toNat (le_refl n)).2, h.end_eq]
  omega

/-- The loop from a chunk on answers whether the rest is erased. It stays in this rest, and reads all of
it before it says so. -/
theorem Chunks.performs (h : Chunks start phys last n) {m i fuel : Nat} (hi : i + m = n)
    (hfuel : m ≤ fuel) (log : List Word) : ∃ clean visited,
      Performs S.Holds (checkChunks A start last fuel (chunkAt i)) (f, log) clean (f, log ++ visited) ∧
      (clean = true ↔ ∀ a ∈ wordSteps (16384 * m) (phys + chunkAt i), f a = 0xFFFFFFFF) ∧
      (∀ a ∈ visited, a ∈ wordSteps (16384 * m) (phys + chunkAt i)) ∧
      (clean = true → visited = wordSteps (16384 * m) (phys + chunkAt i)) := by
  induction m generalizing i fuel log with
  | zero =>
    obtain rfl : i = n := hi
    refine ⟨true, [], ?_, by simp [wordSteps], by simp, fun _ => rfl⟩
    rw [h.stop, List.append_nil]
    exact performs_pure true (f, log)
  | succ m ih =>
    obtain ⟨fuel, rfl⟩ : ∃ fuel', fuel = fuel' + 1 := ⟨fuel - 1, by omega⟩
    have hread : Performs S.Holds (targetReadBlock A (start + chunkAt i) 16384) (f, log)
        ((wordSteps 16384 (phys + chunkAt i)).map f) (f, log ++ wordSteps 16384 (phys + chunkAt i)) := by
      have hblock : Performs S.Holds (targetReadBlock A (start + chunkAt i) 16384) (f, log) _ _ :=
        Serves.readBlock_performs (start + chunkAt i) 16384
      have hplace := h.place A.readBlock.isSome i (by omega)
      rwa [show (16384 : Word).toNat = 16384 from rfl, hplace, loadLog_loadAll] at hblock
    rw [h.step (by omega), wordSteps_chunk]
    by_cases hdirty : ((wordSteps 16384 (phys + chunkAt i)).map f).any (· ≠ 0xFFFFFFFF) = true
    · refine ⟨false, wordSteps 16384 (phys + chunkAt i), hread.bind ?_, ?_, ?_, by simp⟩
      · rw [if_pos hdirty]
        exact performs_pure _ _
      · obtain ⟨w, hw, hne⟩ := List.any_eq_true.mp hdirty
        obtain ⟨a, ha, rfl⟩ := List.mem_map.mp hw
        refine iff_of_false Bool.false_ne_true fun hall => ?_
        exact of_decide_eq_true hne (hall a (List.mem_append_left _ ha))
      · exact fun a ha => List.mem_append_left _ ha
    · obtain ⟨clean, visited, hrest, hclean, hvisited, hall⟩ :=
        @ih (i + 1) fuel (by omega) (by omega) (log ++ wordSteps 16384 (phys + chunkAt i))
      have hblank : ∀ a ∈ wordSteps 16384 (phys + chunkAt i), f a = 0xFFFFFFFF := by
        intro a ha
        by_contra hne
        exact hdirty (List.any_eq_true.mpr ⟨f a, List.mem_map_of_mem ha, decide_eq_true hne⟩)
      refine ⟨clean, wordSteps 16384 (phys + chunkAt i) ++ visited, hread.bind ?_, ?_, ?_, ?_⟩
      · rw [if_neg hdirty, ← List.append_assoc]
        exact hrest
      · rw [hclean]
        constructor
        · intro h a ha
          rcases List.mem_append.mp ha with ha | ha
          · exact hblank a ha
          · exact h a ha
        · exact fun h a ha => h a (List.mem_append_right _ ha)
      · intro a ha
        rcases List.mem_append.mp ha with ha | ha
        · exact List.mem_append_left _ ha
        · exact List.mem_append_right _ (hvisited a ha)
      · exact fun h => congrArg _ (hall h)

end Chunks

section Check

variable {t : Target} {addr : Word} {k : Nat} (hsize : t.flashBytes.toNat = 2 ^ k)

/-- The physical address at which the check starts. -/
def checkedBase (t : Target) (addr : Word) : Word := physical (addr &&& ~~~(t.flashBytes - 1))

include hsize in
/-- The end is behind the start unless the address is in the last chip below `2^32`. -/
theorem checkedEnd_lt_iff : (addr &&& ~~~(t.flashBytes - 1)).toNat + 2 ^ k < 2 ^ 32 ↔
    addr.toNat + t.flashBytes.toNat < 2 ^ 32 := by
  have hlow := Nat.mod_lt addr.toNat (Nat.two_pow_pos k)
  have hle := Nat.mod_le addr.toNat (2 ^ k)
  have hbits : t.flashBytes.toNat < 2 ^ 32 := t.flashBytes.isLt
  have hdvd : 2 ^ k ∣ 2 ^ 32 - 2 ^ k := by
    rw [hsize] at hbits
    exact Nat.dvd_sub (Nat.pow_dvd_pow 2 ((Nat.pow_lt_pow_iff_right (by decide)).mp hbits).le) (dvd_refl _)
  have hlast := le_alignDown_iff (a := addr.toNat) (Nat.two_pow_pos k) hdvd
  rw [alignDown_toNat hsize, hsize]
  omega

variable (hmin : 19 ≤ k) (hmax : k ≤ 27)

include hsize hmax in
/-- The check begins where the sector does. -/
theorem checkedBase_toNat : (checkedBase t addr).toNat =
    (physical addr).toNat - (physical addr).toNat % 2 ^ k := physical_alignDown hsize hmax

include hsize hmax in
/-- The chip is below the segments. -/
theorem checkedBase_add_le : (checkedBase t addr).toNat + 2 ^ k ≤ 2 ^ 31 := by
  have hlt : (physical addr).toNat < 0x80000000 := physical_lt addr
  have hdvd : 2 ^ k ∣ (checkedBase t addr).toNat := by
    rw [checkedBase_toNat hsize hmax]
    exact Nat.dvd_sub_mod _
  have hbelow : (checkedBase t addr).toNat < 0x80000000 := physical_lt _
  exact add_le_of_dvd hdvd (size_dvd_segments hmax).2.1 hbelow

include hsize hmin hmax in
/-- The loop goes through the chip chunk by chunk. -/
theorem checkedChunks (hwrap : addr.toNat + t.flashBytes.toNat < 2 ^ 32) :
    Chunks (addr &&& ~~~(t.flashBytes - 1)) (checkedBase t addr)
      ((addr &&& ~~~(t.flashBytes - 1)) + t.flashBytes) (2 ^ (k - 16)) := by
  have hpow : 65536 * 2 ^ (k - 16) = 2 ^ k := by
    rw [show 65536 = 2 ^ 16 from rfl, ← Nat.pow_add, Nat.add_sub_cancel' (by omega)]
  have hend := (checkedEnd_lt_iff hsize).mpr hwrap
  have hbound : (checkedBase t addr).toNat + 2 ^ k ≤ 2 ^ 31 := checkedBase_add_le hsize hmax
  have haligned : 2 ^ k ∣ (addr &&& ~~~(t.flashBytes - 1)).toNat := by
    rw [alignDown_toNat hsize]
    exact Nat.dvd_sub_mod _
  refine ⟨?_, fun fast i hi => ?_⟩
  · rw [BitVec.toNat_add_of_lt (by omega), hsize, hpow]
  · have hchunk : 65536 * i + 65536 ≤ 2 ^ k := by
      have hmul := Nat.mul_le_mul_left 65536 (Nat.succ_le_of_lt hi)
      omega
    have hoffset : (chunkAt i).toNat = 65536 * i := by
      rw [chunkAt, BitVec.toNat_ofNat]
      omega
    have hsteps : physical ((addr &&& ~~~(t.flashBytes - 1)) + chunkAt i) =
        checkedBase t addr + chunkAt i := physical_add hmax haligned (by omega)
    cases fast with
    | true => rw [blockPlaces, if_pos rfl, hsteps]
    | false =>
      rw [blockPlaces, if_neg Bool.false_ne_true, hsteps]
      refine (List.map_congr_left fun a ha => ?_).trans (List.map_id _)
      obtain ⟨j, hj, rfl⟩ := mem_wordSteps.mp ha
      have hbase : (checkedBase t addr + chunkAt i).toNat = (checkedBase t addr).toNat + 65536 * i := by
        rw [BitVec.toNat_add_of_lt (by omega), hoffset]
      have hword : (checkedBase t addr + chunkAt i + 4 * BitVec.ofNat 32 j).toNat =
          (checkedBase t addr + chunkAt i).toNat + 4 * j := step_toNat (by omega)
      apply physical_of_lt
      rw [BitVec.lt_def, hword]
      change _ < 2147483648
      omega

variable {A : Adapter σ} {S : Serves A loadLog}

include hsize hmin hmax in
/-- The check answers whether the chip at the aligned address is erased, and reads no more than it. -/
theorem checkClean_performs (hwrap : addr.toNat + t.flashBytes.toNat < 2 ^ 32) (f : Word → Word) :
    ∃ clean log, Performs S.Holds (checkClean A t addr) (f, []) clean (f, log) ∧
      (clean = true ↔ Erased f (checkedBase t addr) t.flashBytes) ∧
      (∀ a ∈ log, a ∈ wordSteps (t.flashBytes.toNat / 4) (checkedBase t addr)) ∧
      (clean = true → log = wordSteps (t.flashBytes.toNat / 4) (checkedBase t addr)) := by
  have hpow : 16384 * 2 ^ (k - 16) = t.flashBytes.toNat / 4 := by
    rw [hsize, show 16384 = 2 ^ 14 from rfl, ← Nat.pow_add, show 4 = 2 ^ 2 from rfl,
      Nat.pow_div (by omega) (by decide)]
    congr 1
    omega
  have hfuel : 2 ^ (k - 16) ≤ 2 ^ 16 := Nat.pow_le_pow_right (by decide) (by omega)
  have hchunks := checkedChunks (t := t) hsize hmin hmax hwrap
  obtain ⟨clean, log, hrun, hclean, hlog, hall⟩ :=
    hchunks.performs (S := S) (f := f) (i := 0) (Nat.zero_add _) hfuel []
  have hstart : checkedBase t addr + chunkAt 0 = checkedBase t addr := BitVec.add_zero _
  rw [hpow, hstart] at hclean hlog hall
  exact ⟨clean, log, hrun, hclean, hlog, hall⟩

include hsize in
/-- In the last chip below `2^32` nothing is read. -/
theorem checkClean_wrapped (hwrap : ¬ addr.toNat + t.flashBytes.toNat < 2 ^ 32) :
    checkClean A t addr = pure true := by
  have hnot := mt (checkedEnd_lt_iff hsize).mp hwrap
  have hbits : t.flashBytes.toNat < 2 ^ 32 := t.flashBytes.isLt
  have hstart : (addr &&& ~~~(t.flashBytes - 1)).toNat + 2 ^ k ≤ 2 ^ 32 := by
    refine add_le_of_dvd ?_ ?_ (addr &&& ~~~(t.flashBytes - 1)).isLt
    · rw [alignDown_toNat hsize]
      exact Nat.dvd_sub_mod _
    · rw [hsize] at hbits
      exact Nat.pow_dvd_pow 2 ((Nat.pow_lt_pow_iff_right (by decide)).mp hbits).le
  have hend : (addr &&& ~~~(t.flashBytes - 1)) + t.flashBytes = 0 := by
    apply BitVec.eq_of_toNat_eq
    rw [BitVec.toNat_add, hsize, show (addr &&& ~~~(t.flashBytes - 1)).toNat + 2 ^ k = 2 ^ 32 by omega]
    rfl
  apply checkChunks_end
  rw [hend]
  exact BitVec.not_lt_zero

end Check

section Answers

variable {t : Target} {addr base : Word}

/-- In front of a memory the check comes to the same as what is known of all of them. -/
theorem ChecksChip.answers (h : ChecksChip t addr base) {f : Word → Word} {clean : Bool} {log : List Word}
    (hrun : Performs (memoryAdapter_serves loadLog false false).Holds
      (checkClean (memoryAdapter loadLog false false) t addr) (f, []) clean (f, log)) :
    (clean = true ↔ Erased f base t.flashBytes) ∧ ∀ a ∈ log, Within base t.flashBytes a := by
  have hidle := idleSession_holds loadLog false false (f, [])
  obtain ⟨clean', log', s', hreach', hs', hclean, hlog⟩ := h _ f _ hidle
  obtain ⟨s, hreach, hs⟩ := hrun _ hidle
  obtain ⟨rfl, rfl⟩ := hreach.unique hreach'
  obtain ⟨-, rfl⟩ := Prod.mk.inj (hs.memory.symm.trans hs'.memory)
  exact ⟨hclean, hlog⟩

/-- The first word is one of those that are checked. -/
theorem mem_words_first {bytes : Word} (h : 4 ≤ bytes.toNat) : base ∈ wordSteps (bytes.toNat / 4) base :=
  mem_wordSteps.mpr ⟨0, by omega, (BitVec.add_zero base).symm⟩

/-- The check reads the chip at the base only where this is the chip at the aligned address. -/
theorem ChecksChip.base_eq (hchip : Detected t) (h : ChecksChip t addr base) :
    base = checkedBase t addr ∧ addr.toNat + t.flashBytes.toNat < 2 ^ 32 := by
  obtain ⟨k, hmin, hmax, hsize⟩ := hchip.size
  have hfour : 2 ^ 19 ≤ t.flashBytes.toNat := hsize ▸ Nat.pow_le_pow_right (by decide) hmin
  by_cases hwrap : addr.toNat + t.flashBytes.toNat < 2 ^ 32
  · refine ⟨?_, hwrap⟩
    obtain ⟨clean, log, hrun, hclean, -, hall⟩ := checkClean_performs hsize hmin hmax hwrap
      (S := memoryAdapter_serves loadLog false false) (fun _ => 0xFFFFFFFF)
    obtain ⟨-, hwithin⟩ := h.answers hrun
    rw [hall (hclean.mpr fun _ _ => rfl)] at hwithin
    have hbound : (checkedBase t addr).toNat + 2 ^ k ≤ 2 ^ 31 := checkedBase_add_le hsize hmax
    have hfirst := hwithin _ (mem_words_first (by omega))
    have hlast := hwithin _ (mem_wordSteps.mpr ⟨t.flashBytes.toNat / 4 - 1, by omega, rfl⟩)
    have hdvd : 4 ∣ t.flashBytes.toNat := hsize ▸ Nat.pow_dvd_pow 2 (show 2 ≤ k by omega)
    unfold Within at hfirst hlast
    rw [step_toNat (by omega)] at hlast
    apply BitVec.eq_of_toNat_eq
    omega
  · have hrun : Performs (memoryAdapter_serves loadLog false false).Holds
        (checkClean (memoryAdapter loadLog false false) t addr) (fun _ => 0, []) true (fun _ => 0, []) := by
      rw [checkClean_wrapped hsize hwrap]
      exact performs_pure _ _
    have herased := (h.answers hrun).1.mp rfl base (mem_words_first (by omega))
    exact absurd herased (show ¬ (0 : Word) = 0xFFFFFFFF by decide)

/-- The chip at the aligned address is checked. -/
theorem checksChip_checkedBase (hchip : Detected t) (hwrap : addr.toNat + t.flashBytes.toNat < 2 ^ 32) :
    ChecksChip t addr (checkedBase t addr) := by
  obtain ⟨k, hmin, hmax, hsize⟩ := hchip.size
  intro σ A S f s hs
  obtain ⟨clean, log, hrun, hclean, hlog, -⟩ :=
    checkClean_performs (S := S) hsize hmin hmax hwrap f
  obtain ⟨s', hreach, hs'⟩ := hrun s hs
  refine ⟨clean, log, s', hreach, hs', hclean, fun a ha => ?_⟩
  have hbound : (checkedBase t addr).toNat + 2 ^ k ≤ 2 ^ 31 := checkedBase_add_le hsize hmax
  obtain ⟨i, hi, rfl⟩ := mem_wordSteps.mp (hlog a ha)
  unfold Within
  rw [step_toNat (by omega)]
  omega

/-- For a configured region and a detected chip, the check does what it is for exactly where the base
of the region is a multiple of the size of the chip, the address is in the first chip of the region, and
this is not the last chip below `2^32`. -/
theorem checkClean_checksChip_iff (hchip : Detected t) {r : FlashRegion}
    (hr : t.findRegion (physical addr) = some r) : ChecksChip t addr r.base ↔
      t.flashBytes.toNat ∣ r.base.toNat ∧ (physical addr).toNat < r.base.toNat + t.flashBytes.toNat ∧
        addr.toNat + t.flashBytes.toNat < 2 ^ 32 := by
  obtain ⟨k, hmin, hmax, hsize⟩ := hchip.size
  have hle : r.base.toNat ≤ (physical addr).toNat := (t.base_le_of_findRegion hr).1
  have hbase : (checkedBase t addr).toNat = (physical addr).toNat - (physical addr).toNat % 2 ^ k :=
    checkedBase_toNat hsize hmax
  have hlow := Nat.mod_lt (physical addr).toNat (Nat.two_pow_pos k)
  constructor
  · intro h
    obtain ⟨heq, hwrap⟩ := h.base_eq hchip
    rw [heq, hbase, hsize]
    refine ⟨Nat.dvd_sub_mod _, ?_, hsize ▸ hwrap⟩
    omega
  · rintro ⟨hdvd, hfirst, hwrap⟩
    have heq : r.base = checkedBase t addr := by
      apply BitVec.eq_of_toNat_eq
      rw [hsize] at hdvd hfirst
      rw [hbase]
      refine le_antisymm ((le_alignDown_iff (Nat.two_pow_pos k) hdvd).mpr hle) ?_
      by_contra hnot
      have hbelow := add_le_of_dvd hdvd (Nat.dvd_sub_mod _) (not_le.mp hnot)
      omega
    rw [heq]
    exact checksChip_checkedBase hchip hwrap

end Answers

/-- A board with the chip 1638PP1 on a bus, in one region. -/
def boardOf1638pp1 (count : Nat) (base last : Word) : Target :=
  { Target.allocated with
    toFlashVariant := flashVariant count
    flashBytes := 512 * 1024
    flash := Target.allocated.setRegion ⟨0, nflash_pos⟩ ⟨base, last⟩ }

/-- The chips of the example are found by their numbers. -/
theorem boardOf1638pp1_detected {count : Nat} (base last : Word)
    (h : ∃ c, findChip (flashVariant count) 0x07070707 = some c ∧
      c.bytes (flashVariant count) = 512 * 1024) : Detected (boardOf1638pp1 count base last) := by
  obtain ⟨c, hc, hbytes⟩ := h
  exact ⟨count, 0x07070707, c, hc, hbytes.symm⟩

/-- On a bus of 32 bits the region starts at 0. -/
theorem checkClean_checksChip_1638pp1 : ChecksChip (boardOf1638pp1 2 0 0x0007FFFF) 0x80000000 0 ↔
    (boardOf1638pp1 2 0 0x0007FFFF).flashBytes.toNat ∣ 0 ∧
      (physical 0x80000000).toNat < 0 + (boardOf1638pp1 2 0 0x0007FFFF).flashBytes.toNat ∧
      (0x80000000 : Word).toNat + (boardOf1638pp1 2 0 0x0007FFFF).flashBytes.toNat < 2 ^ 32 :=
  checkClean_checksChip_iff (boardOf1638pp1_detected 0 0x0007FFFF ⟨_, rfl, rfl⟩)
    (r := ⟨0, 0x0007FFFF⟩) (by decide)

/-- On a bus of 8 bits it starts at `0x1FC40000`, which is in the middle of a chip. -/
theorem not_checksChip_1638pp1 : Detected (boardOf1638pp1 3 0x1FC40000 0x1FC5FFFF) ∧
    (boardOf1638pp1 3 0x1FC40000 0x1FC5FFFF).findRegion (physical 0xBFC40000) =
      some ⟨0x1FC40000, 0x1FC5FFFF⟩ ∧
    ¬ ChecksChip (boardOf1638pp1 3 0x1FC40000 0x1FC5FFFF) 0xBFC40000 0x1FC40000 := by
  have hdetected : Detected (boardOf1638pp1 3 0x1FC40000 0x1FC5FFFF) :=
    boardOf1638pp1_detected _ _ ⟨_, rfl, rfl⟩
  refine ⟨hdetected, by decide, fun h => ?_⟩
  exact absurd (h.base_eq hdetected).1 (by decide)

end Mcprog
