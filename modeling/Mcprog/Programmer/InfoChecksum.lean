import Mcprog.Programmer.SwInfo

/-!
# The checksum of the software information

The checksum is taken over three parts: what is before the record, zeros in place of it, and what
is after it. The length of the last part is the length of the image less what is before it, and
becomes unsigned however it comes out.
-/

namespace Mcprog

open Cells

variable {image image' : Image} {memoryLen p : Nat} {boardSerial : Option CString}
  {filename : CString} {mtime : BitVec 64} {data data' : Nat → Byte}

theorem computeChecksum_ofNat {n : Nat} (h : n < 2 ^ 32) (sum : Word) (data : Nat → Byte) :
    computeChecksum sum data (BitVec.ofNat 32 n) =
      (List.range n).foldl (fun sum i => checksumStep sum (data i)) sum := by
  rw [computeChecksum, BitVec.toNat_ofNat, Nat.mod_eq_of_lt h]

/-- A sum over two parts goes on with the sum over the first one. -/
theorem computeChecksum_add {m n : Nat} (h : m + n < 2 ^ 32) (sum : Word) (data : Nat → Byte) :
    computeChecksum sum data (BitVec.ofNat 32 (m + n)) =
      computeChecksum (computeChecksum sum data (BitVec.ofNat 32 m)) (fun i => data (m + i))
        (BitVec.ofNat 32 n) := by
  rw [computeChecksum_ofNat h, computeChecksum_ofNat (by omega), computeChecksum_ofNat (by omega),
    List.range_add, List.foldl_append, List.foldl_map]

/-- Only the bytes that are counted matter. -/
theorem computeChecksum_congr {n : Nat} (h : n < 2 ^ 32) (sum : Word)
    (hdata : ∀ i < n, data i = data' i) :
    computeChecksum sum data (BitVec.ofNat 32 n) = computeChecksum sum data' (BitVec.ofNat 32 n) := by
  rw [computeChecksum_ofNat h, computeChecksum_ofNat h]
  apply List.foldl_ext
  intro sum i hi
  rw [hdata i (List.mem_range.mp hi)]

/-- The lengths of the parts. -/
def partLengths (memoryLen p : Nat) : List Int :=
  [p, SwInfo.size, memoryLen - (p + SwInfo.size : Nat)]

/-- The image with zeros in place of the record at `p`. -/
def clearedInfo (image : Image) (p : Nat) : Image := store image p (List.replicate SwInfo.size 0)

theorem clearedInfo_of_lt {i : Nat} (h : i < p) : clearedInfo image p i = image i :=
  store_of_none (placed_of_lt h)

theorem clearedInfo_record {j : Nat} (h : j < SwInfo.size) : clearedInfo image p (p + j) = 0 := by
  rw [clearedInfo, store, placed_of_le (Nat.le_add_right _ _), Nat.add_sub_cancel_left,
    List.getElem?_replicate, if_pos h]
  rfl

theorem clearedInfo_after (j : Nat) :
    clearedInfo image p (p + SwInfo.size + j) = image (p + SwInfo.size + j) := by
  apply store_of_none
  apply placed_of_ge
  rw [List.length_replicate]
  exact Nat.le_add_right _ _

/-- The parts of an image that the record is within come to the image without the record. -/
theorem imageChecksum_eq (hlen : memoryLen < 2 ^ 31) (h : p + SwInfo.size ≤ memoryLen) :
    imageChecksum image memoryLen p =
      computeChecksum 0 (clearedInfo image p) (BitVec.ofNat 32 memoryLen) := by
  obtain ⟨n, rfl⟩ := Nat.exists_eq_add_of_le h
  have hthird : BitVec.ofInt 32 (((p + SwInfo.size + n : Nat) : Int) - (p + SwInfo.size : Nat)) =
      BitVec.ofNat 32 n := by
    rw [Int.natCast_add, add_sub_cancel_left, BitVec.ofInt_natCast]
  have hbefore : computeChecksum 0 image (BitVec.ofNat 32 p) =
      computeChecksum 0 (clearedInfo image p) (BitVec.ofNat 32 p) :=
    computeChecksum_congr (by omega) 0 fun i hi => (clearedInfo_of_lt hi).symm
  have hrecord : ∀ sum, computeChecksum sum (fun _ => 0) (BitVec.ofNat 32 SwInfo.size) =
      computeChecksum sum (fun j => clearedInfo image p (p + j)) (BitVec.ofNat 32 SwInfo.size) :=
    fun sum => computeChecksum_congr (by decide) sum fun j hj => (clearedInfo_record hj).symm
  have hafter : (fun j => clearedInfo image p (p + SwInfo.size + j)) =
      fun j => image (p + SwInfo.size + j) := funext clearedInfo_after
  rw [imageChecksum, hthird, hbefore, hrecord, computeChecksum_add (by omega),
    computeChecksum_add (by omega), hafter]

/-- The checksum in the record at `p` is that of the image without the record, and its parts are
parts of the image. -/
structure ChecksumOfImage (memoryLen p : Nat) (filled image' : Image) : Prop where
  nonneg : ∀ n ∈ partLengths memoryLen p, 0 ≤ n
  total : (partLengths memoryLen p).sum = memoryLen
  crc : (List.range 4).map (fun j => image' (p + SwInfo.crc + j)) =
    leBytes 4 (computeChecksum 0 (clearedInfo filled p) (BitVec.ofNat 32 memoryLen))

/-- The stored checksum is that of the image exactly where the record is within the image. -/
theorem storeInfo_checksum_iff (hlen : memoryLen < 2 ^ 31)
    (h : storeInfo image memoryLen boardSerial filename mtime = some (p, image')) :
    ChecksumOfImage memoryLen p (fillInfo image memoryLen p boardSerial filename mtime) image' ↔
      p + SwInfo.size ≤ memoryLen := by
  obtain ⟨p', -, heq⟩ := Option.map_eq_some_iff.mp h
  obtain ⟨rfl, rfl⟩ := Prod.mk.inj heq
  constructor
  · intro hsum
    have hthird := hsum.nonneg (memoryLen - (p' + SwInfo.size : Nat)) (by simp [partLengths])
    omega
  · intro hfits
    refine ⟨?_, ?_, ?_⟩
    · intro n hn
      rcases List.mem_cons.mp hn with rfl | hn
      · exact Int.natCast_nonneg p'
      rcases List.mem_cons.mp hn with rfl | hn
      · exact Int.natCast_nonneg SwInfo.size
      · rw [List.mem_singleton.mp hn]
        omega
    · simp only [partLengths, List.sum_cons, List.sum_nil]
      omega
    · rw [imageChecksum_eq hlen hfits]
      exact map_store _ _ (leBytes 4 _)

/-- A page of memory that starts with the label. -/
theorem storeInfo_labelled_checksum_iff : ∃ image',
    storeInfo (labelledImage 0) 0x1000 none binName 0 = some (0, image') ∧
      (ChecksumOfImage 0x1000 0 (fillInfo (labelledImage 0) 0x1000 0 none binName 0) image' ↔
        0 + SwInfo.size ≤ 0x1000) := by
  obtain ⟨image', h⟩ := storeInfo_labelledImage 0
  exact ⟨image', h, storeInfo_checksum_iff (by decide) h⟩

/-- An image that is no more than the label: the last part has no length, and is taken as one of
almost the whole address space. -/
theorem storeInfo_label_only : ∃ image',
    storeInfo (labelledImage 0) 8 none binName 0 = some (0, image') ∧
      partLengths 8 0 = [0, 296, -288] ∧ (BitVec.ofInt 32 (-288)).toNat = 4294967008 ∧
      ¬ ChecksumOfImage 8 0 (fillInfo (labelledImage 0) 8 0 none binName 0) image' := by
  have h : ∃ image', storeInfo (labelledImage 0) 8 none binName 0 = some (0, image') := by
    have hlt : 8 < areaSize := by decide
    rw [storeInfo, if_pos hlt, findInfo_labelledImage 0 7]
    exact ⟨_, rfl⟩
  obtain ⟨image', h⟩ := h
  refine ⟨image', h, rfl, by decide, fun hsum => ?_⟩
  exact absurd (hsum.nonneg (-288) (by decide)) (by decide)

end Mcprog
