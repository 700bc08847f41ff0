import Mathlib.Data.List.DropRight
import Mathlib.Data.List.GetD
import Mcprog.Loader.Records

/-!
# Software information in the image

The record `sw_info` of `swinfo.h`, the search for its label and the part of `do_program`
that fills it in. A `long` and a `time_t` have 64 bits. All of this works in place on
`memory_data`, so what is stored past the end of a field stays there.
-/

namespace Mcprog

open Cells

/-- A string: its bytes before the one that ends it. -/
def CString : Type := { s : List Byte // ∀ b ∈ s, b ≠ 0 }

namespace CString

/-- The number of bytes that `strlen` counts. -/
def length (s : CString) : Nat := s.val.length

/-- The bytes that `strcpy` copies. -/
def terminated (s : CString) : List Byte := s.val ++ [0]

/-- A string without bytes that are 0. -/
def ofList (s : List Byte) (h : s.all (· ≠ 0) = true) : CString :=
  ⟨s, fun b hb => by simpa using List.all_eq_true.mp h b hb⟩

end CString

/-- `strcpy`, without regard to the size of the field. -/
def strcpy (image : Image) (pos : Nat) (s : CString) : Image := store image pos s.terminated

/-- The character that separates the parts of a path. -/
def slash : Byte := 0x2F

/-- `basename`: the part after the last separator, those at the end aside. -/
def basename (path : CString) : CString :=
  if path.val = [] then CString.ofList [0x2E] rfl
  else if path.val.rdropWhile (· = slash) = [] then CString.ofList [slash] rfl
  else
    ⟨(path.val.rdropWhile (· = slash)).rtakeWhile (· ≠ slash), fun b hb =>
      path.property b <| (List.rdropWhile_prefix _ _).subset <| (List.rtakeWhile_suffix _ _).subset hb⟩

/-- `INFO_LABEL`, which is `^SINFO^`. -/
def infoLabel : CString := CString.ofList [0x5E, 0x53, 0x49, 0x4E, 0x46, 0x4F, 0x5E] rfl

/-- `AREA_SIZE`: how far the label is searched for. -/
def areaSize : Nat := 8192

namespace SwInfo

def labelSize : Nat := 8
def len : Nat := 24
def crc : Nat := 28
def boardSn : Nat := 32
def filename : Nat := 160
def time : Nat := 288

/-- `sizeof (sw_info)`. -/
def size : Nat := 296

/-- The size of each of the two text fields. -/
def textSize : Nat := 128

end SwInfo

/-- The first place in the area at which the label stands, with the byte that ends it. -/
def findInfo (area : Image) (areaSize : Nat) : Option Nat :=
  (List.range areaSize).find? fun p =>
    (List.range infoLabel.terminated.length).map (fun j => area (p + j)) = infoLabel.terminated

/-- One step of the checksum. -/
def checksumStep (sum : Word) (byte : Byte) : Word :=
  let sum := sum + byte.setWidth 32
  sum - ((sum <<< 13) ||| (sum >>> 19))

/-- The checksum of a number of bytes, from a sum on. -/
def computeChecksum (sum : Word) (data : Nat → Byte) (bytes : Word) : Word :=
  (List.range bytes.toNat).foldl (fun sum i => checksumStep sum (data i)) sum

/-- The checksum of the image, with zeros in place of the record at `p`. -/
def imageChecksum (image : Image) (memoryLen p : Nat) : Word :=
  let crc := computeChecksum 0 image (BitVec.ofNat 32 p)
  let crc := computeChecksum crc (fun _ => 0) (BitVec.ofNat 32 SwInfo.size)
  computeChecksum crc (fun i => image (p + SwInfo.size + i))
    (BitVec.ofInt 32 (memoryLen - (p + SwInfo.size : Nat)))

/-- Fill in the record at `p`, all but its checksum. The clearing starts at the length and
takes the size of the record less that of the label. -/
def fillInfo (image : Image) (memoryLen p : Nat) (boardSerial : Option CString)
    (filename : CString) (mtime : BitVec 64) : Image :=
  let image := store image (p + SwInfo.len) (List.replicate (SwInfo.size - SwInfo.labelSize) 0)
  let image := store image (p + SwInfo.len) (leBytes 4 (BitVec.ofNat 32 memoryLen))
  let image := match boardSerial with
    | some serial => strcpy image (p + SwInfo.boardSn) serial
    | none => image
  let image := strcpy image (p + SwInfo.filename) (basename filename)
  store image (p + SwInfo.time) (leBytes 8 mtime)

/-- Store the software information: where its record is, and the image with it. -/
def storeInfo (image : Image) (memoryLen : Nat) (boardSerial : Option CString)
    (filename : CString) (mtime : BitVec 64) : Option (Nat × Image) :=
  (findInfo image (if memoryLen < areaSize then memoryLen else areaSize)).map fun p =>
    let filled := fillInfo image memoryLen p boardSerial filename mtime
    (p, store filled (p + SwInfo.crc) (leBytes 4 (imageChecksum filled memoryLen p)))

/-- What the stores leave at a distance from the start of the record, past the length and
the checksum and other than in the time. -/
def spill (boardSerial : Option CString) (name : CString) (j : Nat) : Option Byte :=
  (placed SwInfo.filename name.terminated j).or
    ((boardSerial.bind fun serial => placed SwInfo.boardSn serial.terminated j).or
      (placed SwInfo.len (List.replicate (SwInfo.size - SwInfo.labelSize) 0) j))

/-- The record is filled in, and nothing else is changed: what is outside of it, and its
label and version, are as they were, and the two texts are cut to their fields. -/
structure StoredWithin (p : Nat) (boardSerial : Option CString) (name : CString)
    (image image' : Image) : Prop where
  before : ∀ i < p, image' i = image i
  kept : ∀ j < SwInfo.len, image' (p + j) = image (p + j)
  boardSn : ∀ j < SwInfo.textSize, image' (p + (SwInfo.boardSn + j)) =
    (boardSerial.elim [] Subtype.val).getD j 0
  filename : ∀ j < SwInfo.textSize, image' (p + (SwInfo.filename + j)) = name.val.getD j 0
  after : ∀ j ≥ SwInfo.size, image' (p + j) = image (p + j)

variable {image : Image} {memoryLen p : Nat} {boardSerial : Option CString}
  {filename : CString} {mtime : BitVec 64} {crc : Word}

/-- Nothing is stored before the length. -/
theorem storedInfo_before {i : Nat} (h : i < p + SwInfo.len) :
    store (fillInfo image memoryLen p boardSerial filename mtime) (p + SwInfo.crc)
      (leBytes 4 crc) i = image i := by
  have hplaced : ∀ off ≥ SwInfo.len, ∀ xs : List Byte, placed (p + off) xs i = none := by
    intro off hoff xs
    exact placed_of_lt (by omega)
  have hlen := hplaced SwInfo.len (le_refl _)
  have hcrc := hplaced SwInfo.crc (by decide)
  have hboardSn := hplaced SwInfo.boardSn (by decide)
  have hfilename := hplaced SwInfo.filename (by decide)
  have htime := hplaced SwInfo.time (by decide)
  simp only [store, fillInfo, strcpy, hcrc, hfilename, htime, Option.getD_none]
  cases boardSerial with
  | none => simp only [store, hlen, Option.getD_none]
  | some serial => simp only [store, hlen, hboardSn, Option.getD_none]

/-- Past the checksum and other than in the time, the stores leave what they spill. -/
theorem storedInfo_after (image : Image) (memoryLen p : Nat) (boardSerial : Option CString)
    (filename : CString) (mtime : BitVec 64) (crc : Word) {j : Nat} (h : SwInfo.boardSn ≤ j)
    (htime : j < SwInfo.time ∨ SwInfo.size ≤ j) :
    store (fillInfo image memoryLen p boardSerial filename mtime) (p + SwInfo.crc)
      (leBytes 4 crc) (p + j) = (spill boardSerial (basename filename) j).getD (image (p + j)) := by
  have hcrc : placed SwInfo.crc (leBytes 4 crc) j = none :=
    placed_of_ge (by rwa [length_leBytes])
  have hlen : placed SwInfo.len (leBytes 4 (BitVec.ofNat 32 memoryLen)) j = none := by
    refine placed_of_ge (le_trans ?_ h)
    rw [length_leBytes]
    decide
  have htime : placed SwInfo.time (leBytes 8 mtime) j = none := by
    rcases htime with hlt | hge
    · exact placed_of_lt hlt
    · exact placed_of_ge (by rwa [length_leBytes])
  simp only [store, fillInfo, strcpy, placed_add, hcrc, htime, Option.getD_none, spill]
  cases boardSerial with
  | none =>
    simp only [store, placed_add, hlen, Option.getD_none, Option.bind_none, Option.none_or]
    cases placed SwInfo.filename (basename filename).terminated j <;> rfl
  | some serial =>
    simp only [store, placed_add, hlen, Option.getD_none, Option.bind_some]
    cases placed SwInfo.filename (basename filename).terminated j <;>
      cases placed SwInfo.boardSn serial.terminated j <;> rfl

/-- The bytes of a string, and zeros after it. -/
theorem CString.terminated_getD (s : CString) (j : Nat) :
    (s.terminated[j]?).getD 0 = s.val.getD j 0 := by
  rw [List.getD_eq_getElem?_getD, terminated, List.getElem?_append]
  split
  · rfl
  · rename_i h
    rw [List.getElem?_eq_none (not_lt.mp h)]
    cases hj : j - s.val.length <;> rfl

/-- A byte inside of a string is not 0. -/
theorem CString.getD_ne_zero (s : CString) {j : Nat} (h : j < s.length) : s.val.getD j 0 ≠ 0 := by
  rw [List.getD_eq_getElem _ 0 h]
  exact s.property _ (List.getElem_mem h)

/-- The field of the serial number holds the serial number, cut to the field. -/
theorem spill_boardSn (name : CString) {j : Nat} (h : j < SwInfo.textSize) (b : Byte) :
    (spill boardSerial name (SwInfo.boardSn + j)).getD b =
      (boardSerial.elim [] Subtype.val).getD j 0 := by
  have hlt : j < 128 := h
  have hname : placed SwInfo.filename name.terminated (SwInfo.boardSn + j) = none :=
    placed_of_lt (by change 32 + j < 160; omega)
  have hzero : placed SwInfo.len (List.replicate (SwInfo.size - SwInfo.labelSize) (0 : Byte))
      (SwInfo.boardSn + j) = some 0 := by
    rw [placed_of_le (by change 24 ≤ 32 + j; omega), List.getElem?_replicate,
      if_pos (by change 32 + j - 24 < 288; omega)]
  rw [spill, hname, hzero, Option.none_or]
  cases boardSerial with
  | none => rfl
  | some serial =>
    rw [Option.bind_some, placed_of_le (Nat.le_add_right _ _), Nat.add_sub_cancel_left]
    change _ = serial.val.getD j 0
    rw [← serial.terminated_getD j]
    cases serial.terminated[j]? <;> rfl

/-- The field of the name holds the name, cut to the field, and past its end what the
serial number leaves there. -/
theorem spill_filename (name : CString) {j : Nat} (h : j < SwInfo.textSize) (b : Byte) :
    (spill boardSerial name (SwInfo.filename + j)).getD b =
      if j ≤ name.length then name.val.getD j 0
      else (boardSerial.elim [] Subtype.val).getD (SwInfo.textSize + j) 0 := by
  have hlt : j < 128 := h
  have hzero : placed SwInfo.len (List.replicate (SwInfo.size - SwInfo.labelSize) (0 : Byte))
      (SwInfo.filename + j) = some 0 := by
    rw [placed_of_le (by change 24 ≤ 160 + j; omega), List.getElem?_replicate,
      if_pos (by change 160 + j - 24 < 288; omega)]
  rw [spill, hzero, placed_of_le (Nat.le_add_right _ _), Nat.add_sub_cancel_left]
  split
  · rename_i hle
    rw [← name.terminated_getD j]
    have hlen : j < name.terminated.length := by
      rw [CString.terminated, List.length_append]
      exact Nat.lt_succ_of_le hle
    rw [List.getElem?_eq_getElem hlen]
    rfl
  · rename_i hgt
    have hlen : name.terminated.length ≤ j := by
      rw [CString.terminated, List.length_append]
      exact Nat.lt_of_not_le hgt
    rw [List.getElem?_eq_none hlen, Option.none_or]
    cases boardSerial with
    | none => rfl
    | some serial =>
      have hdist : SwInfo.filename + j - SwInfo.boardSn = SwInfo.textSize + j := by
        change 160 + j - 32 = 128 + j
        omega
      rw [Option.bind_some, placed_of_le (by change 32 ≤ 160 + j; omega), hdist]
      change _ = serial.val.getD (SwInfo.textSize + j) 0
      rw [← serial.terminated_getD (SwInfo.textSize + j)]
      cases serial.terminated[SwInfo.textSize + j]? <;> rfl

/-- The serial number does not show after the end of the name, in the field of the name. -/
def SerialFits (boardSerial : Option CString) (name : CString) : Prop :=
  ∀ serial, boardSerial = some serial → serial.length ≤ name.length + 129 ∨ 127 ≤ name.length

/-- The field of the name holds the name exactly where no serial number shows in it. -/
theorem spill_filename_eq_iff (name : CString) (image : Image) :
    (∀ j < SwInfo.textSize, (spill boardSerial name (SwInfo.filename + j)).getD
        (image (p + (SwInfo.filename + j))) = name.val.getD j 0) ↔
      SerialFits boardSerial name := by
  constructor
  · intro h serial hserial
    by_contra hlong
    obtain ⟨hlen, hname⟩ := not_or.mp hlong
    have hj : name.length + 1 < SwInfo.textSize := by
      change name.length + 1 < 128
      omega
    have hbyte := h (name.length + 1) hj
    rw [spill_filename name hj, if_neg (by omega), hserial] at hbyte
    have hzero : name.val.getD (name.length + 1) 0 = 0 := by
      rw [List.getD_eq_default]
      exact Nat.le_succ _
    rw [hzero] at hbyte
    refine serial.getD_ne_zero ?_ hbyte
    change 128 + (name.length + 1) < serial.length
    omega
  · intro h j hj
    rw [spill_filename name hj]
    split
    · rfl
    · rename_i hgt
      have hlt : j < 128 := hj
      have hzero : name.val.getD j 0 = 0 := by
        rw [List.getD_eq_default]
        exact (not_le.mp hgt).le
      rw [hzero]
      cases hserial : boardSerial with
      | none => rfl
      | some serial =>
        rcases h serial hserial with hlen | hlen
        · change serial.val.getD (128 + j) 0 = 0
          rw [List.getD_eq_default]
          change serial.length ≤ 128 + j
          omega
        · omega

/-- The bytes after the record are already what the stores spill there. -/
def AlreadySpilt (p : Nat) (boardSerial : Option CString) (name : CString) (image : Image) : Prop :=
  ∀ j ≥ SwInfo.size, ∀ b, spill boardSerial name j = some b → image (p + j) = b

/-- Storing the information changes only the record, and keeps its label and version and
cuts its texts, exactly where what is stored past the record stands there already and no
serial number shows in the field of the name. -/
theorem storeInfo_storedWithin_iff {image' : Image}
    (h : storeInfo image memoryLen boardSerial filename mtime = some (p, image')) :
    StoredWithin p boardSerial (basename filename) image image' ↔
      AlreadySpilt p boardSerial (basename filename) image ∧
        SerialFits boardSerial (basename filename) := by
  obtain ⟨p', -, heq⟩ := Option.map_eq_some_iff.mp h
  obtain ⟨rfl, rfl⟩ := Prod.mk.inj heq
  constructor
  · intro hwithin
    constructor
    · intro j hj b hb
      have hafter := hwithin.after j hj
      rw [storedInfo_after _ _ _ _ _ _ _ (le_trans (by decide) hj) (.inr hj), hb] at hafter
      exact hafter.symm
    · rw [← spill_filename_eq_iff (p := p') _ image]
      intro j hj
      have hlt : j < 128 := hj
      rw [← hwithin.filename j hj, storedInfo_after _ _ _ _ _ _ _ (by change 32 ≤ 160 + j; omega)
        (.inl (by change 160 + j < 288; omega))]
  · rintro ⟨hspilt, hfits⟩
    refine ⟨?_, ?_, ?_, ?_, ?_⟩
    · intro i hi
      exact storedInfo_before (by omega)
    · intro j hj
      exact storedInfo_before (by omega)
    · intro j hj
      have hlt : j < 128 := hj
      rw [storedInfo_after _ _ _ _ _ _ _ (Nat.le_add_right _ _) (.inl (by change 32 + j < 288; omega)),
        spill_boardSn _ hj]
    · intro j hj
      have hlt : j < 128 := hj
      rw [storedInfo_after _ _ _ _ _ _ _ (by change 32 ≤ 160 + j; omega)
        (.inl (by change 160 + j < 288; omega))]
      exact (spill_filename_eq_iff (p := p') _ image).mpr hfits j hj
    · intro j hj
      rw [storedInfo_after _ _ _ _ _ _ _ (le_trans (by decide) hj) (.inr hj)]
      cases hb : spill boardSerial (basename filename) j with
      | none => rfl
      | some b => exact (hspilt j hj b hb).symm

/-- An image that starts with the label, in front of memory that holds one byte. -/
def labelledImage (rest : Byte) : Image := fun i => (infoLabel.terminated[i]?).getD rest

/-- The name `a.bin`. -/
def binName : CString := CString.ofList [0x61, 0x2E, 0x62, 0x69, 0x6E] rfl

/-- The label at the start of the area is found. -/
theorem findInfo_labelledImage (rest : Byte) (n : Nat) :
    findInfo (labelledImage rest) (n + 1) = some 0 := by
  unfold findInfo
  rw [List.range_succ_eq_map, List.find?_cons_of_pos]
  exact decide_eq_true rfl

/-- The information is stored in the record at the start. -/
theorem storeInfo_labelledImage (rest : Byte) :
    ∃ image', storeInfo (labelledImage rest) 0x1000 none binName 0 = some (0, image') := by
  have hlt : 0x1000 < areaSize := by decide
  rw [storeInfo, if_pos hlt, findInfo_labelledImage rest 0xFFF]
  exact ⟨_, rfl⟩

/-- In front of zeros nothing is changed but the record. -/
theorem storedWithin_zeros_iff : ∃ image',
    storeInfo (labelledImage 0) 0x1000 none binName 0 = some (0, image') ∧
      (StoredWithin 0 none (basename binName) (labelledImage 0) image' ↔
        AlreadySpilt 0 none (basename binName) (labelledImage 0) ∧
          SerialFits none (basename binName)) := by
  obtain ⟨image', h⟩ := storeInfo_labelledImage 0
  exact ⟨image', h, storeInfo_storedWithin_iff h⟩

/-- In front of erased memory the first byte after the record is cleared. -/
theorem not_storedWithin_erased : ∃ image',
    storeInfo (labelledImage 0xFF) 0x1000 none binName 0 = some (0, image') ∧
      labelledImage 0xFF 296 = 0xFF ∧ image' 296 = 0 ∧
      ¬ StoredWithin 0 none (basename binName) (labelledImage 0xFF) image' := by
  obtain ⟨image', h⟩ := storeInfo_labelledImage 0xFF
  obtain ⟨p, hp, heq⟩ := Option.map_eq_some_iff.mp h
  obtain ⟨rfl, rfl⟩ := Prod.mk.inj heq
  have hold : labelledImage 0xFF 296 = 0xFF := rfl
  have hspill : spill none (basename binName) 296 = some 0 := by decide
  have hafter : SwInfo.boardSn ≤ 296 := by decide
  have hnew := storedInfo_after (labelledImage 0xFF) 0x1000 0 none binName 0
    (imageChecksum (fillInfo (labelledImage 0xFF) 0x1000 0 none binName 0) 0x1000 0)
    hafter (.inr (le_refl _))
  rw [hspill, Nat.zero_add] at hnew
  refine ⟨_, h, hold, hnew, ?_⟩
  intro hwithin
  have hkept := hwithin.after 296 (le_refl _)
  rw [Nat.zero_add, hold] at hkept
  exact absurd (hkept.symm.trans hnew) (by decide)

end Mcprog
