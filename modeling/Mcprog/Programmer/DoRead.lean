import Mcprog.Library.Effects
import Mcprog.Programmer.DoProgram
import Mcprog.Remote.ReadAfterWrite

/-!
# Reading memory into a file

`mcprog -r` reads a range of memory block by block into a file. What the file gets are the bytes of the
range, and where they are loaded again and verified no word is found to differ.
-/

namespace Mcprog

open Interaction Cells Program

variable {σ : Type} (A : Adapter σ)

/-- Which bytes a file takes behind those that it has. -/
abbrev OutFile : Type := List Byte → List Byte → Bool

/-- The loop of `do_read`: a block is read and written behind the others. -/
def saveBlocks (takes : OutFile) (base : Word) (len : Int) : List Nat → List Byte → Action σ (List Byte)
  | [], file => pure file
  | k :: ks, file => do
    let addr := blockSz * k
    let count := blockLen len addr
    let data ← targetReadBlock A (base + BitVec.ofNat 32 addr) (BitVec.ofNat 32 ((count + 3) / 4))
    let bytes := (data.flatMap wordBytes).take count
    if takes file bytes then saveBlocks takes base len ks (file ++ bytes)
    else fatal 1 "%s: write error!\n" []

/-- `do_read`, with what the file has at the end. Where there is no flash memory it returns. -/
def doRead (inv : Invocation) (takes : OutFile) (base : Word) (len : Int) : Control σ (Target × List Byte) := do
  let d ← probeFlash A inv base
  if d.found.isSome then do
    let file ← calls (saveBlocks A takes base len (blocks len) [])
    return (d.target, file)
  else return (d.target, [])

variable {A} {μ : Type} {M : AddressSpace μ} {S : Serves A M} {m : μ} {lo hi : Nat}

open AddressSpace

/-- The words from `lo` up to `hi` are in one segment, and loads of them leave the memory as it is: it is
ordinary memory, or flash memory that is not in the middle of a command. -/
structure AddressSpace.Readable (M : AddressSpace μ) (lo hi : Nat) (m : μ) : Prop where
  bound : hi ≤ 2 ^ 30
  segment_eq : ∀ w, lo ≤ w → w < hi →
    segment (BitVec.ofNat 32 (4 * w)) = segment (BitVec.ofNat 32 (4 * lo))
  load_memory : ∀ w, lo ≤ w → w < hi → (M.load (wordAddr w) m).2 = m

/-- A block of them is in place. -/
theorem AddressSpace.Readable.inPlace (h : M.Readable lo hi m) (fast : Bool) {w n : Nat} (hlo : lo ≤ w)
    (hhi : w + n ≤ hi) : InPlace fast (BitVec.ofNat 32 (4 * w)) (BitVec.ofNat 32 n) := by
  have hbound := h.bound
  apply inPlace_of_segment
  intro k hk
  have hk' : k < n := by
    rw [BitVec.toNat_ofNat] at hk
    exact lt_of_lt_of_le hk (Nat.mod_le _ _)
  have hstep : BitVec.ofNat 32 (4 * w) + 4 * BitVec.ofNat 32 k = BitVec.ofNat 32 (4 * (w + k)) := by
    rw [Nat.mul_add, BitVec.ofNat_add, BitVec.ofNat_mul 4 k]
    rfl
  rw [hstep, h.segment_eq (w + k) (by omega) (by omega), h.segment_eq w hlo (by omega), BitVec.toNat_ofNat]
  exact ⟨by omega, rfl⟩

/-- The loads of a block give its words. -/
theorem loadAll_words (h : M.Readable lo hi m) (n w : Nat) (hlo : lo ≤ w) (hhi : w + n ≤ hi) :
    M.loadAll ((wordSteps n (BitVec.ofNat 32 (4 * w))).map physical) m =
      ((List.range n).map fun i => M.wordAt m (w + i), m) := by
  induction n generalizing w with
  | zero => rfl
  | succ n ih =>
    have hnext : BitVec.ofNat 32 (4 * w) + 4 = BitVec.ofNat 32 (4 * (w + 1)) := by
      rw [Nat.mul_add, BitVec.ofNat_add]
      rfl
    have hwords : (fun i => M.wordAt m (w + 1 + i)) = (fun i => M.wordAt m (w + i)) ∘ Nat.succ := by
      funext i
      rw [Function.comp_apply, Nat.succ_eq_add_one, Nat.add_right_comm, Nat.add_assoc]
    rw [wordSteps, List.map_cons, loadAll_cons, hnext, ← wordAddr, h.load_memory w hlo (by omega),
      ih (w + 1) (by omega) (by omega), List.range_succ_eq_map, List.map_cons, List.map_map, hwords]
    rfl

/-- A block is read as its words. -/
theorem readBlock_words (h : M.Readable lo hi m) {w n : Nat} (hlo : lo ≤ w) (hhi : w + n ≤ hi) :
    Performs S.Holds (targetReadBlock A (BitVec.ofNat 32 (4 * w)) (BitVec.ofNat 32 n)) m
      ((List.range n).map fun i => M.wordAt m (w + i)) m := by
  have hbound := h.bound
  have hcount : (BitVec.ofNat 32 n).toNat = n := by
    rw [BitVec.toNat_ofNat]
    omega
  have hplaces := (blockPlaces_eq_iff A.readBlock.isSome _ _).mpr (h.inPlace A.readBlock.isSome hlo hhi)
  have hblock := Serves.readBlock_performs (S := S) (m := m) (BitVec.ofNat 32 (4 * w)) (BitVec.ofNat 32 n)
  rw [hcount] at hplaces hblock
  rw [hplaces, loadAll_words h n w hlo hhi] at hblock
  exact hblock

theorem flatMap_words (m : μ) (w n : Nat) :
    ((List.range n).map fun i => M.wordAt m (w + i)).flatMap wordBytes = M.bytes m (4 * w) (4 * n) := by
  induction n with
  | zero => rfl
  | succ n ih =>
    rw [List.range_succ, List.map_append, List.flatMap_append, ih, Nat.mul_add, bytes_add]
    change _ ++ (wordBytes (M.wordAt m (w + n)) ++ []) = _
    rw [List.append_nil, M.wordBytes_wordAt, Nat.mul_add]

/-- The address of a block. -/
theorem blockAddr (w k : Nat) :
    BitVec.ofNat 32 (4 * w) + BitVec.ofNat 32 (blockSz * k) = BitVec.ofNat 32 (4 * (w + 256 * k)) := by
  rw [← BitVec.ofNat_add, show 4 * w + blockSz * k = 4 * (w + 256 * k) by rw [blockSz]; omega]

/-- The blocks that are left are written behind the others. -/
theorem saveBlocks_performs {takes : OutFile} (htakes : ∀ file bytes, takes file bytes = true) (h : M.Readable lo hi m)
    {w : Nat} (hlo : lo ≤ w) (len : Int) (hhi : 4 * w + len.toNat ≤ 4 * hi) (n k : Nat)
    (hend : blockSz * (k + n) < len.toNat + blockSz) (file : List Byte) :
    Performs S.Holds (saveBlocks A takes (BitVec.ofNat 32 (4 * w)) len (List.range' k n) file) m
      (file ++ M.bytes m (4 * w + blockSz * k) (min (blockSz * n) (len.toNat - blockSz * k))) m := by
  induction n generalizing k file with
  | zero =>
    rw [Nat.mul_zero, Nat.zero_min]
    have hnone : M.bytes m (4 * w + blockSz * k) 0 = [] := rfl
    rw [hnone, List.append_nil]
    exact performs_pure _ _
  | succ n ih =>
    have hblock := readBlock_words (S := S) (m := m) h (w := w + 256 * k)
      (n := (blockLen len (blockSz * k) + 3) / 4) (by omega) (by
        rw [blockSz] at hend
        rw [blockLen, blockSz]
        omega)
    rw [List.range'_succ, saveBlocks]
    dsimp only
    rw [blockAddr]
    refine hblock.bind ?_
    rw [if_pos (htakes _ _), flatMap_words, M.take_bytes _ _ (by omega), show 4 * (w + 256 * k) = 4 * w + blockSz * k by
      rw [blockSz]; omega]
    have hrest := ih (k + 1) (by rwa [Nat.add_assoc, Nat.add_comm 1])
      (file ++ M.bytes m (4 * w + blockSz * k) (blockLen len (blockSz * k)))
    rw [List.append_assoc] at hrest
    have hbytes : M.bytes m (4 * w + blockSz * k) (blockLen len (blockSz * k)) ++
        M.bytes m (4 * w + blockSz * (k + 1)) (min (blockSz * n) (len.toNat - blockSz * (k + 1))) =
          M.bytes m (4 * w + blockSz * k) (min (blockSz * (n + 1)) (len.toNat - blockSz * k)) := by
      rcases Nat.lt_or_ge (len.toNat - blockSz * k) blockSz with hlast | hmore
      · have hcount : blockLen len (blockSz * k) = len.toNat - blockSz * k := by
          rw [blockLen, Nat.min_eq_right hlast.le]
        have hnone : min (blockSz * n) (len.toNat - blockSz * (k + 1)) = 0 := by
          rw [Nat.mul_succ]
          omega
        have hall : min (blockSz * (n + 1)) (len.toNat - blockSz * k) = len.toNat - blockSz * k := by
          rw [Nat.mul_succ]
          omega
        rw [hcount, hnone, hall]
        exact List.append_nil _
      · have hcount : blockLen len (blockSz * k) = blockSz := by
          rw [blockLen, Nat.min_eq_left hmore]
        have hall : min (blockSz * (n + 1)) (len.toNat - blockSz * k) =
            blockSz + min (blockSz * n) (len.toNat - blockSz * (k + 1)) := by
          rw [Nat.mul_succ, Nat.mul_succ]
          omega
        rw [hcount, hall, bytes_add, Nat.mul_succ, Nat.add_assoc]
    rw [hbytes] at hrest
    exact hrest

/-- The blocks cover the range. -/
theorem blocks_cover (len : Int) : len.toNat ≤ blockSz * ((len.toNat + (blockSz - 1)) / blockSz) := by
  rw [blockSz]
  omega

/-- Once flash memory has been found the file gets the bytes of the range, and the memory stays. -/
theorem doRead_bytes {inv : Invocation} {takes : OutFile} (htakes : ∀ file bytes, takes file bytes = true)
    (h : M.Readable lo hi m) {base : Word} {len : Int} (halign : base.toNat % 4 = 0) (hlo : lo ≤ base.toNat / 4)
    (hhi : base.toNat + len.toNat ≤ 4 * hi) {d : Detection} {tr : List ControlEvent} {s s₁ : Session σ}
    (hprobe : (probeFlash A inv base).Returns s d tr s₁) (hfound : d.found.isSome = true) (hm : S.Holds m s₁) :
    ∃ tr' s', (doRead A inv takes base len).Returns s (d.target, M.bytes m base.toNat len.toNat) tr' s' ∧
      S.Holds m s' := by
  obtain ⟨w, hw⟩ : ∃ w, base.toNat = 4 * w := ⟨base.toNat / 4, by omega⟩
  have hbase : base = BitVec.ofNat 32 (4 * w) := by rw [← hw, BitVec.ofNat_toNat, BitVec.setWidth_eq]
  have hsave := saveBlocks_performs (A := A) (S := S) (m := m) htakes h (w := w) (by omega) len (by omega)
    ((len.toNat + (blockSz - 1)) / blockSz) 0 (by rw [blockSz]; omega) []
  have hcover := blocks_cover len
  rw [List.nil_append, Nat.mul_zero, Nat.add_zero, Nat.sub_zero, Nat.min_eq_right hcover, ← hbase, ← hw] at hsave
  obtain ⟨s', ⟨tr₂, hreturns⟩, hs'⟩ := hsave s₁ hm
  have hblocks : blocks len = List.range' 0 ((len.toNat + (blockSz - 1)) / blockSz) := List.range_eq_range'
  have hcalls : (calls (saveBlocks A takes base len (blocks len) [])).Returns s₁ (M.bytes m base.toNat len.toNat)
      (tr₂.map .call) s' := by
    rw [hblocks]
    exact Program.returns_mapEvents_iff.mpr ⟨tr₂, hreturns, rfl⟩
  refine ⟨tr ++ (tr₂.map .call ++ []), s', hprobe.bind ?_, hs'⟩
  rw [if_pos hfound]
  exact hcalls.bind rfl

/-- The image holds the bytes of the memory. -/
def MemoryImage.Shows (mem : MemoryImage) (M : AddressSpace μ) (m : μ) : Prop :=
  ∀ o : Nat, (o : Int) < mem.len → mem.data o = M.byteAt m (mem.base.toNat + o)

/-- The words of the image are then those of the memory. -/
theorem MemoryImage.Shows.word {mem : MemoryImage} (h : mem.Shows M m) {w v : Nat} (hbase : mem.base.toNat = 4 * w)
    (hv : 4 * v + 4 ≤ mem.len.toNat) : mem.word (4 * v) = M.wordAt m (w + v) := by
  refine word_ext fun k hk => ?_
  have hbyte : byteOf (mem.word (4 * v)) k = mem.data (4 * v + k) := by
    rw [MemoryImage.word, byteOf_setBytes _ _ _ (le_refl 4) hk, if_pos ⟨Nat.zero_le k, hk⟩, Nat.sub_zero]
    match k, hk with
    | 0, _ => rfl
    | 1, _ => rfl
    | 2, _ => rfl
    | 3, _ => rfl
  rw [hbyte, h _ (by omega), hbase, byteAt, show (4 * w + (4 * v + k)) / 4 = w + v by omega,
    show (4 * w + (4 * v + k)) % 4 = k by omega]

/-- Words that are as they should be are left alone. -/
theorem verifyWords_same {t : Target} {verifyOnly : Bool} {mem : MemoryImage} (words : List Word) (offset : Nat)
    (h : ∀ i (hi : i < words.length), words[i] = mem.word (offset + 4 * i)) :
    verifyWords A t verifyOnly mem offset words = pure () := by
  induction words generalizing offset with
  | nil => rfl
  | cons word words ih =>
    have hword : word = mem.word offset := h 0 (Nat.succ_pos _)
    rw [verifyWords, verifyWord, if_pos hword, pure_bind]
    refine ih (offset + 4) fun i hi => ?_
    rw [show offset + 4 + 4 * i = offset + 4 * (i + 1) by omega]
    exact h (i + 1) (Nat.succ_lt_succ hi)

variable {t : Target} {mem : MemoryImage}

/-- The blocks of an image that the memory holds are found to be the same. -/
theorem eachBlock_verifies (h : M.Readable lo hi m) (store : Nat → Nat → Action σ Unit) (hshows : mem.Shows M m)
    {w : Nat} (hbase : mem.base.toNat = 4 * w) (hlo : lo ≤ w) (hwhole : mem.len.toNat % 4 = 0)
    (hhi : 4 * w + mem.len.toNat ≤ 4 * hi) (n k : Nat) (hend : blockSz * (k + n) < mem.len.toNat + blockSz) :
    Performs S.Holds (eachBlock A t true mem store (List.range' k n)) m () m := by
  induction n generalizing k with
  | zero => exact performs_pure _ _
  | succ n ih =>
    obtain ⟨count, hcount⟩ : ∃ count, count = (blockLen mem.len (blockSz * k) + 3) / 4 := ⟨_, rfl⟩
    have hfits : 256 * k + count ≤ mem.len.toNat / 4 := by
      rw [blockSz] at hend
      rw [hcount, blockLen, blockSz]
      omega
    have hblock := readBlock_words (S := S) (m := m) h (w := w + 256 * k) (n := count) (by omega) (by omega)
    have hword : mem.base = BitVec.ofNat 32 (4 * w) := by rw [← hbase, BitVec.ofNat_toNat, BitVec.setWidth_eq]
    have hsame : verifyWords A t true mem (blockSz * k) ((List.range count).map fun i => M.wordAt m (w + 256 * k + i)) =
        pure () := by
      refine verifyWords_same _ _ fun i hi => ?_
      rw [List.length_map, List.length_range] at hi
      rw [List.getElem_map, List.getElem_range, show blockSz * k + 4 * i = 4 * (256 * k + i) by rw [blockSz]; omega,
        hshows.word hbase (by omega), Nat.add_assoc]
    have hverify : Performs S.Holds (verifyBlock A t true mem (blockSz * k) (blockLen mem.len (blockSz * k))) m () m := by
      rw [verifyBlock, hword, blockAddr, ← hcount]
      refine hblock.bind ?_
      rw [hsame]
      exact performs_pure _ _
    rw [List.range'_succ]
    exact (performs_pure () m).bind (hverify.bind (ih (k + 1) (by rwa [Nat.add_assoc, Nat.add_comm 1])))

/-- A file of the bytes of the memory is loaded as an image that the memory holds. -/
theorem loaded_bytes (base : Word) {n : Nat} (hsize : n ≤ memorySize) (l : LoadState) :
    ∃ mem, loaded (readBinAt base (M.bytes m base.toNat n)) l = .ok mem ∧ mem.base = base ∧ mem.len = n ∧
      mem.Shows M m := by
  have htake : (M.bytes m base.toNat n).take memorySize = M.bytes m base.toNat n :=
    List.take_of_length_le (by rwa [M.length_bytes])
  refine ⟨_, rfl, rfl, ?_, fun o ho => ?_⟩
  · rw [htake, M.length_bytes]
  · have hlt : o < n := by
      rw [htake, M.length_bytes] at ho
      exact Int.ofNat_lt.mp ho
    change (placed 0 ((M.bytes m base.toNat n).take memorySize) o).getD _ = _
    rw [htake, placed_of_le (Nat.zero_le o), Nat.sub_zero, bytes, List.getElem?_map, List.getElem?_range hlt]
    rfl

/-- What has been read into a file is found to be the same when it is verified: the file has the bytes of
the range, and a run that loads it at its address and verifies it ends without an error, where it finds
the memory as it was left. -/
theorem doRead_verifies {inv : Invocation} {takes : OutFile} (htakes : ∀ file bytes, takes file bytes = true)
    (h : M.Readable lo hi m) {base : Word} {len : Int} (halign : base.toNat % 4 = 0) (hwhole : len.toNat % 4 = 0)
    (hsize : len.toNat ≤ memorySize) (hlo : lo ≤ base.toNat / 4) (hhi : base.toNat + len.toNat ≤ 4 * hi)
    {d : Detection} {tr : List ControlEvent} {s s₁ : Session σ} (hprobe : (probeFlash A inv base).Returns s d tr s₁)
    (hfound : d.found.isSome = true) (hm : S.Holds m s₁) :
    ∃ file tr' s', (doRead A inv takes base len).Returns s (d.target, file) tr' s' ∧ S.Holds m s' ∧
      file = M.bytes m base.toNat len.toNat ∧ ∀ l, ∃ mem, loaded (readBinAt base file) l = .ok mem ∧
        ∀ again : Invocation, again.verifyOnly = true → ∀ t tr₂ s₂ s₃,
          (openDevice A again.settings).Returns s₂ t tr₂ s₃ → S.Holds m s₃ →
          ∃ tr₄ s₄, (doWrite A again mem).Returns s₂ t tr₄ s₄ ∧ S.Holds m s₄ := by
  obtain ⟨tr', s', hread, hs'⟩ := doRead_bytes htakes h halign hlo hhi hprobe hfound hm
  refine ⟨_, tr', s', hread, hs', rfl, fun l => ?_⟩
  obtain ⟨mem, hloaded, hbase, hlen, hshows⟩ := loaded_bytes (M := M) (m := m) base hsize l
  refine ⟨mem, hloaded, fun again hverify t tr₂ s₂ s₃ hopen hs₃ => ?_⟩
  have hcount : mem.len.toNat = len.toNat := by rw [hlen, Int.toNat_natCast]
  have hblocks := eachBlock_verifies (A := A) (S := S) (t := t) h (writeBlock A t mem) hshows
    (w := base.toNat / 4) (by rw [hbase]; omega) hlo (by omega) (by omega)
    ((mem.len.toNat + (blockSz - 1)) / blockSz) 0 (by rw [blockSz]; omega)
  obtain ⟨s₄, ⟨tr₄, hreturns⟩, hs₄⟩ := hblocks s₃ hs₃
  have hall : blocks mem.len = List.range' 0 ((mem.len.toNat + (blockSz - 1)) / blockSz) := List.range_eq_range'
  have hcalls : (calls (eachBlock A t again.verifyOnly mem (writeBlock A t mem) (blocks mem.len))).Returns s₃ ()
      (tr₄.map .call) s₄ := by
    rw [hall, hverify]
    exact Program.returns_mapEvents_iff.mpr ⟨tr₄, hreturns, rfl⟩
  have hend : (pure t : Control σ Target).Returns s₄ t [] s₄ := rfl
  exact ⟨tr₂ ++ (tr₄.map .call ++ []), s₄, hopen.bind (hcalls.bind hend), hs₄⟩

/-- A processor with memory only. -/
def ramBoard : Adapter (MemoryInterface (Word → Word)) :=
  { memoryAdapter ram false false with getIdcode := fun d => .ok (mc12Id, d) }

def ramBoard_serves : Serves ramBoard ram := { memoryAdapter_serves ram false false with }

/-- `mcprog -r file bfc00000 8`. -/
def readEight : Invocation where
  eraseMode := -1
  verifyOnly := false
  memoryWriteMode := false
  startAddr := defaultAddr
  file := []
  fileNumber := 0
  address := none
  settings := [.flash 0x1FC00000 0x1FFFFFFF]
  codes := ⟨0, 0⟩

/-- Every word of the memory is the id of a chip. -/
def idWords : Session (MemoryInterface (Word → Word)) := ⟨0, ⟨0, 0, 0, fun _ => 0x225b225b⟩⟩

/-- The last command is still there, and read with the word behind it. -/
theorem doRead_verifies_eight : ∃ t tr s', (doRead ramBoard readEight (fun _ _ => true) 0xBFC00000 8).Returns idWords
    (t, [0xF0, 0, 0xF0, 0, 0x5B, 0x22, 0x5B, 0x22]) tr s' := by
  have hprobe : ((probeFlash ramBoard readEight 0xBFC00000 idWords).result.toOption.map fun d => d.found.isSome) =
      some true := by decide +kernel
  obtain ⟨d, tr, s₁, hd, hfound⟩ := exists_returns hprobe
  have hs₁ : (probeFlash ramBoard readEight 0xBFC00000 idWords).state = s₁ := congrArg Outcome.state hd
  have hagrees : s₁.device.oscr = s₁.oscr ∧ s₁.device.memory 0x1FC00000 = 0x00F000F0 ∧
      s₁.device.memory 0x1FC00004 = 0x225B225B := by
    rw [← hs₁]
    decide +kernel
  have hreadable : ram.Readable 0x2FF00000 0x2FF00002 s₁.device.memory := by
    refine ⟨by decide, fun w hlo hhi => ?_, fun _ _ _ => rfl⟩
    obtain rfl | rfl : w = 0x2FF00000 ∨ w = 0x2FF00001 := by omega
    · rfl
    · decide
  have htakes : ∀ file bytes : List Byte, (fun _ _ => true : OutFile) file bytes = true := fun _ _ => rfl
  obtain ⟨file, tr', s', hread, -, hfile, -⟩ := doRead_verifies (S := ramBoard_serves) htakes hreadable
    (by decide) (by decide : (8 : Int).toNat % 4 = 0) (by decide) (by decide) (by decide) hd hfound
    ⟨⟨congrArg (BitVec.getLsbD · 0) hagrees.1.symm, congrArg (BitVec.getLsbD · 1) hagrees.1.symm⟩, rfl⟩
  have hbytes : ram.bytes s₁.device.memory 0xBFC00000 8 =
      wordBytes (s₁.device.memory 0x1FC00000) ++ wordBytes (s₁.device.memory 0x1FC00004) := by
    rw [show (8 : Nat) = 4 + 4 from rfl, bytes_add, ← ram.wordBytes_wordAt s₁.device.memory 0x2FF00000,
      ← ram.wordBytes_wordAt s₁.device.memory 0x2FF00001]
    rfl
  have hlist : file = [0xF0, 0, 0xF0, 0, 0x5B, 0x22, 0x5B, 0x22] := by
    refine hfile.trans (hbytes.trans ?_)
    rw [hagrees.2.1, hagrees.2.2]
    decide
  rw [hlist] at hread
  exact ⟨_, tr', s', hread⟩

end Mcprog
