import Mcprog.Target.MemoryMap

/-!
# Blocks and single words

An access to a block is compared with accesses to its words one by one. The address of a block is
mapped once, that of each word by itself, so that the two agree where the mapping goes through the
steps of the address.
-/

namespace Mcprog

open Interaction Program

variable {σ μ : Type} {A : Adapter σ} {M : AddressSpace μ} {S : Serves A M} {m : μ} {t : Target}

/-- Load the words of a block one by one. -/
def readWords (A : Adapter σ) : Nat → Word → Action σ (List Word)
  | 0, _ => pure []
  | n + 1, addr => do
    let word ← targetReadWord A addr
    let rest ← readWords A n (addr + 4)
    return word :: rest

/-- Words are loaded one by one, by induction on their number. -/
theorem Serves.readWords_performs (n : Nat) (addr : Word) :
    Performs S.Holds (readWords A n addr) m (M.loadAll ((wordSteps n addr).map physical) m).1
      (M.loadAll ((wordSteps n addr).map physical) m).2 := by
  induction n generalizing addr m with
  | zero => exact performs_pure _ _
  | succ n ih => exact (Serves.readWord_performs addr).bind ((ih (addr + 4)).bind (performs_pure _ _))

/-- Words are stored one by one, by induction on them. -/
theorem Serves.writeWords_performs (words : List Word) (addr : Word) :
    Performs S.Holds (writeWords A t words addr) m ()
      (M.storeAll (((wordSteps words.length addr).map physical).zip words) m) := by
  induction words generalizing addr m with
  | nil => exact performs_pure _ _
  | cons word words ih => exact (Serves.writeWord_performs addr word).bind (ih (addr + 4))

/-- Where the word with the number `k` of a block is accessed. -/
def blockPlace (fast : Bool) (addr : Word) (k : Nat) : Word :=
  if fast then physical addr + 4 * BitVec.ofNat 32 k
  else physical (physical addr + 4 * BitVec.ofNat 32 k)

/-- Every word of a block is accessed where it is by itself. -/
def InPlace (fast : Bool) (addr nwords : Word) : Prop :=
  ∀ k < nwords.toNat, blockPlace fast addr k = physical (addr + 4 * BitVec.ofNat 32 k)

instance (fast : Bool) (addr nwords : Word) : Decidable (InPlace fast addr nwords) :=
  inferInstanceAs (Decidable (∀ k < nwords.toNat, _))

theorem getElem?_blockPlaces {fast : Bool} {n k : Nat} (h : k < n) (addr : Word) :
    (blockPlaces fast n addr)[k]? = some (blockPlace fast addr k) := by
  cases fast with
  | true => exact getElem?_wordSteps h _
  | false => rw [blockPlaces, if_neg Bool.false_ne_true, List.getElem?_map, getElem?_wordSteps h]; rfl

theorem length_blockPlaces (fast : Bool) (n : Nat) (addr : Word) :
    (blockPlaces fast n addr).length = n := by
  cases fast with
  | true => exact length_wordSteps n _
  | false => exact (List.length_map _).trans (length_wordSteps n _)

/-- The addresses of a block are those of its words exactly where each of them is. -/
theorem blockPlaces_eq_iff (fast : Bool) (addr nwords : Word) :
    blockPlaces fast nwords.toNat addr = (wordSteps nwords.toNat addr).map physical ↔
      InPlace fast addr nwords := by
  have hword : ∀ k < nwords.toNat, ((wordSteps nwords.toNat addr).map physical)[k]? =
      some (physical (addr + 4 * BitVec.ofNat 32 k)) := by
    intro k hk
    rw [List.getElem?_map, getElem?_wordSteps hk]
    rfl
  constructor
  · intro h k hk
    have hplace : (blockPlaces fast nwords.toNat addr)[k]? = _ := getElem?_blockPlaces hk addr
    rw [h, hword k hk] at hplace
    exact (Option.some.inj hplace).symm
  · intro h
    apply List.ext_getElem?
    intro k
    by_cases hk : k < nwords.toNat
    · rw [getElem?_blockPlaces hk, hword k hk, h k hk]
    · rw [List.getElem?_eq_none, List.getElem?_eq_none]
      · rw [List.length_map, length_wordSteps]
        omega
      · rw [length_blockPlaces]
        omega

/-- The segment of an address: the one that is physical, the cached one or the other one. -/
def segment (addr : Word) : Nat :=
  if addr.toNat < 0x80000000 then 0 else if addr.toNat < 0xA0000000 then 1 else 2

/-- The address of a word, as long as the addresses do not wrap around. -/
theorem step_toNat {addr : Word} {k : Nat} (h : addr.toNat + 4 * k < 2 ^ 32) :
    (addr + 4 * BitVec.ofNat 32 k).toNat = addr.toNat + 4 * k := by
  have hval : (4 : Word).toNat = 4 := rfl
  rw [BitVec.toNat_add, BitVec.toNat_mul, BitVec.toNat_ofNat, hval]
  omega

theorem segment_lt (addr : Word) : segment addr < 3 := by
  unfold segment
  split_ifs <;> decide

/-- Where a segment starts. -/
def segmentStart (n : Nat) : Nat := if n = 0 then 0 else if n = 1 then 0x80000000 else 0xA0000000

theorem segmentStart_inj : ∀ m < 3, ∀ n < 3, (segmentStart m = segmentStart n ↔ m = n) := by decide

/-- An address is as far behind the start of its segment as its word is in the memory. -/
theorem segmentStart_add_physical (addr : Word) :
    segmentStart (segment addr) + (physical addr).toNat = addr.toNat := by
  rw [physical_toNat, segment]
  by_cases hlow : addr.toNat < 0x80000000
  · rw [if_pos hlow, if_neg (by omega), if_neg (by omega)]
    exact Nat.zero_add _
  rw [if_neg hlow]
  by_cases hcached : addr.toNat < 0xA0000000
  · rw [if_pos hcached, if_neg (by omega), if_pos (by omega)]
    exact Nat.add_sub_of_le (Nat.not_lt.mp hlow)
  · rw [if_neg hcached, if_pos (by omega)]
    exact Nat.add_sub_of_le (Nat.not_lt.mp hcached)

/-- With a method for blocks a word is in place exactly in the segment of the block. -/
theorem blockPlace_fast_iff {addr : Word} {k : Nat} (h : addr.toNat + 4 * k < 2 ^ 32) :
    blockPlace true addr k = physical (addr + 4 * BitVec.ofNat 32 k) ↔
      segment (addr + 4 * BitVec.ofNat 32 k) = segment addr := by
  have hfirst := segmentStart_add_physical addr
  have hword := segmentStart_add_physical (addr + 4 * BitVec.ofNat 32 k)
  have hplace : (physical addr + 4 * BitVec.ofNat 32 k).toNat = (physical addr).toNat + 4 * k :=
    step_toNat (by omega)
  rw [step_toNat h] at hword
  rw [← BitVec.toNat_inj, blockPlace, if_pos rfl, hplace, ← segmentStart_inj _ (segment_lt _) _ (segment_lt _)]
  omega

/-- Without one a word is in place unless the block starts in the cached segment and the word is
beyond it. -/
theorem blockPlace_slow_iff {addr : Word} {k : Nat} (h : addr.toNat + 4 * k < 2 ^ 32) :
    blockPlace false addr k = physical (addr + 4 * BitVec.ofNat 32 k) ↔
      (segment addr = 1 → segment (addr + 4 * BitVec.ofNat 32 k) = 1) := by
  have hfirst := segmentStart_add_physical addr
  by_cases hlow : addr.toNat < 0x80000000
  · -- the block starts at its own address
    have hseg : segment addr ≠ 1 := by
      rw [segment, if_pos hlow]
      decide
    rw [blockPlace, if_neg Bool.false_ne_true, physical_of_lt hlow]
    exact iff_of_true rfl fun hone => absurd hone hseg
  · -- behind it the places are as with the method
    have hstart : 0x80000000 ≤ segmentStart (segment addr) := by
      rw [segment, if_neg hlow]
      split_ifs <;> decide
    have hplace : (physical addr + 4 * BitVec.ofNat 32 k).toNat = (physical addr).toNat + 4 * k :=
      step_toNat (by omega)
    have hfast := blockPlace_fast_iff h
    rw [blockPlace, if_pos rfl] at hfast
    have hphysical : (physical addr + 4 * BitVec.ofNat 32 k).toNat < 0x80000000 := by omega
    rw [blockPlace, if_neg Bool.false_ne_true, physical_of_lt hphysical, hfast]
    constructor
    · exact fun hsame hone => hsame.trans hone
    · intro hcached
      by_cases hhigh : addr.toNat < 0xA0000000
      · have hone : segment addr = 1 := by rw [segment, if_neg hlow, if_pos hhigh]
        exact (hcached hone).trans hone.symm
      · rw [segment, segment, step_toNat h, if_neg hlow, if_neg hhigh, if_neg (by omega), if_neg (by omega)]

/-- In one segment every word is in place. -/
theorem inPlace_of_segment (fast : Bool) {addr nwords : Word}
    (h : ∀ k < nwords.toNat, addr.toNat + 4 * k < 2 ^ 32 ∧
      segment (addr + 4 * BitVec.ofNat 32 k) = segment addr) : InPlace fast addr nwords := by
  intro k hk
  obtain ⟨hlt, hseg⟩ := h k hk
  cases fast with
  | true => exact (blockPlace_fast_iff hlt).mpr hseg
  | false => exact (blockPlace_slow_iff hlt).mpr fun hone => hseg.trans hone

/-- The simplest device in front of a memory: it is always ready. -/
def memoryAdapter (M : AddressSpace μ) (fastRead fastWrite : Bool) : Adapter (MemoryInterface μ) where
  close d := .ok ((), d)
  getIdcode d := .ok (0, d)
  cpuStopped d := .ok (true, d)
  stopCpu d := .ok ((), d)
  resetCpu d := .ok ((), d)
  oncdWrite val reg _ d := .ok ((),
    if reg = oncdOmar then { d with omar := val }
    else if reg = oncdOmdr then { d with omdr := val }
    else if reg = oncdOscr then { d with oscr := val }
    else if reg = oncdMem then M.cycle d
    else d)
  oncdRead reg _ d := .ok (if reg = oncdOscr then d.oscr ||| oscrRdym else d.omdr, d)
  blockWords := 64
  programBlockWords := 0
  stepCpu := none
  runCpu := none
  readBlock := if fastRead then
      some fun n addr s => .ok (fun i => (M.loadAll (wordSteps n.toNat addr) s.device.memory).1.getD i 0,
        { s with device := { s.device with
            memory := (M.loadAll (wordSteps n.toNat addr) s.device.memory).2 } })
    else none
  writeBlock := if fastWrite then
      some fun addr words s => .ok ((), { s with device := { s.device with
        memory := M.storeAll (consecutive addr words) s.device.memory } })
    else none
  writeNwords := none
  programBlock32 := none
  programBlock32Unprotect := none
  programBlock32Protect := none
  programBlock64 := none
  programBlock32Micron := none
  blockWords_pos _ := by decide
  programBlockWords_pos h := by simp at h
  unprotect_of_protect h := by simp at h

theorem AddressSpace.length_loadAll (M : AddressSpace μ) (addrs : List Word) (m : μ) :
    (M.loadAll addrs m).1.length = addrs.length := by
  induction addrs generalizing m with
  | nil => rfl
  | cons addr addrs ih => rw [loadAll_cons, List.length_cons, List.length_cons, ih]

/-- A buffer that holds a list holds its words. -/
theorem wordsOf_getD (words : List Word) : wordsOf words.length (fun i => words.getD i 0) = words := by
  induction words with
  | nil => rfl
  | cons word words ih => exact (wordsOf_succ _ _).trans (congrArg (word :: ·) ih)

/-- It serves the memory. -/
def memoryAdapter_serves (M : AddressSpace μ) (fastRead fastWrite : Bool) :
    Serves (memoryAdapter M fastRead fastWrite) M where
  view := id
  busy _ := 0
  busy_lt _ := by decide
  write_omar val d := ⟨_, rfl, rfl⟩
  write_omdr val d := ⟨_, rfl, rfl⟩
  write_oscr val d := ⟨_, rfl, rfl⟩
  write_mem d _ := ⟨_, rfl, rfl⟩
  read_oscr d := ⟨_, d, rfl, rfl, by simp [MemoryInterface.Agrees, oscrRdym], .inl (by
    change (d.oscr ||| oscrRdym) &&& oscrRdym ≠ 0
    have hready : (d.oscr ||| oscrRdym) &&& oscrRdym = oscrRdym := by
      ext i hi
      simp
      tauto
    rw [hready]
    decide)⟩
  read_omdr d := ⟨d, rfl, rfl⟩
  read_block := by
    intro read hread n hn addr s hs
    cases fastRead with
    | false => cases hread
    | true =>
      obtain rfl := Option.some.inj hread
      refine ⟨_, _, rfl, hs, ?_⟩
      have hlen : n.toNat = (M.loadAll (wordSteps n.toNat addr) s.device.memory).1.length := by
        rw [AddressSpace.length_loadAll, length_wordSteps]
      have hwords := wordsOf_getD (M.loadAll (wordSteps n.toNat addr) s.device.memory).1
      rw [← hlen] at hwords
      rw [hwords]
      rfl
  write_block := by
    intro write hwrite words hlen addr s hs
    cases fastWrite with
    | false => cases hwrite
    | true =>
      obtain rfl := Option.some.inj hwrite
      exact ⟨_, rfl, hs, rfl⟩

/-- Loading and storing a block come to the same as its words one by one, for every memory behind
an adapter with or without methods for blocks: the same words, and the same memory afterwards. -/
structure BlocksAsWords (fastRead fastWrite : Bool) (addr nwords : Word) : Prop where
  reads : ∀ {σ μ : Type} {A : Adapter σ} {M : AddressSpace μ} (S : Serves A M),
    A.readBlock.isSome = fastRead → ∀ m s, S.Holds m s → ∃ words m' s₁ s₂,
      (targetReadBlock A addr nwords).Reaches s words s₁ ∧ S.Holds m' s₁ ∧
      (readWords A nwords.toNat addr).Reaches s words s₂ ∧ S.Holds m' s₂
  writes : ∀ {σ μ : Type} {A : Adapter σ} {M : AddressSpace μ} (S : Serves A M) (t : Target),
    A.writeBlock.isSome = fastWrite → ∀ data m s, S.Holds m s → ∃ m' s₁ s₂,
      (targetWriteBlock A t addr nwords data).Reaches s () s₁ ∧ S.Holds m' s₁ ∧
      (writeWords A t (wordsOf nwords.toNat data) addr).Reaches s () s₂ ∧ S.Holds m' s₂

section Reads

variable {fast : Bool} {addr nwords : Word}

/-- A block in place is loaded like its words. -/
theorem readBlock_asWords (h : InPlace fast addr nwords) (S : Serves A M)
    (hfast : A.readBlock.isSome = fast) (m : μ) (s : Session σ) (hs : S.Holds m s) :
    ∃ words m' s₁ s₂, (targetReadBlock A addr nwords).Reaches s words s₁ ∧ S.Holds m' s₁ ∧
      (readWords A nwords.toNat addr).Reaches s words s₂ ∧ S.Holds m' s₂ := by
  have hplaces := (blockPlaces_eq_iff fast addr nwords).mpr h
  obtain ⟨s₁, hr₁, hs₁⟩ := Serves.readBlock_performs addr nwords s hs
  obtain ⟨s₂, hr₂, hs₂⟩ := Serves.readWords_performs nwords.toNat addr s hs
  rw [hfast, hplaces] at hr₁ hs₁
  exact ⟨_, _, s₁, s₂, hr₁, hs₁, hr₂, hs₂⟩

/-- A block in place is stored like its words. -/
theorem writeBlock_asWords (hpos : 0 < nwords.toNat) (h : InPlace fast addr nwords) (S : Serves A M)
    (t : Target) (hfast : A.writeBlock.isSome = fast) (data : Nat → Word) (m : μ) (s : Session σ)
    (hs : S.Holds m s) :
    ∃ m' s₁ s₂, (targetWriteBlock A t addr nwords data).Reaches s () s₁ ∧ S.Holds m' s₁ ∧
      (writeWords A t (wordsOf nwords.toNat data) addr).Reaches s () s₂ ∧ S.Holds m' s₂ := by
  have hplaces := (blockPlaces_eq_iff fast addr nwords).mpr h
  obtain ⟨s₁, hr₁, hs₁⟩ := Serves.writeBlock_performs (t := t) addr nwords data hpos s hs
  obtain ⟨s₂, hr₂, hs₂⟩ := Serves.writeWords_performs (t := t) (wordsOf nwords.toNat data) addr s hs
  rw [hfast, hplaces] at hs₁
  rw [length_wordsOf] at hs₂
  exact ⟨_, s₁, s₂, hr₁, hs₁, hr₂, hs₂⟩

end Reads

/-- A memory that keeps its stores in their order, and in which every word holds its address. -/
def storeLog : AddressSpace (List (Word × Word)) where
  store addr val m := m ++ [(addr, val)]
  load addr m := (addr, m)

/-- The log of stores is not changed by loads. -/
theorem storeLog_loadAll (addrs : List Word) (m : List (Word × Word)) :
    storeLog.loadAll addrs m = (addrs, m) := by
  induction addrs with
  | nil => rfl
  | cons addr addrs ih =>
    rw [AddressSpace.loadAll_cons]
    change (addr :: (storeLog.loadAll addrs m).1, (storeLog.loadAll addrs m).2) = _
    rw [ih]

/-- The log of stores gets longer by what is stored. -/
theorem storeLog_storeAll (args m : List (Word × Word)) : storeLog.storeAll args m = m ++ args := by
  induction args generalizing m with
  | nil => exact (List.append_nil m).symm
  | cons a args ih =>
    rw [AddressSpace.storeAll_cons, ih]
    exact List.append_assoc m [a] args

/-- A session of the simplest device before any access. -/
def idleSession (m : μ) : Session (MemoryInterface μ) := ⟨0, ⟨0, 0, 0, m⟩⟩

/-- A session begins with the memory that is given. -/
theorem idleSession_holds (M : AddressSpace μ) (fastRead fastWrite : Bool) (m : μ) :
    (memoryAdapter_serves M fastRead fastWrite).Holds m (idleSession m) := ⟨⟨rfl, rfl⟩, rfl⟩

/-- The adapter of the model has the method for reading, or has not. -/
theorem memoryAdapter_readBlock (M : AddressSpace μ) (fastRead fastWrite : Bool) :
    (memoryAdapter M fastRead fastWrite).readBlock.isSome = fastRead := by
  cases fastRead <;> rfl

/-- The adapter of the model has the method for storing, or has not. -/
theorem memoryAdapter_writeBlock (M : AddressSpace μ) (fastRead fastWrite : Bool) :
    (memoryAdapter M fastRead fastWrite).writeBlock.isSome = fastWrite := by
  cases fastWrite <;> rfl

/-- The memory that keeps its stores tells two orders of addresses from each other. -/
theorem BlocksAsWords.inPlace {fastRead fastWrite : Bool} {addr nwords : Word}
    (hpos : 0 < nwords.toNat) (h : BlocksAsWords fastRead fastWrite addr nwords) :
    InPlace fastRead addr nwords ∧ InPlace fastWrite addr nwords := by
  have hS := idleSession_holds storeLog fastRead fastWrite []
  constructor
  · rw [← blockPlaces_eq_iff]
    obtain ⟨words, m', s₁, s₂, hr₁, -, hr₂, -⟩ := h.reads (memoryAdapter_serves storeLog fastRead
      fastWrite) (memoryAdapter_readBlock _ _ _) [] _ hS
    obtain ⟨s₁', hr₁', -⟩ := Serves.readBlock_performs addr nwords _ hS
    obtain ⟨s₂', hr₂', -⟩ := Serves.readWords_performs nwords.toNat addr _ hS
    rw [storeLog_loadAll, memoryAdapter_readBlock] at hr₁'
    rw [storeLog_loadAll] at hr₂'
    exact (hr₁'.unique hr₁).1.trans (hr₂'.unique hr₂).1.symm
  · rw [← blockPlaces_eq_iff]
    obtain ⟨m', s₁, s₂, hr₁, hs₁, hr₂, hs₂⟩ := h.writes (memoryAdapter_serves storeLog fastRead
      fastWrite) Target.allocated (memoryAdapter_writeBlock _ _ _) (fun _ => 0) [] _ hS
    obtain ⟨s₁', hr₁', hs₁'⟩ := Serves.writeBlock_performs (t := Target.allocated) addr nwords
      (fun _ => 0) hpos _ hS
    obtain ⟨s₂', hr₂', hs₂'⟩ := Serves.writeWords_performs (t := Target.allocated)
      (wordsOf nwords.toNat fun _ => 0) addr _ hS
    obtain rfl := (hr₁'.unique hr₁).2
    obtain rfl := (hr₂'.unique hr₂).2
    rw [storeLog_storeAll, memoryAdapter_writeBlock, List.nil_append] at hs₁'
    rw [storeLog_storeAll, length_wordsOf, List.nil_append] at hs₂'
    have hlog := hs₁'.memory.symm.trans (hs₁.memory.trans (hs₂.memory.symm.trans hs₂'.memory))
    have hfst := congrArg (List.map Prod.fst) hlog
    rwa [List.map_fst_zip (by rw [length_blockPlaces, length_wordsOf]),
      List.map_fst_zip (by rw [List.length_map, length_wordSteps, length_wordsOf])] at hfst

/-- Blocks come to the same as their words exactly where each word is in place, when it is loaded
and when it is stored. -/
theorem blocksAsWords_iff (fastRead fastWrite : Bool) {addr nwords : Word} (hpos : 0 < nwords.toNat) :
    BlocksAsWords fastRead fastWrite addr nwords ↔
      InPlace fastRead addr nwords ∧ InPlace fastWrite addr nwords :=
  ⟨BlocksAsWords.inPlace hpos, fun h =>
    ⟨fun S hfast => readBlock_asWords h.1 S hfast,
      fun S t hfast => writeBlock_asWords hpos h.2 S t hfast⟩⟩

/-- Two words of the cached segment. -/
theorem blocksAsWords_iff_two : BlocksAsWords true false 0x80001000 2 ↔
    InPlace true 0x80001000 2 ∧ InPlace false 0x80001000 2 :=
  blocksAsWords_iff true false (by decide)

/-- The last word of the cached segment and the word after it: the second one is mapped to
`0x20000000` in a block, and to 0 by itself. -/
theorem not_blocksAsWords_segment_end : ¬BlocksAsWords true true 0x9FFFFFFC 2 := by
  intro h
  have hplace := (h.inPlace (by decide)).1 1 (by decide)
  exact absurd hplace (by decide)

end Mcprog
