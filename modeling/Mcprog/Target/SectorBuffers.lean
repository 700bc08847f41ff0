import Mcprog.Target.MicronProgram

/-!
# Buffers and sectors

The chips want the commands and the words of a buffer in one sector. Which blocks the routine
programs that way, and where each word of them goes, with the two paths of the routine.
-/

namespace Mcprog

open Interaction Program

variable {t : Target}

/-- The number of the sector that holds an address. -/
def Target.sector (t : Target) (addr : Word) : Nat := addr.toNat / t.sectorSize.toNat

/-- All accesses of the buffer are in one sector, and its count is that of its words. -/
structure BufferCycle.Sound (t : Target) (c : BufferCycle) : Prop where
  sector : ∃ n, (∀ a ∈ c.commands, t.sector a = n) ∧ ∀ a ∈ c.data, t.sector a.1 = n
  count : ∃ n, c.data.length = n + 1 ∧ c.count = countWord n

/-- The words of a block, each with its own address. -/
def blockData (addr nwords : Word) (data : Nat → Word) : List (Word × Word) :=
  (List.range nwords.toNat).map fun k => (physical (addr + 4 * BitVec.ofNat 32 k), data k)

/-- Every buffer is sound, and unless the chips refuse one, each word of the block is written once
at its address, in order. -/
structure Programmed (t : Target) (addr nwords : Word) (data : Nat → Word) (obs : List BufferEvent) :
    Prop where
  sound : ∀ c ∈ bufferCycles obs, c.Sound t
  complete : .abort ∉ obs → (bufferCycles obs).flatMap (·.data) = blockData addr nwords data

/-- Every run with an adapter of the kind programs the block. -/
def ProgramsBuffers (fast : Bool) (t : Target) (addr nwords : Word) (data : Nat → Word) : Prop :=
  ∀ (σ : Type) (A : Adapter σ), A.programBlock32Micron.isSome = fast → ∀ s tr s',
    (targetProgramBlock32Micron A t addr nwords data).Returns s () tr s' →
      Programmed t addr nwords data (bufferEvents tr)

/-- The addresses of consecutive words, by their number. -/
theorem wordSteps_eq_range (n : Nat) (addr : Word) :
    wordSteps n addr = (List.range n).map fun k => addr + 4 * BitVec.ofNat 32 k := by
  apply List.ext_getElem?
  intro k
  rcases Nat.lt_or_ge k n with hk | hk
  · rw [getElem?_wordSteps hk, List.getElem?_map, List.getElem?_range hk]
    rfl
  · rw [List.getElem?_eq_none (by simpa using hk), List.getElem?_eq_none (by simpa using hk)]

/-- The words with the places that they are stored at. -/
theorem placedWords_eq_zip (fast : Bool) (addr : Word) (words : List Word) :
    placedWords fast addr words = ((wordSteps words.length addr).map (wordPlace fast)).zip words := by
  rw [placedWords, consecutive_eq_zip, List.zip_map_left]
  rfl

/-- The same by their number. -/
theorem placedWords_wordsOf (fast : Bool) (addr : Word) (n : Nat) (data : Nat → Word) :
    placedWords fast addr (wordsOf n data) =
      (List.range n).map fun k => (wordPlace fast (addr + 4 * BitVec.ofNat 32 k), data k) := by
  rw [placedWords_eq_zip, length_wordsOf, wordSteps_eq_range, wordsOf, List.map_map, List.zip_map']
  rfl

/-- The places of the words of a buffer. -/
theorem places_placedWords (fast : Bool) (addr : Word) (words : List Word) :
    (placedWords fast addr words).map Prod.fst = (List.range words.length).map fun k =>
      wordPlace fast (addr + 4 * BitVec.ofNat 32 k) := by
  rw [placedWords_eq_zip, List.map_fst_zip (by simp), wordSteps_eq_range, List.map_map]
  rfl

/-- Each word of a block is where it belongs, in the sector of the commands, and so are the count
and the confirmation of its buffer. -/
def KeepsSector (fast : Bool) (t : Target) (sectorAddr addr : Word) (n : Nat) : Prop :=
  ∀ k < n, wordPlace fast (addr + 4 * BitVec.ofNat 32 k) = physical (addr + 4 * BitVec.ofNat 32 k) ∧
    t.sector (physical (addr + 4 * BitVec.ofNat 32 k)) = t.sector (physical sectorAddr) ∧
    t.sector (bufferPlace fast sectorAddr (addr + 4 * BitVec.ofNat 32 (k - k % 16))) =
      t.sector (physical sectorAddr)

section Places

variable {fast : Bool} {sectorAddr addr : Word} {words rest : List Word} {c : BufferCycle}

/-- Steps over a part and within the next one are added. -/
theorem step_add (addr : Word) (m k : Nat) : addr + BitVec.ofNat 32 m * 4 + 4 * BitVec.ofNat 32 k =
    addr + 4 * BitVec.ofNat 32 (m + k) := by
  rw [BitVec.ofNat_add, BitVec.mul_add, BitVec.mul_comm _ 4, BitVec.add_assoc]

/-- A block keeps its sector when its first buffer and the rest of it do. -/
theorem keepsSector_append_iff (hfull : rest = [] ∨ words.length = 16) :
    KeepsSector fast t sectorAddr addr (words ++ rest).length ↔
      KeepsSector fast t sectorAddr addr words.length ∧
      KeepsSector fast t sectorAddr (addr + BitVec.ofNat 32 words.length * 4) rest.length := by
  rw [List.length_append]
  constructor
  · intro h
    refine ⟨fun k hk => h k (by omega), fun k hk => ?_⟩
    have hlen : words.length = 16 := hfull.resolve_left (by rintro rfl; simp at hk)
    obtain ⟨hplace, hword, hbuffer⟩ := h (words.length + k) (by omega)
    have hstart : words.length + k - (words.length + k) % 16 = words.length + (k - k % 16) := by omega
    rw [hstart, ← step_add] at hbuffer
    rw [step_add]
    exact ⟨hplace, hword, hbuffer⟩
  · rintro ⟨h, h'⟩ k hk
    rcases Nat.lt_or_ge k words.length with hlt | hge
    · exact h k hlt
    · obtain ⟨i, rfl⟩ := Nat.exists_eq_add_of_le hge
      have hlen : words.length = 16 := hfull.resolve_left (by rintro rfl; simp at hk)
      have hstart : words.length + i - (words.length + i) % 16 = words.length + (i - i % 16) := by omega
      obtain ⟨hplace, hword, hbuffer⟩ := h' i (by omega)
      rw [step_add] at hplace hword hbuffer
      rw [hstart]
      exact ⟨hplace, hword, hbuffer⟩

/-- One buffer in its sector is sound. -/
theorem Filled.sound (h : Filled fast sectorAddr addr words c) (hpos : 0 < words.length)
    (hle : words.length ≤ 16) (hkeeps : KeepsSector fast t sectorAddr addr words.length) :
    c.Sound t := by
  refine ⟨⟨t.sector (physical sectorAddr), fun a ha => ?_, fun a ha => ?_⟩,
    ⟨words.length - 1, ?_, h.count⟩⟩
  · rcases h.only a ha with rfl | rfl
    · rfl
    · simpa using (hkeeps 0 hpos).2.2
  · rw [h.data] at ha
    have hfst := List.mem_map_of_mem (f := Prod.fst) ha
    rw [places_placedWords] at hfst
    obtain ⟨k, hk, hplace⟩ := List.mem_map.mp hfst
    obtain ⟨hphys, hword, -⟩ := hkeeps k (List.mem_range.mp hk)
    rw [← hplace, hphys, hword]
  · rw [h.data, length_placedWords]
    omega

/-- A sound buffer with its words where they belong is in its sector. -/
theorem Filled.keepsSector (h : Filled fast sectorAddr addr words c) (hle : words.length ≤ 16)
    (hsound : c.Sound t) (hplace : ∀ k < words.length, wordPlace fast (addr + 4 * BitVec.ofNat 32 k) =
      physical (addr + 4 * BitVec.ofNat 32 k)) :
    KeepsSector fast t sectorAddr addr words.length := by
  obtain ⟨n, hcommands, hdata⟩ := hsound.sector
  have hstart : t.sector (physical sectorAddr) = n := hcommands _ h.polled
  intro k hk
  have hmem : wordPlace fast (addr + 4 * BitVec.ofNat 32 k) ∈ c.data.map Prod.fst := by
    rw [h.data, places_placedWords]
    exact List.mem_map_of_mem (List.mem_range.mpr hk)
  obtain ⟨a, ha, hfst⟩ := List.mem_map.mp hmem
  have hfirst : k - k % 16 = 0 := by omega
  refine ⟨hplace k hk, ?_, ?_⟩
  · rw [← hplace k hk, ← hfst, hdata a ha, hstart]
  · rw [hfirst, hstart]
    simpa using hcommands _ h.filled

/-- The buffers of a block that keeps its sector are sound. -/
theorem Cycles.sound {ok : Bool} {cycles : List BufferCycle}
    (h : Cycles fast sectorAddr ok addr words cycles)
    (hkeeps : KeepsSector fast t sectorAddr addr words.length) : ∀ c ∈ cycles, c.Sound t := by
  induction h with
  | done addr => simp
  | stopped addr words => simp
  | next pos le full filled others ih =>
    obtain ⟨hfirst, hrest⟩ := (keepsSector_append_iff full).mp hkeeps
    intro c hc
    rcases List.mem_cons.mp hc with rfl | hc
    · exact filled.sound pos le hfirst
    · exact ih hrest c hc

/-- All buffers of a block hold all its words. -/
theorem Cycles.flatMap_data {cycles : List BufferCycle}
    (h : Cycles fast sectorAddr true addr words cycles) :
    cycles.flatMap (·.data) = placedWords fast addr words := by
  generalize hok : true = ok at h
  induction h with
  | done addr => rfl
  | stopped addr words => cases hok
  | next pos le full filled others ih =>
    rw [List.flatMap_cons, ih hok, filled.data, placedWords_append]

/-- Where all buffers are sound, with each word where it belongs, the block keeps its sector. -/
theorem Cycles.keepsSector {cycles : List BufferCycle}
    (h : Cycles fast sectorAddr true addr words cycles) (hsound : ∀ c ∈ cycles, c.Sound t)
    (hplace : ∀ k < words.length, wordPlace fast (addr + 4 * BitVec.ofNat 32 k) =
      physical (addr + 4 * BitVec.ofNat 32 k)) :
    KeepsSector fast t sectorAddr addr words.length := by
  generalize hok : true = ok at h
  induction h with
  | done addr =>
    intro k hk
    simp at hk
  | stopped addr words => cases hok
  | next pos le full filled others ih =>
    rw [List.length_append] at hplace
    refine (keepsSector_append_iff full).mpr ⟨filled.keepsSector le
      (hsound _ List.mem_cons_self) fun k hk => hplace k (by omega), ih
      (fun c hc => hsound c (List.mem_cons_of_mem _ hc)) (fun k hk => ?_) hok⟩
    rw [step_add]
    exact hplace _ (by omega)

end Places

theorem bufferCycles_map (cycles : List BufferCycle) (rest : List BufferEvent) :
    bufferCycles (cycles.map .cycle ++ rest) = cycles ++ bufferCycles rest := by
  induction cycles with
  | nil => rfl
  | cons c cycles ih => exact congrArg (c :: ·) ih

/-- The words of a block that keeps its sector are where they belong. -/
theorem placedWords_block {fast : Bool} {sectorAddr addr nwords : Word} (data : Nat → Word)
    (h : KeepsSector fast t sectorAddr addr nwords.toNat) :
    placedWords fast addr (wordsOf nwords.toNat data) = blockData addr nwords data := by
  rw [placedWords_wordsOf, blockData]
  apply List.map_congr_left
  intro k hk
  rw [(h k (List.mem_range.mp hk)).1]

/-- A block that keeps its sector is programmed, whatever the adapter and the chips answer. -/
theorem programsBuffers_of_keepsSector {fast : Bool} {addr nwords : Word} (data : Nat → Word)
    (h : KeepsSector fast t (t.sectorStart addr) addr nwords.toNat) :
    ProgramsBuffers fast t addr nwords data := by
  intro σ A hfast s tr s' hr
  obtain ⟨ok, cycles, hcycles, hobs⟩ :=
    busEvents_of_exhibits (targetProgramBlock32Micron_exhibits hfast addr nwords data) hr
  have hevents : bufferEvents tr = cycles.map .cycle ++ if ok then [] else [.abort] := by
    rw [bufferEvents, hobs]
  have hprogrammed : bufferCycles (bufferEvents tr) = cycles := by
    rw [hevents, bufferCycles_map]
    cases ok <;> exact List.append_nil _
  constructor
  · rw [hprogrammed]
    exact hcycles.sound ((length_wordsOf nwords.toNat data).symm ▸ h)
  · intro habort
    cases ok with
    | false => exact absurd (by simp [hevents]) habort
    | true => rw [hprogrammed, hcycles.flatMap_data, placedWords_block data h]

/-- Chips that are always ready. -/
def readyChips (mask : Word) : AddressSpace Unit where
  store _ _ m := m
  load _ m := (mask, m)

/-- The simplest device in front of them, with the method for buffers or without it. -/
def bufferAdapter (fast : Bool) (mask : Word) : Adapter (MemoryInterface Unit) :=
  { memoryAdapter (readyChips mask) false false with
    programBlock32Micron := if fast then some fun _ _ s => .ok ((), s) else none }

def bufferAdapter_serves (fast : Bool) (mask : Word) :
    Serves (bufferAdapter fast mask) (readyChips mask) :=
  let S := memoryAdapter_serves (readyChips mask) false false
  ⟨S.view, S.busy, S.busy_lt, S.write_omar, S.write_omdr, S.write_oscr, S.write_mem, S.read_oscr,
    S.read_omdr, S.read_block, S.write_block⟩

/-- The adapter of the model has the method for buffers, or has not. -/
theorem bufferAdapter_kind (fast : Bool) (mask : Word) :
    (bufferAdapter fast mask).programBlock32Micron.isSome = fast := by
  cases fast <;> rfl

section Run

variable {fast : Bool} {mask : Word}

/-- A chip that is ready takes the command at once. -/
theorem pollCommand_ready (addr cmd : Word) {timeout : Nat} (h : 0 < timeout) :
    Performs (bufferAdapter_serves fast mask).Holds
      (pollCommand (bufferAdapter fast mask) t addr cmd mask timeout) () true () := by
  obtain ⟨timeout, rfl⟩ := Nat.exists_eq_succ_of_ne_zero h.ne'
  apply (Serves.writeWord_performs addr cmd).bind
  apply (Serves.readWord_performs addr).bind
  rw [if_pos (show ((readyChips mask).load (physical addr) _).1 = mask from rfl)]
  exact performs_pure _ _

/-- A chip that is ready has its status at once. -/
theorem pollStatus_ready (addr : Word) {timeout : Nat} (h : 0 < timeout) :
    Performs (bufferAdapter_serves fast mask).Holds
      (pollStatus (bufferAdapter fast mask) addr mask timeout) () true () := by
  obtain ⟨timeout, rfl⟩ := Nat.exists_eq_succ_of_ne_zero h.ne'
  apply (Serves.readWord_performs addr).bind
  rw [if_pos (show ((readyChips mask).load (physical addr) _).1 = mask from rfl)]
  exact performs_pure _ _

theorem programBuffer_ready (sectorAddr addr : Word) (n : Nat) (data : Nat → Word) :
    Performs (bufferAdapter_serves fast mask).Holds
      (programBuffer (bufferAdapter fast mask) t sectorAddr addr n data) () () () := by
  unfold programBuffer
  cases fast with
  | true => exact fun s hs => ⟨s, reaches_request rfl, hs⟩
  | false =>
    apply (Serves.writeWord_performs _ _).bind
    exact (Serves.writeWords_performs _ _).bind (Serves.writeWord_performs _ _)

/-- The buffers of a block are programmed, by induction on the fuel. -/
theorem programBuffers_ready (sectorAddr : Word) {fuel : Nat} {nwords : Word}
    (hfuel : nwords.toNat ≤ fuel) (addr : Word) (data : Nat → Word) :
    Performs (bufferAdapter_serves fast (statusMask t)).Holds
      (programBuffers (bufferAdapter fast (statusMask t)) t sectorAddr fuel nwords addr data)
      () true () := by
  induction fuel generalizing nwords addr data with
  | zero =>
    obtain rfl : nwords = 0 := BitVec.eq_of_toNat_eq (by simpa using hfuel)
    exact performs_pure _ _
  | succ fuel ih =>
    unfold programBuffers
    split
    · rename_i h
      obtain ⟨-, hsum, -⟩ := lastIndex_spec h
      apply (pollCommand_ready _ _ (by decide)).bind
      apply (programBuffer_ready _ _ (lastIndex nwords) _).bind
      exact ih (by rw [lastIndex] at hsum; omega) _ _
    · exact performs_pure _ _

theorem finishBlock_ready (sectorAddr : Word) :
    Performs (bufferAdapter_serves fast (statusMask t)).Holds
      (finishBlock (bufferAdapter fast (statusMask t)) t sectorAddr) () () () := by
  apply (pollStatus_ready _ (by decide)).bind
  apply (pollCommand_ready _ _ (by decide)).bind
  exact Serves.writeWord_performs _ _

/-- The chips are ready throughout, and every buffer is programmed. -/
theorem ready_run (fast : Bool) (t : Target) (addr nwords : Word) (data : Nat → Word) :
    ∃ s tr s' cycles, (targetProgramBlock32Micron (bufferAdapter fast (statusMask t)) t addr nwords
        data).Returns s () tr s' ∧ bufferEvents tr = List.map .cycle cycles ∧
      Cycles fast (t.sectorStart addr) true addr (wordsOf nwords.toNat data) cycles := by
  have hidle : (bufferAdapter_serves fast (statusMask t)).Holds () (idleSession ()) :=
    ⟨⟨rfl, rfl⟩, rfl⟩
  obtain ⟨s₁, ⟨tr₁, h₁⟩, hs₁⟩ := programBuffers_ready (t.sectorStart addr) le_rfl addr data _ hidle
  obtain ⟨s₂, ⟨tr₂, h₂⟩, -⟩ := finishBlock_ready (t.sectorStart addr) s₁ hs₁
  obtain ⟨obs₁, hobs₁, hbuffers⟩ := programBuffers_exhibits (bufferAdapter_kind fast _) _ _ _ _ _
    _ _ _ _ h₁
  obtain ⟨obs₂, hobs₂, cycles, hcycles, hobs⟩ := finishBlock_exhibits hbuffers.all _ _ _ _ h₂
  refine ⟨idleSession (), tr₁ ++ tr₂, s₂, cycles, ?_, ?_, hcycles⟩
  · rw [targetProgramBlock32Micron_eq]
    exact returns_bind_iff.mpr ⟨true, tr₁, s₁, tr₂, h₁, h₂, rfl⟩
  · rw [bufferEvents, busEvents, ((hobs₁.append hobs₂) _ bus.start_idle).2, hobs]
    exact List.append_nil _

end Run

/-- A block that an adapter of the kind programs keeps its sector. -/
theorem ProgramsBuffers.keepsSector {fast : Bool} {addr nwords : Word} {data : Nat → Word}
    (h : ProgramsBuffers fast t addr nwords data) :
    KeepsSector fast t (t.sectorStart addr) addr nwords.toNat := by
  obtain ⟨s, tr, s', cycles, hr, hevents, hcycles⟩ := ready_run fast t addr nwords data
  have hprogrammed := h _ _ (bufferAdapter_kind fast _) s tr s' hr
  have hall : bufferCycles (bufferEvents tr) = cycles := by
    rw [hevents, ← List.append_nil (List.map _ _), bufferCycles_map]
    exact List.append_nil _
  have hdata := hprogrammed.complete (by simp [hevents])
  have hsound := hprogrammed.sound
  rw [hall, hcycles.flatMap_data, placedWords_wordsOf, blockData] at hdata
  rw [hall] at hsound
  have hkeeps := hcycles.keepsSector hsound (by
    intro k hk
    rw [length_wordsOf] at hk
    exact congrArg Prod.fst (List.map_inj_left.mp hdata k (List.mem_range.mpr hk)))
  rwa [length_wordsOf] at hkeeps

/-- The low bits of an address are cleared. -/
theorem clear_toNat {x mask : Word} {j : Nat} (hmask : mask.toNat = 2 ^ j - 1) :
    (x &&& ~~~mask).toNat = x.toNat / 2 ^ j * 2 ^ j := by
  have hshift : x &&& ~~~mask = (x >>> j) <<< j := by
    apply BitVec.eq_of_getLsbD_eq
    intro i hi
    have hbit : mask.getLsbD i = decide (i < j) := by
      rw [BitVec.getLsbD, hmask, Nat.testBit_two_pow_sub_one]
    rw [BitVec.getLsbD_and, BitVec.getLsbD_not, hbit, BitVec.getLsbD_shiftLeft,
      BitVec.getLsbD_ushiftRight]
    by_cases h : i < j
    · simp [h]
    · simp [h, hi, Nat.add_sub_of_le (Nat.le_of_not_lt h)]
  have hle := Nat.div_mul_le_self x.toNat (2 ^ j)
  have hlt := x.isLt
  rw [hshift, BitVec.toNat_shiftLeft, BitVec.toNat_ushiftRight, Nat.shiftRight_eq_div_pow,
    Nat.shiftLeft_eq, Nat.mod_eq_of_lt (by omega)]

/-- The start of a sector, where the size is a power of two. -/
theorem Target.sectorStart_toNat {j : Nat} (hsize : t.sectorSize.toNat = 2 ^ j) (addr : Word) :
    (t.sectorStart addr).toNat = addr.toNat / 2 ^ j * 2 ^ j := by
  have hone : (1 : Word).toNat = 1 := rfl
  apply clear_toNat
  rw [BitVec.toNat_sub_of_le (BitVec.le_def.mpr (by rw [hone, hsize]; exact Nat.one_le_two_pow)),
    hsize, hone]

/-- The place that the method of the adapter finds: the start of a block of 4 MiB. -/
theorem bufferPlace_toNat (sectorAddr addr : Word) :
    (bufferPlace true sectorAddr addr).toNat = addr.toNat / 2 ^ 22 * 2 ^ 22 :=
  @clear_toNat addr 0x3FFFFF 22 rfl

/-- The sector of the physical address, by the sector of the address itself, for sectors of which
`e` are as large as 256 MiB. -/
def physicalSector (e n : Nat) : Nat :=
  if 10 * e ≤ n then n - 10 * e else if 8 * e ≤ n then n - 8 * e else n

section Numbers

variable {e : Nat} (hsize : t.sectorSize.toNat * e = 2 ^ 28)

include hsize

theorem sectorSize_pos : 0 < t.sectorSize.toNat := by
  apply Nat.pos_of_ne_zero
  intro h
  rw [h, Nat.zero_mul] at hsize
  norm_num at hsize

/-- The number of a sector at the physical address. -/
theorem sector_physical (addr : Word) :
    t.sector (physical addr) = physicalSector e (t.sector addr) := by
  have hpos := sectorSize_pos hsize
  have hsegment : ∀ m, m * e * t.sectorSize.toNat = m * 2 ^ 28 := by
    intro m
    rw [← hsize, Nat.mul_assoc, Nat.mul_comm e]
  have hle : ∀ m, m * e ≤ addr.toNat / t.sectorSize.toNat ↔ m * 2 ^ 28 ≤ addr.toNat := by
    intro m
    rw [Nat.le_div_iff_mul_le hpos, hsegment]
  have hsub : ∀ m, m * 2 ^ 28 ≤ addr.toNat → (addr.toNat - m * 2 ^ 28) / t.sectorSize.toNat =
      addr.toNat / t.sectorSize.toNat - m * e := by
    intro m hm
    rw [← hsegment, Nat.mul_comm (m * e), Nat.sub_mul_div]
  have h10 := hle 10
  have h8 := hle 8
  have hphys : (physical addr).toNat = if 10 * 2 ^ 28 ≤ addr.toNat then addr.toNat - 10 * 2 ^ 28
      else if 8 * 2 ^ 28 ≤ addr.toNat then addr.toNat - 8 * 2 ^ 28 else addr.toNat :=
    physical_toNat addr
  unfold Target.sector physicalSector
  rw [hphys]
  by_cases hhigh : 10 * 2 ^ 28 ≤ addr.toNat
  · rw [if_pos hhigh, if_pos (h10.mpr hhigh)]
    exact hsub 10 hhigh
  · rw [if_neg hhigh, if_neg (h10.not.mpr hhigh)]
    by_cases hlow : 8 * 2 ^ 28 ≤ addr.toNat
    · rw [if_pos hlow, if_pos (h8.mpr hlow)]
      exact hsub 8 hlow
    · rw [if_neg hlow, if_neg (h8.not.mpr hlow)]

/-- The addresses are a whole number of sectors. -/
theorem span_eq : 2 ^ 32 = t.sectorSize.toNat * (16 * e) := by
  rw [Nat.mul_left_comm, hsize]
  norm_num

/-- The number of a sector is in the bounds. -/
theorem sector_lt (addr : Word) : t.sector addr < 16 * e :=
  Nat.div_lt_of_lt_mul (span_eq hsize ▸ addr.isLt)

/-- The sectors of the addresses that are physical themselves. -/
theorem sector_lt_iff (addr : Word) : t.sector addr < 8 * e ↔ addr.toNat < 2 ^ 31 := by
  have hhalf : 8 * e * t.sectorSize.toNat = 2 ^ 31 := by
    rw [Nat.mul_assoc, Nat.mul_comm e, hsize]
    norm_num
  rw [Target.sector, Nat.div_lt_iff_lt_mul (sectorSize_pos hsize), hhalf]

/-- The sector of a word of a block. -/
theorem sector_step (addr : Word) (k : Nat) : t.sector (addr + 4 * BitVec.ofNat 32 k) =
    (t.sector addr + (addr.toNat % t.sectorSize.toNat + 4 * k) / t.sectorSize.toNat) % (16 * e) := by
  have hfour : (4 : Word).toNat = 4 := rfl
  have haddr := Nat.div_add_mod addr.toNat t.sectorSize.toNat
  have hval : (addr + 4 * BitVec.ofNat 32 k).toNat = (addr.toNat + 4 * k) % 2 ^ 32 := by
    rw [BitVec.toNat_add, BitVec.toNat_mul, BitVec.toNat_ofNat, hfour]
    omega
  rw [Target.sector, hval, span_eq hsize, Nat.mod_mul_right_div_self, Target.sector,
    ← Nat.mul_add_div (sectorSize_pos hsize), ← Nat.add_assoc, haddr]

/-- A word of a block before the end of the sector. -/
theorem sector_within {addr : Word} {k : Nat}
    (h : addr.toNat % t.sectorSize.toNat + 4 * k < t.sectorSize.toNat) :
    t.sector (addr + 4 * BitVec.ofNat 32 k) = t.sector addr := by
  rw [sector_step hsize, Nat.div_eq_of_lt h, Nat.add_zero, Nat.mod_eq_of_lt (sector_lt hsize addr)]

/-- The first word of a block after the end of the sector. -/
theorem sector_beyond {addr : Word} {k : Nat}
    (hle : t.sectorSize.toNat ≤ addr.toNat % t.sectorSize.toNat + 4 * k)
    (hlt : addr.toNat % t.sectorSize.toNat + 4 * k < 2 * t.sectorSize.toNat) :
    t.sector (addr + 4 * BitVec.ofNat 32 k) = (t.sector addr + 1) % (16 * e) := by
  have hone : (addr.toNat % t.sectorSize.toNat + 4 * k) / t.sectorSize.toNat = 1 :=
    Nat.div_eq_of_lt_le (by omega) (by omega)
  rw [sector_step hsize, hone]

omit hsize in
/-- Sectors of different numbers that follow each other are different physical ones. -/
theorem physicalSector_next {n : Nat} (hn : n < 16 * e) :
    physicalSector e ((n + 1) % (16 * e)) ≠ physicalSector e n := by
  unfold physicalSector
  rcases Nat.lt_or_ge (n + 1) (16 * e) with hlt | hge
  · rw [Nat.mod_eq_of_lt hlt]
    split_ifs <;> omega
  · have hlast : n + 1 = 16 * e := by omega
    rw [hlast, Nat.mod_self]
    split_ifs <;> omega

end Numbers

/-- The start of a block of 4 MiB, in sectors. -/
theorem floor_div (x j : Nat) :
    x / 2 ^ 22 * 2 ^ 22 / 2 ^ j = x / 2 ^ j / 2 ^ (22 - j) * 2 ^ (22 - j) := by
  rcases Nat.le_total j 22 with h | h
  · have hsplit : 2 ^ 22 = 2 ^ j * 2 ^ (22 - j) := by rw [← Nat.pow_add, Nat.add_sub_of_le h]
    rw [Nat.div_div_eq_div_mul, ← hsplit]
    generalize x / 2 ^ 22 = y
    rw [hsplit, Nat.mul_left_comm, Nat.mul_div_cancel_left _ (Nat.two_pow_pos j)]
  · have hsplit : 2 ^ j = 2 ^ 22 * 2 ^ (j - 22) := by rw [← Nat.pow_add, Nat.add_sub_of_le h]
    rw [Nat.sub_eq_zero_of_le h, Nat.pow_zero, Nat.div_one, Nat.mul_one, hsplit,
      ← Nat.div_div_eq_div_mul, ← Nat.div_div_eq_div_mul, Nat.mul_div_cancel _ (Nat.two_pow_pos 22)]

/-- It is in the sector of an address exactly where the sector is the first of the block. -/
theorem floor_div_eq_iff (x j : Nat) :
    x / 2 ^ 22 * 2 ^ 22 / 2 ^ j = x / 2 ^ j ↔ x % 2 ^ 22 < 2 ^ j := by
  have hx := Nat.div_add_mod x (2 ^ 22)
  rcases Nat.le_total j 22 with h | h
  · have hsplit : 2 ^ 22 = 2 ^ j * 2 ^ (22 - j) := by rw [← Nat.pow_add, Nat.add_sub_of_le h]
    have hpos := Nat.two_pow_pos j
    have hdiv : x / 2 ^ j = x / 2 ^ 22 * 2 ^ 22 / 2 ^ j + x % 2 ^ 22 / 2 ^ j := by
      calc x / 2 ^ j = (2 ^ j * (2 ^ (22 - j) * (x / 2 ^ 22)) + x % 2 ^ 22) / 2 ^ j := by
            rw [← Nat.mul_assoc, ← hsplit, hx]
        _ = 2 ^ (22 - j) * (x / 2 ^ 22) + x % 2 ^ 22 / 2 ^ j := Nat.mul_add_div hpos _ _
        _ = 2 ^ j * (2 ^ (22 - j) * (x / 2 ^ 22)) / 2 ^ j + x % 2 ^ 22 / 2 ^ j := by
            rw [Nat.mul_div_cancel_left _ hpos]
        _ = x / 2 ^ 22 * 2 ^ 22 / 2 ^ j + x % 2 ^ 22 / 2 ^ j := by
            rw [← Nat.mul_assoc, ← hsplit, Nat.mul_comm]
    rw [hdiv, ← Nat.div_eq_zero_iff_lt (Nat.two_pow_pos j)]
    omega
  · have hle := Nat.pow_le_pow_right (show 0 < 2 by decide) h
    have hmod := Nat.mod_lt x (Nat.two_pow_pos 22)
    rw [floor_div, Nat.sub_eq_zero_of_le h]
    simp
    omega

theorem Target.sector_sectorStart {j : Nat} (hsize : t.sectorSize.toNat = 2 ^ j) (addr : Word) :
    t.sector (t.sectorStart addr) = t.sector addr := by
  rw [Target.sector, Target.sectorStart_toNat hsize, hsize, Nat.mul_div_cancel _ (Nat.two_pow_pos j),
    Target.sector, hsize]

/-- The place of a buffer that the method finds depends on the sector alone. -/
theorem sector_bufferPlace {j : Nat} (hsize : t.sectorSize.toNat = 2 ^ j) (sectorAddr addr : Word) :
    t.sector (bufferPlace true sectorAddr addr) =
      t.sector addr / 2 ^ (22 - j) * 2 ^ (22 - j) := by
  rw [Target.sector, bufferPlace_toNat, hsize, floor_div, Target.sector, hsize]

/-- A block keeps its sector exactly where its last word begins in the sector of the first one,
and with the method the block is physical and the sector is the first of its 4 MiB. -/
theorem keepsSector_iff (fast : Bool) (addr nwords : Word) {j : Nat} (hlow : 2 ≤ j) (hhigh : j ≤ 28)
    (hsize : t.sectorSize.toNat = 2 ^ j) :
    KeepsSector fast t (t.sectorStart addr) addr nwords.toNat ↔ nwords = 0 ∨
      (addr.toNat % 2 ^ j + 4 * nwords.toNat < 2 ^ j + 4 ∧
        (fast = true → addr.toNat < 2 ^ 31 ∧ addr.toNat % 2 ^ 22 < 2 ^ j)) := by
  have hspan : t.sectorSize.toNat * 2 ^ (28 - j) = 2 ^ 28 := by
    rw [hsize, ← Nat.pow_add, Nat.add_sub_of_le hhigh]
  have hfour : 4 ≤ 2 ^ j := Nat.pow_le_pow_right (show 0 < 2 by decide) hlow
  have hmod := Nat.mod_lt addr.toNat (Nat.two_pow_pos j)
  have hfirst : ∀ x : Word, x + 4 * BitVec.ofNat 32 0 = x := by simp
  have hstart : t.sector (physical (t.sectorStart addr)) =
      physicalSector (2 ^ (28 - j)) (t.sector addr) := by
    rw [sector_physical hspan, Target.sector_sectorStart hsize]
  have hlowSector : addr.toNat < 2 ^ 31 →
      physicalSector (2 ^ (28 - j)) (t.sector addr) = t.sector addr := by
    intro h
    have hlt := (sector_lt_iff hspan addr).mpr h
    unfold physicalSector
    split_ifs <;> omega
  have hfloor : t.sector addr / 2 ^ (22 - j) * 2 ^ (22 - j) = t.sector addr ↔
      addr.toNat % 2 ^ 22 < 2 ^ j := by
    rw [← floor_div_eq_iff, floor_div, Target.sector, hsize]
  constructor
  · intro h
    rcases Nat.eq_zero_or_pos nwords.toNat with hzero | hpos
    · exact .inl (BitVec.eq_of_toNat_eq hzero)
    · obtain ⟨hplace, -, hbuffer⟩ := h 0 hpos
      refine .inr ⟨?_, ?_⟩
      · by_contra hlong
        have hnext : t.sector (addr + 4 * BitVec.ofNat 32 ((2 ^ j - addr.toNat % 2 ^ j + 3) / 4)) =
            (t.sector addr + 1) % (16 * 2 ^ (28 - j)) := by
          apply sector_beyond hspan
          · rw [hsize]
            omega
          · rw [hsize]
            omega
        have hword := (h ((2 ^ j - addr.toNat % 2 ^ j + 3) / 4) (by omega)).2.1
        rw [sector_physical hspan, hnext, hstart] at hword
        exact physicalSector_next (sector_lt hspan addr) hword
      · rintro rfl
        have hphys : addr.toNat < 2 ^ 31 := by
          have hself : addr = physical addr := by simpa [wordPlace] using hplace
          rw [hself]
          exact physical_lt addr
        rw [hfirst, sector_bufferPlace hsize, hstart, hlowSector hphys] at hbuffer
        exact ⟨hphys, hfloor.mp hbuffer⟩
  · rintro (rfl | ⟨hlong, hmethod⟩) k hk
    · simp at hk
    · have hwithin : ∀ i ≤ k, t.sector (addr + 4 * BitVec.ofNat 32 i) = t.sector addr := by
        intro i hi
        apply sector_within hspan
        rw [hsize]
        omega
      refine ⟨?_, ?_, ?_⟩
      · cases fast with
        | false => rfl
        | true =>
          have hphys : (addr + 4 * BitVec.ofNat 32 k).toNat < 2 ^ 31 := by
            rw [← sector_lt_iff hspan, hwithin k le_rfl, sector_lt_iff hspan]
            exact (hmethod rfl).1
          exact (physical_of_lt hphys).symm
      · rw [sector_physical hspan, hwithin k le_rfl, hstart]
      · cases fast with
        | false => rfl
        | true =>
          obtain ⟨hphys, hblock⟩ := hmethod rfl
          rw [sector_bufferPlace hsize, hwithin _ (by omega), hstart, hlowSector hphys]
          exact hfloor.mpr hblock

/-- A block is programmed in every run exactly where it keeps its sector. For the sizes of a sector
that the chips have, that is where its last word begins in the sector of the first one, and where
with the method of the adapter it is physical and in the first sector of 4 MiB. -/
theorem programsBuffers_iff (fast : Bool) (t : Target) (addr nwords : Word) (data : Nat → Word) :
    (ProgramsBuffers fast t addr nwords data ↔
      KeepsSector fast t (t.sectorStart addr) addr nwords.toNat) ∧
    ∀ j, 2 ≤ j → j ≤ 28 → t.sectorSize.toNat = 2 ^ j →
      (ProgramsBuffers fast t addr nwords data ↔ nwords = 0 ∨
        (addr.toNat % 2 ^ j + 4 * nwords.toNat < 2 ^ j + 4 ∧
          (fast = true → addr.toNat < 2 ^ 31 ∧ addr.toNat % 2 ^ 22 < 2 ^ j))) := by
  have hkeeps : ProgramsBuffers fast t addr nwords data ↔
      KeepsSector fast t (t.sectorStart addr) addr nwords.toNat :=
    ⟨ProgramsBuffers.keepsSector, programsBuffers_of_keepsSector data⟩
  exact ⟨hkeeps, fun j hlow hhigh hsize => hkeeps.trans (keepsSector_iff fast addr nwords hlow hhigh hsize)⟩

/-- The sectors of a known chip are of such a size, on the bus of every variant. -/
theorem FlashChip.sectorSize_eq_two_pow (count : Nat) :
    ∀ c ∈ flashChips, ∃ j < 29, 2 ≤ j ∧ (c.sectorSize (flashVariant count)).toNat = 2 ^ j := by
  have hvariant : ∀ n < 6, ∀ c ∈ flashChips,
      ∃ j < 29, 2 ≤ j ∧ (c.sectorSize (flashVariant n)).toNat = 2 ^ j := by decide +kernel
  have hmod : flashVariant count = flashVariant (count % 6) := by
    rw [flashVariant, flashVariant, Nat.mod_mod]
  rw [hmod]
  exact hvariant (count % 6) (Nat.mod_lt _ (by decide))

/-- A target with chips of Micron on a bus of 32 bits. -/
def micronTarget : Target :=
  { Target.allocated with
    toFlashVariant := flashVariant 0
    micronComSet := true
    sectorSize := 0x40000 }

/-- One word at the start of the second sector: with the method of the adapter its count and its
confirmation go to the first sector. By stores, the second one of two words over the end of a
sector goes to the next one. -/
theorem not_programsBuffers_sector :
    ¬ProgramsBuffers true micronTarget 0x40000 1 (fun _ => 0x12345678) ∧
      ¬ProgramsBuffers false micronTarget 0x3FFFC 2 fun _ => 0x12345678 := by
  constructor
  · intro h
    have hkeeps := h.keepsSector 0 (by decide)
    exact absurd hkeeps.2.2 (by decide)
  · intro h
    have hkeeps := h.keepsSector 1 (by decide)
    exact absurd hkeeps.2.1 (by decide)

end Mcprog
