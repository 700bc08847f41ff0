import Mcprog.Library.Abstraction
import Mcprog.Target.FlashProgram

/-!
# Accesses as operations of a memory

An adapter serves a memory when its registers `OMAR`, `OMDR` and `OSCR` and its block methods act
on it as documented. What the accesses of `target.c` do to such a memory is said by the stores and
loads that they come to, whatever hangs on its addresses.
-/

namespace Mcprog

open Interaction Program

/-- What a store does to a memory, and what a load answers and does. -/
structure AddressSpace (μ : Type) where
  store : Word → Word → μ → μ
  load : Word → μ → Word × μ

/-- The registers of the memory interface, and the memory behind them. -/
structure MemoryInterface (μ : Type) where
  omar : Word
  omdr : Word
  oscr : Word
  memory : μ

/-- The control bits of a register value are those of the interface. -/
def MemoryInterface.Agrees {μ : Type} (i : MemoryInterface μ) (oscr : Word) : Prop :=
  oscr.getLsbD 0 = i.oscr.getLsbD 0 ∧ oscr.getLsbD 1 = i.oscr.getLsbD 1

namespace AddressSpace

variable {μ : Type} (M : AddressSpace μ)

/-- A memory cycle: a load where the control register says so. -/
def cycle (i : MemoryInterface μ) : MemoryInterface μ :=
  if i.oscr.getLsbD 1 then
    { i with omdr := (M.load i.omar i.memory).1, memory := (M.load i.omar i.memory).2 }
  else { i with memory := M.store i.omar i.omdr i.memory }

/-- Stores in their order. -/
def storeAll (args : List (Word × Word)) (m : μ) : μ := args.foldl (fun m a => M.store a.1 a.2 m) m

/-- Loads in their order. -/
def loadAll : List Word → μ → List Word × μ
  | [], m => ([], m)
  | addr :: addrs, m =>
    let (word, m) := M.load addr m
    let (words, m) := loadAll addrs m
    (word :: words, m)

/-- The first store comes before the others. -/
@[simp] theorem storeAll_cons (a : Word × Word) (args : List (Word × Word)) (m : μ) :
    M.storeAll (a :: args) m = M.storeAll args (M.store a.1 a.2 m) := rfl

theorem storeAll_append (args args' : List (Word × Word)) (m : μ) :
    M.storeAll (args ++ args') m = M.storeAll args' (M.storeAll args m) := List.foldl_append

/-- The first load comes before the others. -/
@[simp] theorem loadAll_cons (addr : Word) (addrs : List Word) (m : μ) :
    M.loadAll (addr :: addrs) m = ((M.load addr m).1 :: (M.loadAll addrs (M.load addr m).2).1,
      (M.loadAll addrs (M.load addr m).2).2) := rfl

theorem loadAll_append (addrs addrs' : List Word) (m : μ) :
    M.loadAll (addrs ++ addrs') m =
      ((M.loadAll addrs m).1 ++ (M.loadAll addrs' (M.loadAll addrs m).2).1,
        (M.loadAll addrs' (M.loadAll addrs m).2).2) := by
  induction addrs generalizing m with
  | nil => rfl
  | cons addr addrs ih => rw [List.cons_append, loadAll_cons, loadAll_cons, ih, List.cons_append]

end AddressSpace

/-- The addresses of consecutive words. -/
def wordSteps : Nat → Word → List Word
  | 0, _ => []
  | n + 1, addr => addr :: wordSteps n (addr + 4)

theorem wordSteps_add (m n : Nat) (addr : Word) :
    wordSteps (m + n) addr = wordSteps m addr ++ wordSteps n (addr + BitVec.ofNat 32 m * 4) := by
  induction m generalizing addr with
  | zero => simp [wordSteps]
  | succ m ih =>
    have hnext : addr + 4 + BitVec.ofNat 32 m * 4 = addr + BitVec.ofNat 32 (m + 1) * 4 := by
      rw [BitVec.ofNat_add, BitVec.add_mul, BitVec.add_assoc, BitVec.add_comm 4]
      rfl
    rw [Nat.succ_add, wordSteps, ih, hnext]
    rfl

@[simp] theorem length_wordSteps (n : Nat) (addr : Word) : (wordSteps n addr).length = n := by
  induction n generalizing addr with
  | zero => rfl
  | succ n ih => rw [wordSteps, List.length_cons, ih]

theorem getElem?_wordSteps {n k : Nat} (h : k < n) (addr : Word) :
    (wordSteps n addr)[k]? = some (addr + 4 * BitVec.ofNat 32 k) := by
  induction n generalizing addr k with
  | zero => omega
  | succ n ih =>
    cases k with
    | zero => simp [wordSteps]
    | succ k =>
      have hnext : addr + 4 + 4 * BitVec.ofNat 32 k = addr + 4 * BitVec.ofNat 32 (k + 1) := by
        rw [BitVec.ofNat_add, BitVec.mul_add, BitVec.add_assoc, BitVec.add_comm (4 * _)]
        rfl
      rw [wordSteps, List.getElem?_cons_succ, ih (by omega), hnext]

/-- Words at consecutive addresses. -/
theorem consecutive_eq_zip (addr : Word) (words : List Word) :
    consecutive addr words = (wordSteps words.length addr).zip words := by
  induction words generalizing addr with
  | nil => rfl
  | cons word words ih => rw [consecutive, ih, List.length_cons, wordSteps, List.zip_cons_cons]

/-- An adapter in front of a memory. The device follows its registers, says after less than a
hundred questions that it is ready, and takes a block of words as consecutive physical words. -/
structure Serves {σ μ : Type} (A : Adapter σ) (M : AddressSpace μ) where
  view : σ → MemoryInterface μ
  busy : σ → Nat
  busy_lt : ∀ d, busy d < 100
  write_omar : ∀ val d, ∃ d', A.oncdWrite val oncdOmar 32 d = .ok ((), d') ∧
    view d' = { view d with omar := val }
  write_omdr : ∀ val d, ∃ d', A.oncdWrite val oncdOmdr 32 d = .ok ((), d') ∧
    view d' = { view d with omdr := val }
  write_oscr : ∀ val d, ∃ d', A.oncdWrite val oncdOscr 32 d = .ok ((), d') ∧
    view d' = { view d with oscr := val }
  write_mem : ∀ d, (view d).oscr.getLsbD 0 = true → ∃ d', A.oncdWrite 0 oncdMem 0 d = .ok ((), d') ∧
    view d' = M.cycle (view d)
  read_oscr : ∀ d, ∃ oscr d', A.oncdRead oncdOscr 32 d = .ok (oscr, d') ∧ view d' = view d ∧
    (view d).Agrees oscr ∧ (oscr &&& oscrRdym ≠ 0 ∨ busy d' < busy d)
  read_omdr : ∀ d, ∃ d', A.oncdRead oncdOmdr 32 d = .ok ((view d).omdr, d') ∧ view d' = view d
  read_block : ∀ read, A.readBlock = some read → ∀ n ≤ A.blockWords, ∀ addr s,
    (view s.device).Agrees s.oscr → ∃ data s', read n addr s = .ok (data, s') ∧
      (view s'.device).Agrees s'.oscr ∧ (wordsOf n.toNat data, (view s'.device).memory) =
        M.loadAll (wordSteps n.toNat addr) (view s.device).memory
  write_block : ∀ write, A.writeBlock = some write → ∀ words : List Word,
    BitVec.ofNat 32 words.length ≤ A.blockWords → ∀ addr s,
    (view s.device).Agrees s.oscr → ∃ s', write addr words s = .ok ((), s') ∧
      (view s'.device).Agrees s'.oscr ∧
      (view s'.device).memory = M.storeAll (consecutive addr words) (view s.device).memory

section Accesses

variable {σ μ : Type} {A : Adapter σ} {M : AddressSpace μ} (S : Serves A M)

/-- A session in which the memory is `m`: the cached register agrees with the device. -/
structure Serves.Holds (m : μ) (s : Session σ) : Prop where
  agrees : (S.view s.device).Agrees s.oscr
  memory : (S.view s.device).memory = m

/-- A session in which loads or stores are allowed. -/
def Serves.Allowing (load : Bool) (m : μ) (s : Session σ) : Prop := S.Holds m s ∧ Allows load s.oscr

variable {S} {m : μ} {t : Target} {load : Bool}

/-- The device allows what the cached register does. -/
theorem Serves.Allowing.device {s : Session σ} (h : S.Allowing load m s) :
    Allows load (S.view s.device).oscr :=
  ⟨h.1.agrees.1.symm.trans h.2.1, h.1.agrees.2.symm.trans h.2.2⟩

/-- A debug register that the adapter writes. -/
theorem Serves.reaches_write {val : Word} {reg nbits : Nat} {s : Session σ} {d' : σ}
    (h : A.oncdWrite val reg nbits s.device = .ok ((), d')) :
    (oncdWrite A val reg nbits).Reaches s () { s with device := d' } := by
  apply reaches_request
  rw [Method.lift, h]

/-- A debug register that the adapter reads. -/
theorem Serves.reaches_read {val : Word} {reg nbits : Nat} {s : Session σ} {d' : σ}
    (h : A.oncdRead reg nbits s.device = .ok (val, d')) :
    (oncdRead A reg nbits).Reaches s val { s with device := d' } := by
  apply reaches_request
  rw [Method.lift, h]

/-- Memory access is brought to what is wanted. -/
theorem allowMemory_allowing {f : Word → Word} (hf : ∀ x, Allows load (f x)) {s : Session σ}
    (hs : S.Holds m s) : ∃ s', (allowMemory A f).Reaches s () s' ∧ S.Allowing load m s' := by
  by_cases h : f s.oscr ≠ s.oscr
  · obtain ⟨d', hw, hview⟩ := S.write_oscr (f s.oscr) s.device
    refine ⟨{ s with oscr := f s.oscr, device := d' }, (reaches_getOscr s).bind ?_, ⟨⟨?_, ?_⟩, hf _⟩⟩
    · rw [if_pos h]
      exact (reaches_setOscr _ s).bind (Serves.reaches_write hw)
    · rw [hview]
      exact ⟨rfl, rfl⟩
    · rw [hview]
      exact hs.memory
  · refine ⟨s, (reaches_getOscr s).bind ?_, hs, ?_⟩
    · rw [if_neg h]
      exact reaches_pure () s
    · rw [← not_not.mp h]
      exact hf _

/-- The memory gets ready before the patience ends. -/
theorem waitReady_allowing (timeout : String) {count : Nat} {s : Session σ}
    (hcount : S.busy s.device < count) (hs : S.Allowing load m s) :
    ∃ s', (waitReady A timeout count).Reaches s () s' ∧ S.Allowing load m s' ∧
      S.view s'.device = S.view s.device := by
  induction count generalizing s with
  | zero => omega
  | succ count ih =>
    obtain ⟨oscr, d', hr, hview, hagrees, hready⟩ := S.read_oscr s.device
    have hs' : S.Allowing load m { s with oscr := oscr, device := d' } := by
      refine ⟨⟨?_, ?_⟩, hagrees.1.trans hs.device.1, hagrees.2.trans hs.device.2⟩
      · rw [hview]
        exact hagrees
      · rw [hview]
        exact hs.1.memory
    by_cases h : oscr &&& oscrRdym ≠ 0
    · refine ⟨_, (Serves.reaches_read hr).bind ((reaches_setOscr _ _).bind ?_), hs', hview⟩
      rw [if_pos h]
      exact reaches_pure _ _
    · have hless : S.busy d' < count := by
        have hdown := hready.resolve_left h
        omega
      obtain ⟨s'', hr'', hs'', hview''⟩ := ih (s := { s with oscr := oscr, device := d' }) hless hs'
      refine ⟨s'', (Serves.reaches_read hr).bind ((reaches_setOscr _ _).bind ?_), hs'',
        hview''.trans hview⟩
      rw [if_neg h]
      exact hr''

/-- A store, once stores are allowed. -/
theorem Serves.writeNext_performs (addr data : Word) :
    Performs (S.Allowing false) (targetWriteNext A t addr data) m ()
      (M.store (physical addr) data m) := by
  intro s hs
  obtain ⟨d₁, hw₁, hv₁⟩ := S.write_omar (physical addr) s.device
  obtain ⟨d₂, hw₂, hv₂⟩ := S.write_omdr data d₁
  have hallows : Allows false (S.view d₂).oscr := by
    rw [hv₂, hv₁]
    exact hs.device
  obtain ⟨d₃, hw₃, hv₃⟩ := S.write_mem d₂ hallows.1
  have hcycle : S.view d₃ = { S.view s.device with
      omar := physical addr, omdr := data, memory := M.store (physical addr) data m } := by
    rw [hv₃, AddressSpace.cycle, hallows.2, if_neg Bool.false_ne_true, hv₂, hv₁, hs.1.memory]
  have hs₃ : S.Allowing false (M.store (physical addr) data m) { s with device := d₃ } := by
    refine ⟨⟨?_, ?_⟩, hs.2⟩
    · rw [hcycle]
      exact hs.1.agrees
    · rw [hcycle]
  have hwait : ∃ s', (if t.isRunning then
        waitReady A "Timeout writing memory, aborted. OSCR=%#x\n" 100
      else pure () : Action σ Unit).Reaches { s with device := d₃ } () s' ∧
      S.Allowing false (M.store (physical addr) data m) s' := by
    cases t.isRunning with
    | false => exact ⟨_, reaches_pure () _, hs₃⟩
    | true =>
      obtain ⟨s', hr, hs', -⟩ := waitReady_allowing _ (S.busy_lt d₃) hs₃
      exact ⟨s', hr, hs'⟩
  obtain ⟨s', hr, hs'⟩ := hwait
  have hr₂ : (oncdWrite A data oncdOmdr 32).Reaches { s with device := d₁ } ()
      { s with device := d₂ } := Serves.reaches_write hw₂
  have hr₃ : (oncdWrite A 0 oncdMem 0).Reaches { s with device := d₂ } ()
      { s with device := d₃ } := Serves.reaches_write hw₃
  exact ⟨s', (Serves.reaches_write hw₁).bind (hr₂.bind (hr₃.bind hr)), hs'⟩

/-- A load, once loads are allowed. -/
theorem Serves.readNext_performs (addr : Word) :
    Performs (S.Allowing true) (targetReadNext A addr) m (M.load (physical addr) m).1
      (M.load (physical addr) m).2 := by
  intro s hs
  obtain ⟨d₁, hw₁, hv₁⟩ := S.write_omar (physical addr) s.device
  have hallows : Allows true (S.view d₁).oscr := by
    rw [hv₁]
    exact hs.device
  obtain ⟨d₂, hw₂, hv₂⟩ := S.write_mem d₁ hallows.1
  have hcycle : S.view d₂ = { S.view s.device with
      omar := physical addr, omdr := (M.load (physical addr) m).1
      memory := (M.load (physical addr) m).2 } := by
    rw [hv₂, AddressSpace.cycle, hallows.2, if_pos rfl, hv₁, hs.1.memory]
  have hs₂ : S.Allowing true (M.load (physical addr) m).2 { s with device := d₂ } := by
    refine ⟨⟨?_, ?_⟩, hs.2⟩
    · rw [hcycle]
      exact hs.1.agrees
    · rw [hcycle]
  obtain ⟨s₃, hr₃, hs₃, hv₃⟩ := waitReady_allowing "Timeout reading memory, aborted. OSCR=%#x\n"
    (lt_trans (S.busy_lt d₂) (by decide : 100 < 1000)) hs₂
  obtain ⟨d₄, hr₄, hv₄⟩ := S.read_omdr s₃.device
  have hword : (S.view s₃.device).omdr = (M.load (physical addr) m).1 := by
    rw [hv₃]
    exact congrArg MemoryInterface.omdr hcycle
  rw [hword] at hr₄
  refine ⟨{ s₃ with device := d₄ }, (Serves.reaches_write hw₁).bind ((Serves.reaches_write hw₂).bind
    (hr₃.bind (Serves.reaches_read hr₄))), ⟨?_, ?_⟩, hs₃.2⟩
  · rw [hv₄]
    exact hs₃.1.agrees
  · rw [hv₄]
    exact hs₃.1.memory

/-- The control bits that `target_read_start` sets. -/
theorem allows_load (x : Word) : Allows true (x ||| oscrSlctMem ||| oscrRo) := by
  constructor
  · simp [oscrSlctMem, oscrRo]
  · simp [oscrSlctMem, oscrRo]

/-- A load of a word. -/
theorem Serves.readWord_performs (addr : Word) :
    Performs S.Holds (targetReadWord A addr) m (M.load (physical addr) m).1
      (M.load (physical addr) m).2 := by
  intro s hs
  obtain ⟨s₁, hr₁, hs₁⟩ := allowMemory_allowing allows_load hs
  obtain ⟨s', hr', hs'⟩ := Serves.readNext_performs addr s₁ hs₁
  exact ⟨s', hr₁.bind hr', hs'.1⟩

/-- The control bits that `target_write_word` sets. -/
theorem allows_store (x : Word) : Allows false ((x &&& ~~~oscrRo) ||| oscrSlctMem) := by
  constructor
  · simp [oscrSlctMem]
  · simp [oscrSlctMem, oscrRo]

/-- A store of a word, after which stores are allowed. -/
theorem Serves.writeWord_allowing (addr data : Word) {s : Session σ} (hs : S.Holds m s) :
    ∃ s', (targetWriteWord A t addr data).Reaches s () s' ∧
      S.Allowing false (M.store (physical addr) data m) s' := by
  obtain ⟨s₁, hr₁, hs₁⟩ := allowMemory_allowing allows_store hs
  obtain ⟨s', hr', hs'⟩ := Serves.writeNext_performs (t := t) addr data s₁ hs₁
  exact ⟨s', hr₁.bind hr', hs'⟩

/-- A store of a word. -/
theorem Serves.writeWord_performs (addr data : Word) :
    Performs S.Holds (targetWriteWord A t addr data) m () (M.store (physical addr) data m) := by
  intro s hs
  obtain ⟨s', hr, hs'⟩ := Serves.writeWord_allowing (t := t) addr data hs
  exact ⟨s', hr, hs'.1⟩

/-- Where the words of a block are read and stored: an adapter with a method for blocks is given
physical addresses, and without it every word is mapped once more. -/
def blockPlaces (fast : Bool) (n : Nat) (addr : Word) : List Word :=
  if fast then wordSteps n (physical addr) else (wordSteps n (physical addr)).map physical

/-- Loads one by one. -/
theorem Serves.readNexts_performs (n : Nat) (addr : Word) :
    Performs (S.Allowing true) (readNexts A n addr) m (M.loadAll ((wordSteps n addr).map physical) m).1
      (M.loadAll ((wordSteps n addr).map physical) m).2 := by
  induction n generalizing addr m with
  | zero => exact performs_pure _ _
  | succ n ih => exact (Serves.readNext_performs addr).bind ((ih (addr + 4)).bind (performs_pure _ _))

/-- Loads by blocks, with as much fuel as there are words. -/
theorem Serves.readBlocks_performs {read : Word → Word → Extension σ (Nat → Word)}
    (hread : A.readBlock = some read) (fuel : Nat) (nwords addr : Word) (hfuel : nwords.toNat ≤ fuel) :
    Performs S.Holds (readBlocks read A.blockWords fuel nwords addr) m
      (M.loadAll (wordSteps nwords.toNat addr) m).1 (M.loadAll (wordSteps nwords.toNat addr) m).2 := by
  have hpos : 0 < A.blockWords := A.blockWords_pos (.inl (by rw [hread]; rfl))
  induction fuel generalizing nwords addr m with
  | zero =>
    obtain rfl : nwords = 0 := BitVec.eq_of_toNat_eq (by simpa using hfuel)
    exact performs_pure _ _
  | succ fuel ih =>
    rw [readBlocks]
    by_cases hn : nwords > 0
    · rw [if_pos hn]
      have hadd := nextBlock_add nwords A.blockWords
      have hnext := nextBlock_pos hn hpos
      have hle := nextBlock_le nwords A.blockWords
      intro s hs
      obtain ⟨data, s₁, hr₁, hagrees, hmem⟩ := S.read_block read hread _ hle addr s hs.agrees
      rw [hs.memory] at hmem
      obtain ⟨hwords, hmem⟩ := Prod.mk.inj hmem
      have hsplit : wordSteps nwords.toNat addr =
          wordSteps (nextBlock nwords A.blockWords).toNat addr ++
            wordSteps (nwords - nextBlock nwords A.blockWords).toNat
              (addr + nextBlock nwords A.blockWords * 4) := by
        rw [← hadd, wordSteps_add, BitVec.ofNat_toNat, BitVec.setWidth_eq]
      obtain ⟨s', hr', hs'⟩ := ih (nwords - nextBlock nwords A.blockWords)
        (addr + nextBlock nwords A.blockWords * 4) (by omega) s₁ ⟨hagrees, hmem⟩
      rw [hsplit, AddressSpace.loadAll_append, ← hwords]
      exact ⟨s', (reaches_request hr₁).bind (hr'.bind (reaches_pure _ _)), hs'⟩
    · rw [if_neg hn]
      obtain rfl : nwords = 0 := by simpa using hn
      exact performs_pure _ _

/-- A load of a block. -/
theorem Serves.readBlock_performs (addr nwords : Word) :
    Performs S.Holds (targetReadBlock A addr nwords) m
      (M.loadAll (blockPlaces A.readBlock.isSome nwords.toNat addr) m).1
      (M.loadAll (blockPlaces A.readBlock.isSome nwords.toNat addr) m).2 := by
  unfold targetReadBlock blockPlaces
  cases hread : A.readBlock with
  | some read => exact Serves.readBlocks_performs hread _ _ _ le_rfl
  | none =>
    intro s hs
    obtain ⟨s₁, hr₁, hs₁⟩ := allowMemory_allowing allows_load hs
    obtain ⟨s', hr', hs'⟩ := Serves.readNexts_performs nwords.toNat (physical addr) s₁ hs₁
    exact ⟨s', hr₁.bind hr', hs'.1⟩

/-- Stores one by one after a first one. -/
theorem Serves.writeNextWords_performs (words : List Word) (addr : Word) :
    Performs (S.Allowing false) (writeNextWords A t words addr) m ()
      (M.storeAll (((wordSteps words.length (addr + 4)).map physical).zip words) m) := by
  induction words generalizing addr m with
  | nil => exact performs_pure _ _
  | cons word words ih => exact (Serves.writeNext_performs (addr + 4) word).bind (ih (addr + 4))

/-- Stores by blocks, with as much fuel as there are words. -/
theorem Serves.blockLoop_performs {write : Word → List Word → Extension σ Unit}
    (hwrite : A.writeBlock = some write) (fuel : Nat) (nwords addr : Word) (data : Nat → Word)
    (hfuel : nwords.toNat ≤ fuel) :
    Performs S.Holds (blockLoop (fun addr words =>
        extension (write addr words) fun _ => .writeBlock addr words) A.blockWords fuel nwords addr data)
      m () (M.storeAll (consecutive addr (wordsOf nwords.toNat data)) m) := by
  have hpos : 0 < A.blockWords := A.blockWords_pos (.inr (by rw [hwrite]; rfl))
  induction fuel generalizing nwords addr data m with
  | zero =>
    obtain rfl : nwords = 0 := BitVec.eq_of_toNat_eq (by simpa using hfuel)
    exact performs_pure _ _
  | succ fuel ih =>
    rw [blockLoop]
    by_cases hn : nwords > 0
    · rw [if_pos hn]
      have hadd := nextBlock_add nwords A.blockWords
      have hnext := nextBlock_pos hn hpos
      have hle : BitVec.ofNat 32 (wordsOf (nextBlock nwords A.blockWords).toNat data).length ≤
          A.blockWords := by
        rw [length_wordsOf, BitVec.ofNat_toNat, BitVec.setWidth_eq]
        exact nextBlock_le nwords A.blockWords
      intro s hs
      obtain ⟨s₁, hr₁, hagrees, hmem⟩ := S.write_block write hwrite _ hle addr s hs.agrees
      rw [hs.memory] at hmem
      obtain ⟨s', hr', hs'⟩ := ih (nwords - nextBlock nwords A.blockWords)
        (addr + nextBlock nwords A.blockWords * 4)
        (fun i => data ((nextBlock nwords A.blockWords).toNat + i)) (by omega) s₁ ⟨hagrees, hmem⟩
      rw [consecutive_next nwords A.blockWords, AddressSpace.storeAll_append]
      exact ⟨s', (reaches_request hr₁).bind hr', hs'⟩
    · rw [if_neg hn]
      obtain rfl : nwords = 0 := by simpa using hn
      exact performs_pure _ _

/-- A store of a block of at least one word. -/
theorem Serves.writeBlock_performs (addr nwords : Word) (data : Nat → Word) (hpos : 0 < nwords.toNat) :
    Performs S.Holds (targetWriteBlock A t addr nwords data) m ()
      (M.storeAll ((blockPlaces A.writeBlock.isSome nwords.toNat addr).zip
        (wordsOf nwords.toNat data)) m) := by
  unfold targetWriteBlock blockPlaces
  cases hwrite : A.writeBlock with
  | some write =>
    have hloop := Serves.blockLoop_performs (S := S) (m := m) hwrite _ nwords (physical addr) data le_rfl
    rw [consecutive_eq_zip, length_wordsOf] at hloop
    exact hloop
  | none =>
    obtain ⟨n, hn⟩ := Nat.exists_eq_add_of_lt hpos
    intro s hs
    obtain ⟨s₁, hr₁, hs₁⟩ := Serves.writeWord_allowing (t := t) (physical addr) (data 0) hs
    obtain ⟨s', hr', hs'⟩ := Serves.writeNextWords_performs (t := t)
      (wordsOf (nwords.toNat - 1) fun i => data (i + 1)) (physical addr) s₁ hs₁
    refine ⟨s', hr₁.bind hr', ?_⟩
    have hone : nwords.toNat = n + 1 := by omega
    rw [hone, wordsOf_succ, wordSteps]
    rw [length_wordsOf, hone] at hs'
    exact hs'.1

end Accesses

end Mcprog
