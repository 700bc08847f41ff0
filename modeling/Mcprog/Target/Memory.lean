import Mcprog.Adapter.Bus
import Mcprog.Target.State

/-!
# Access to the memory of the target

The word and block accesses of `target.c`. Each of them is given with the memory
cycles that it exhibits, so that the flash algorithms above never look at registers.
-/

namespace Mcprog

open Interaction

variable {σ : Type}

/-- Wait for the bit `RDYm` of `OSCR`, at most `count` times. -/
def waitReady (A : Adapter σ) (timeout : String) : Nat → Action σ Unit
  | 0 => do
    let oscr ← getOscr
    fatal 1 timeout [oscr]
  | count + 1 => do
    let oscr ← oncdRead A oncdOscr 32
    setOscr oscr
    if oscr &&& oscrRdym ≠ 0 then pure () else waitReady A timeout count

/-- Store a word. Memory access must be allowed already. -/
def targetWriteNext (A : Adapter σ) (t : Target) (physAddr data : Word) : Action σ Unit := do
  oncdWrite A (physical physAddr) oncdOmar 32
  oncdWrite A data oncdOmdr 32
  oncdWrite A 0 oncdMem 0
  if t.isRunning then
    waitReady A "Timeout writing memory, aborted. OSCR=%#x\n" 100
  else
    pure ()

/-- Allow memory access: bring `OSCR` to the new value where it differs. -/
def allowMemory (A : Adapter σ) (f : Word → Word) : Action σ Unit := do
  let oscr ← getOscr
  if f oscr ≠ oscr then do
    setOscr (f oscr)
    oncdWrite A (f oscr) oncdOscr 32
  else
    pure ()

/-- Store a word. -/
def targetWriteWord (A : Adapter σ) (t : Target) (physAddr data : Word) : Action σ Unit := do
  allowMemory A fun oscr => (oscr &&& ~~~oscrRo) ||| oscrSlctMem
  targetWriteNext A t physAddr data

/-- Allow loads. -/
def targetReadStart (A : Adapter σ) : Action σ Unit :=
  allowMemory A fun oscr => oscr ||| oscrSlctMem ||| oscrRo

/-- Load a word. Loads must be allowed already. -/
def targetReadNext (A : Adapter σ) (physAddr : Word) : Action σ Word := do
  oncdWrite A (physical physAddr) oncdOmar 32
  oncdWrite A 0 oncdMem 0
  waitReady A "Timeout reading memory, aborted. OSCR=%#x\n" 1000
  oncdRead A oncdOmdr 32

/-- Load a word. -/
def targetReadWord (A : Adapter σ) (physAddr : Word) : Action σ Word := do
  targetReadStart A
  targetReadNext A physAddr

/-- Store the rest of a list of words one by one. -/
def writeNexts (A : Adapter σ) (t : Target) : List (Word × Word) → Action σ Unit
  | [] => pure ()
  | (addr, data) :: args => do
    targetWriteNext A t addr data
    writeNexts A t args

/-- Call an extended method and record the call. -/
def extension {α : Type} (f : Extension σ α) (event : α → Call) : Action σ α :=
  Program.request f event

/-- Store a list of at least one word, each given with its address. -/
def targetWriteNwords (A : Adapter σ) (t : Target) (first : Word × Word)
    (rest : List (Word × Word)) : Action σ Unit :=
  match A.writeNwords with
  | some writeNwords => extension (writeNwords (first :: rest)) fun _ => .writeNwords (first :: rest)
  | none => do
    targetWriteWord A t first.1 first.2
    writeNexts A t rest

/-- The address of the register that configures the flash memory. -/
def mcCscon3 : Word := 0x182F100C

/-- The byte lane of an address in that register. -/
def mcCscon3Addr (addr : Word) : Word := (addr &&& 3) <<< 20

/-- Store a byte, after selecting its lane. -/
def targetWriteByte (A : Adapter σ) (t : Target) (addr data : Word) : Action σ Unit :=
  match A.writeNwords with
  | some _ => targetWriteNwords A t (mcCscon3, t.cscon3 ||| mcCscon3Addr addr) [(addr, data)]
  | none => do
    targetWriteWord A t mcCscon3 (t.cscon3 ||| mcCscon3Addr addr)
    targetWriteNext A t addr data

/-- Store two bytes, each after selecting its lane. -/
def targetWrite2Bytes (A : Adapter σ) (t : Target) (addr1 data1 addr2 data2 : Word) :
    Action σ Unit :=
  match A.writeNwords with
  | some _ => targetWriteNwords A t (mcCscon3, t.cscon3 ||| mcCscon3Addr addr1)
      [(addr1, data1), (mcCscon3, t.cscon3 ||| mcCscon3Addr addr2), (addr2, data2)]
  | none => do
    targetWriteWord A t mcCscon3 (t.cscon3 ||| mcCscon3Addr addr1)
    targetWriteNext A t addr1 data1
    targetWriteNext A t mcCscon3 (t.cscon3 ||| mcCscon3Addr addr2)
    targetWriteNext A t addr2 data2

/-- The words of a buffer, from its start. -/
def wordsOf (n : Nat) (data : Nat → Word) : List Word := (List.range n).map data

/-- Load words one by one. -/
def readNexts (A : Adapter σ) : Nat → Word → Action σ (List Word)
  | 0, _ => pure []
  | n + 1, addr => do
    let word ← targetReadNext A addr
    let rest ← readNexts A n (addr + 4)
    return word :: rest

/-- The length of the next block of a buffer. -/
def nextBlock (nwords blockWords : Word) : Word :=
  if nwords > blockWords then blockWords else nwords

/-- The loop of `target_read_block` over the blocks of the adapter. The fuel bounds the
number of blocks. -/
def readBlocks (read : Word → Word → Extension σ (Nat → Word)) (blockWords : Word) :
    Nat → Word → Word → Action σ (List Word)
  | 0, nwords, _ => if nwords > 0 then Program.stop .fuel else pure []
  | fuel + 1, nwords, addr =>
    if nwords > 0 then do
      let n := nextBlock nwords blockWords
      let data ← extension (read n addr) fun data => .readBlock addr (wordsOf n.toNat data)
      let rest ← readBlocks read blockWords fuel (nwords - n) (addr + n * 4)
      return wordsOf n.toNat data ++ rest
    else
      pure []

/-- Load a block of words. -/
def targetReadBlock (A : Adapter σ) (addr nwords : Word) : Action σ (List Word) :=
  match A.readBlock with
  | some read => readBlocks read A.blockWords nwords.toNat nwords (physical addr)
  | none => do
    targetReadStart A
    readNexts A nwords.toNat (physical addr)

/-- Store the words of a buffer one by one, at the addresses after the given one. -/
def writeNextWords (A : Adapter σ) (t : Target) : List Word → Word → Action σ Unit
  | [], _ => pure ()
  | word :: words, addr => do
    targetWriteNext A t (addr + 4) word
    writeNextWords A t words (addr + 4)

/-- The loop of a method that takes the words of a buffer by blocks of the adapter. The
fuel bounds the number of blocks. -/
def blockLoop (method : Word → List Word → Action σ Unit) (blockWords : Word) :
    Nat → Word → Word → (Nat → Word) → Action σ Unit
  | 0, nwords, _, _ => if nwords > 0 then Program.stop .fuel else pure ()
  | fuel + 1, nwords, addr, data =>
    if nwords > 0 then do
      let n := nextBlock nwords blockWords
      method addr (wordsOf n.toNat data)
      blockLoop method blockWords fuel (nwords - n) (addr + n * 4) fun i => data (n.toNat + i)
    else
      pure ()

/-- Store a block of words. The first word is stored even where there is none. -/
def targetWriteBlock (A : Adapter σ) (t : Target) (addr nwords : Word) (data : Nat → Word) :
    Action σ Unit :=
  match A.writeBlock with
  | some write =>
    blockLoop (fun addr words => extension (write addr words) fun _ => .writeBlock addr words)
      A.blockWords nwords.toNat nwords (physical addr) data
  | none => do
    targetWriteWord A t (physical addr) (data 0)
    writeNextWords A t (wordsOf (nwords.toNat - 1) fun i => data (i + 1)) (physical addr)

/-- A control register in which memory access is allowed, for loads or for stores. -/
def Allows (load : Bool) (oscr : Word) : Prop := oscr.getLsbD 0 = true ∧ oscr.getLsbD 1 = load

/-- The variable of the session is looked at. -/
theorem reaches_getOscr (s : Session σ) : (getOscr : Action σ Word).Reaches s s.oscr s :=
  (Program.reaches_read s).bind (Program.reaches_pure _ _)

theorem reaches_setOscr (oscr : Word) (s : Session σ) :
    (setOscr oscr : Action σ Unit).Reaches s () { s with oscr } :=
  Program.reaches_update _ _

@[simp] theorem length_wordsOf (n : Nat) (data : Nat → Word) : (wordsOf n data).length = n := by
  simp [wordsOf]

/-- A buffer in two parts. -/
theorem wordsOf_add (m n : Nat) (data : Nat → Word) :
    wordsOf (m + n) data = wordsOf m data ++ wordsOf n fun i => data (m + i) := by
  rw [wordsOf, List.range_add, List.map_append, List.map_map]
  rfl

theorem wordsOf_succ (n : Nat) (data : Nat → Word) :
    wordsOf (n + 1) data = data 0 :: wordsOf n fun i => data (i + 1) := by
  rw [wordsOf, List.range_succ_eq_map, List.map_cons, List.map_map]
  rfl

/-- The next block and the rest of the words. -/
theorem nextBlock_add (nwords blockWords : Word) : (nextBlock nwords blockWords).toNat +
    (nwords - nextBlock nwords blockWords).toNat = nwords.toNat := by
  unfold nextBlock
  split
  · rename_i h
    have hlt : blockWords.toNat < nwords.toNat := h
    rw [BitVec.toNat_sub_of_le hlt.le]
    omega
  · simp

/-- A block is not longer than the adapter takes. -/
theorem nextBlock_le (nwords blockWords : Word) : nextBlock nwords blockWords ≤ blockWords := by
  unfold nextBlock
  split
  · exact BitVec.le_refl _
  · rename_i h
    simpa using h

/-- A block has a word as long as any are left. -/
theorem nextBlock_pos {nwords blockWords : Word} (h : nwords > 0) (hb : 0 < blockWords) :
    0 < (nextBlock nwords blockWords).toNat := by
  unfold nextBlock
  split
  · exact hb
  · exact h

/-- The next block of consecutive words, and those of the rest. -/
theorem consecutive_next (nwords blockWords addr : Word) (data : Nat → Word) :
    consecutive addr (wordsOf nwords.toNat data) =
      consecutive addr (wordsOf (nextBlock nwords blockWords).toNat data) ++
        consecutive (addr + nextBlock nwords blockWords * 4)
          (wordsOf (nwords - nextBlock nwords blockWords).toNat
            fun i => data ((nextBlock nwords blockWords).toNat + i)) := by
  have hadd := nextBlock_add nwords blockWords
  rw [← hadd, wordsOf_add, consecutive_append, length_wordsOf, BitVec.ofNat_toNat,
    BitVec.setWidth_eq]

/-- Every run of `m` that answers makes exactly these stores. -/
def Stores (m : Action σ Unit) (args : List (Word × Word)) : Prop :=
  m.Exhibits bus fun _ obs => obs = stores args

/-- Every run of `m` that answers loads its answer from `addr`. -/
def Loads (m : Action σ Word) (addr : Word) : Prop :=
  m.Exhibits bus fun val obs => obs = [.read addr val]

/-- Every run of `m` that answers makes no memory cycle, and keeps the latches. -/
def Silent {α : Type} (m : Action σ α) : Prop := ∀ s a tr s', m.Returns s a tr s' → Quiet tr

section Cycles

variable {α β : Type} {A : Adapter σ} {t : Target} {m m' : Action σ Unit}
  {args args' : List (Word × Word)} {addr data : Word}

theorem silent_pure {a : α} : Silent (pure a : Action σ α) := by
  intro s b tr s' h
  rw [(Program.returns_pure_iff.mp h).2.1]
  exact quiet_nil

theorem Silent.bind {m : Action σ α} {f : α → Action σ β} (hm : Silent m)
    (hf : ∀ a, Silent (f a)) : Silent (m >>= f) := by
  intro s b tr s' h
  obtain ⟨a, tr₁, s₁, tr₂, h₁, h₂, rfl⟩ := Program.returns_bind_iff.mp h
  exact (hm _ _ _ _ h₁).append (hf a _ _ _ _ h₂)

theorem silent_stop {e : Fatal} : Silent (Program.stop e : Action σ α) :=
  fun _ _ _ _ h => absurd h Program.not_returns_stop

/-- The variable of the session is not on the bus. -/
theorem silent_getOscr : Silent (getOscr : Action σ Word) := by
  apply Silent.bind
  · intro s a tr s' h
    rw [(Program.returns_read_iff.mp h).2.1]
    exact quiet_nil
  · exact fun _ => silent_pure

/-- Nor is it when it is set. -/
theorem silent_setOscr {oscr : Word} : Silent (setOscr oscr : Action σ Unit) := by
  intro s a tr s' h
  rw [(Program.returns_update_iff.mp h).1]
  exact quiet_nil

/-- A register other than the one for data is read without a cycle of the memory. -/
theorem silent_oncdRead {reg nbits : Nat} (h : reg ≠ oncdOmdr) : Silent (oncdRead A reg nbits) := by
  intro s a tr s' hr
  rw [oncdRead_trace hr]
  exact quiet_oncdRead h

/-- Only the address, the data and the cycle have to do with the memory. -/
theorem silent_oncdWrite {val : Word} {reg nbits : Nat} (h₁ : reg ≠ oncdOmar)
    (h₂ : reg ≠ oncdOmdr) (h₃ : reg ≠ oncdMem) : Silent (oncdWrite A val reg nbits) := by
  intro s a tr s' hr
  rw [oncdWrite_trace hr]
  exact quiet_oncdWrite h₁ h₂ h₃

/-- Waiting for the memory makes no cycle. -/
theorem silent_waitReady (timeout : String) (count : Nat) :
    Silent (waitReady A timeout count) := by
  induction count with
  | zero => exact silent_getOscr.bind fun _ => silent_stop
  | succ count ih =>
    apply (silent_oncdRead (by decide)).bind
    intro oscr
    apply silent_setOscr.bind
    intro _
    split
    · exact silent_pure
    · exact ih

/-- The control register is changed without a cycle of the memory. -/
theorem silent_allowMemory (f : Word → Word) : Silent (allowMemory A f) := by
  apply silent_getOscr.bind
  intro oscr
  split
  · exact silent_setOscr.bind fun _ => silent_oncdWrite (by decide) (by decide) (by decide)
  · exact silent_pure

theorem Silent.exhibits {m : Action σ α} (hm : Silent m) :
    m.Exhibits bus fun _ obs => obs = [] :=
  fun _ _ _ _ h => ⟨[], (hm _ _ _ _ h).shows, rfl⟩

/-- Sequences of stores compose. -/
theorem Stores.seq {f : Unit → Action σ Unit} (h : Stores m args) (h' : Stores (f ()) args') :
    Stores (m >>= f) (args ++ args') := by
  apply Program.Exhibits.bind h
  rintro u o₁ rfl
  apply h'.mono
  rintro u o₂ rfl
  exact (stores_append args args').symm

/-- What is silent comes before what stores. -/
theorem Silent.bind_stores {m : Action σ α} {f : α → Action σ Unit} (h : Silent m)
    (h' : ∀ a, Stores (f a) args) : Stores (m >>= f) args := by
  apply Program.Exhibits.bind h.exhibits
  rintro a o₁ rfl
  exact h' a

/-- The same stores in other words. -/
theorem Stores.of_eq (h : Stores m args) (he : args = args') : Stores m args' := he ▸ h

theorem stores_pure : Stores (pure () : Action σ Unit) [] := Program.exhibits_pure rfl

/-- The register accesses of a store. -/
theorem targetWriteNext_stores (addr data : Word) :
    Stores (targetWriteNext A t addr data) [(physical addr, data)] := by
  intro s u tr s' h
  obtain ⟨_, tr₁, s₁, _, h₁, hr₁, rfl⟩ := Program.returns_bind_iff.mp h
  obtain ⟨_, tr₂, s₂, _, h₂, hr₂, rfl⟩ := Program.returns_bind_iff.mp hr₁
  obtain ⟨_, tr₃, s₃, tr₄, h₃, h₄, rfl⟩ := Program.returns_bind_iff.mp hr₂
  have hq : Quiet tr₄ := by
    split at h₄
    · exact silent_waitReady _ _ _ _ _ _ h₄
    · exact silent_pure _ _ _ _ h₄
  rw [oncdWrite_trace h₁, oncdWrite_trace h₂, oncdWrite_trace h₃]
  exact ⟨_, shows_store hq, rfl⟩

/-- `target_write_word` stores one word at the physical address. -/
theorem targetWriteWord_stores (addr data : Word) :
    Stores (targetWriteWord A t addr data) [(physical addr, data)] :=
  (silent_allowMemory _).bind_stores fun _ => targetWriteNext_stores addr data

/-- The register accesses of a load. -/
theorem targetReadNext_loads (addr : Word) : Loads (targetReadNext A addr) (physical addr) := by
  intro s val tr s' h
  obtain ⟨_, tr₁, s₁, _, h₁, hr₁, rfl⟩ := Program.returns_bind_iff.mp h
  obtain ⟨_, tr₂, s₂, _, h₂, hr₂, rfl⟩ := Program.returns_bind_iff.mp hr₁
  obtain ⟨_, tr₃, s₃, tr₄, h₃, h₄, rfl⟩ := Program.returns_bind_iff.mp hr₂
  rw [oncdWrite_trace h₁, oncdWrite_trace h₂, oncdRead_trace h₄]
  exact ⟨_, shows_load (silent_waitReady _ _ _ _ _ _ h₃), rfl⟩

/-- `target_read_word` loads one word from the physical address. -/
theorem targetReadWord_loads (addr : Word) : Loads (targetReadWord A addr) (physical addr) := by
  apply Program.Exhibits.bind (silent_allowMemory _).exhibits
  rintro _ o₁ rfl
  exact targetReadNext_loads addr

/-- What a list of words is on the bus: the fast path sends the addresses as they are. -/
def nwordsArgs (A : Adapter σ) (args : List (Word × Word)) : List (Word × Word) :=
  match A.writeNwords with
  | some _ => args
  | none => args.map fun a => (physical a.1, a.2)

/-- The arguments of a method for words, in two parts. -/
theorem nwordsArgs_append : nwordsArgs A (args ++ args') = nwordsArgs A args ++ nwordsArgs A args' := by
  unfold nwordsArgs
  split
  · rfl
  · exact List.map_append

/-- Words that follow a first one are stored in their order, by induction on them. -/
theorem writeNexts_stores (args : List (Word × Word)) :
    Stores (writeNexts A t args) (args.map fun a => (physical a.1, a.2)) := by
  induction args with
  | nil => exact stores_pure
  | cons a args ih => exact (targetWriteNext_stores a.1 a.2).seq ih

theorem extension_trace {f : Extension σ α} {event : α → Call} {s s' : Session σ} {a : α}
    {tr : List Call} (h : (extension f event).Returns s a tr s') : tr = [event a] :=
  (Program.returns_request_iff.mp h).2

/-- An extended method without a reply makes the stores of its packet. -/
theorem extension_stores {f : Extension σ Unit} {c : Call}
    (h : ∀ k, busStep k c = (k, stores args)) : Stores (extension f fun _ => c) args := by
  intro s u tr s' hr
  rw [extension_trace hr]
  exact ⟨_, shows_call h, rfl⟩

/-- A list of words is stored in its order on both paths. -/
theorem targetWriteNwords_stores (first : Word × Word) (rest : List (Word × Word)) :
    Stores (targetWriteNwords A t first rest) (nwordsArgs A (first :: rest)) := by
  unfold targetWriteNwords nwordsArgs
  split
  · apply extension_stores
    intro k
    rw [busStep, packetWrites_usbWriteNwords (Or.inl rfl)]
  · exact (targetWriteWord_stores first.1 first.2).seq (writeNexts_stores rest)

/-- Looking up the region makes no cycle. -/
theorem computeBase_exhibits (t : Target) (addr : Word) :
    (t.computeBase addr : Action σ Word).Exhibits bus fun base obs =>
      ∃ r, t.findRegion (physical addr) = some r ∧ base = r.base ∧ obs = [] := by
  intro s base tr s' h
  obtain ⟨r, hr, rfl, rfl, -⟩ := t.computeBase_returns h
  exact ⟨[], Observer.Shows.nil, r, hr, rfl, rfl⟩

/-- A byte is stored after the selection of its lane. -/
theorem targetWriteByte_stores (addr data : Word) :
    Stores (targetWriteByte A t addr data)
      (nwordsArgs A [(mcCscon3, t.cscon3 ||| mcCscon3Addr addr), (addr, data)]) := by
  unfold targetWriteByte
  cases hn : A.writeNwords with
  | some f => exact targetWriteNwords_stores _ _
  | none =>
    rw [nwordsArgs, hn]
    exact (targetWriteWord_stores _ _).seq (targetWriteNext_stores addr data)

/-- What a loop over blocks does with its words is what its method does with those of each block,
one block after the other. -/
theorem blockLoop_rule {P : Action σ Unit → List (Word × Word) → Prop}
    {method : Word → List Word → Action σ Unit} {f : Word × Word → List (Word × Word)}
    (hdone : P (pure ()) []) (hstop : ∀ args, P (Program.stop .fuel) args)
    (hseq : ∀ {m m' : Action σ Unit} {args args'}, P m args → P m' args' → P (do m; m') (args ++ args'))
    (blockWords : Word) (h : ∀ addr words, P (method addr words) ((consecutive addr words).flatMap f))
    (fuel : Nat) (nwords addr : Word) (data : Nat → Word) :
    P (blockLoop method blockWords fuel nwords addr data)
      ((consecutive addr (wordsOf nwords.toNat data)).flatMap f) := by
  induction fuel generalizing nwords addr data with
  | zero =>
    unfold blockLoop
    split
    · exact hstop _
    · rename_i hn
      obtain rfl : nwords = 0 := by simpa using hn
      exact hdone
  | succ fuel ih =>
    unfold blockLoop
    split
    · have hnext := hseq (h addr (wordsOf (nextBlock nwords blockWords).toNat data))
        (ih (nwords - nextBlock nwords blockWords) (addr + nextBlock nwords blockWords * 4)
          fun i => data ((nextBlock nwords blockWords).toNat + i))
      rw [← List.flatMap_append, ← consecutive_next] at hnext
      exact hnext
    · rename_i hn
      obtain rfl : nwords = 0 := by simpa using hn
      exact hdone

/-- The stores of a loop over blocks are those of the whole buffer. -/
theorem blockLoop_stores {method : Word → List Word → Action σ Unit}
    {f : Word × Word → List (Word × Word)} (blockWords : Word)
    (h : ∀ addr words, Stores (method addr words) ((consecutive addr words).flatMap f))
    (fuel : Nat) (nwords addr : Word) (data : Nat → Word) :
    Stores (blockLoop method blockWords fuel nwords addr data)
      ((consecutive addr (wordsOf nwords.toNat data)).flatMap f) :=
  blockLoop_rule stores_pure (fun _ => Program.exhibits_stop) (fun hm hm' => Stores.seq hm hm')
    blockWords h _ _ _ _

/-- Words stored one by one, from the next address on. -/
theorem writeNextWords_stores (words : List Word) (addr : Word) :
    Stores (writeNextWords A t words addr)
      ((consecutive (addr + 4) words).map fun a => (physical a.1, a.2)) := by
  induction words generalizing addr with
  | nil => exact stores_pure
  | cons word words ih => exact (targetWriteNext_stores _ word).seq (ih _)

/-- A block is stored at consecutive addresses, on the slow path from a mapped one each. -/
theorem targetWriteBlock_stores (addr nwords : Word) (data : Nat → Word) :
    Stores (targetWriteBlock A t addr nwords data) (match A.writeBlock with
      | some _ => consecutive (physical addr) (wordsOf nwords.toNat data)
      | none => (consecutive (physical addr) (wordsOf (max 1 nwords.toNat) data)).map
          fun a => (physical a.1, a.2)) := by
  unfold targetWriteBlock
  cases A.writeBlock with
  | some write =>
    apply (blockLoop_stores (f := fun a => [a]) _ _ _ _ _ _).of_eq
    · exact List.flatMap_singleton' _
    · intro addr words
      apply extension_stores
      intro k
      rw [busStep, packetWrites_usbWriteBlock (Or.inl rfl), List.flatMap_singleton']
  | none =>
    apply ((targetWriteWord_stores _ _).seq (writeNextWords_stores _ _)).of_eq
    have hmax : max 1 nwords.toNat = nwords.toNat - 1 + 1 := by omega
    rw [hmax, wordsOf_succ]
    rfl

end Cycles

end Mcprog
