import Mcprog.Library.Effects
import Mcprog.Programmer.DoProgram
import Mcprog.Target.BlockAccess

/-!
# What a success of the programmer means

A run of `mcprog` that ends with the exit status 0 has read every byte of the image back from where it was
programmed, and after that, if flash memory was found and no block of the image reaches from one segment of
the memory into another.
-/

namespace Mcprog

open Interaction Program

variable {σ : Type} {A : Adapter σ} {t : Target}

/-- A part of the trace is an operation that loads a word. -/
def ShowsLoad (tr : List Call) (a : Word × Word) : Prop :=
  ∃ pre part post obs, tr = pre ++ part ++ post ∧ bus.Shows part obs ∧ a ∈ busReads obs

/-- What a run shows it loads. -/
theorem showsLoad_of_shows {tr : List Call} {obs : List BusEvent} (h : bus.Shows tr obs)
    {a : Word × Word} (ha : a ∈ busReads obs) : ShowsLoad tr a := by
  refine ⟨[], tr, [], obs, ?_, h, ha⟩
  rw [List.nil_append, List.append_nil]

/-- A word that is loaded by itself is loaded from its own address. -/
theorem showsLoad_of_loads {m : Action σ Word} {addr : Word} (h : Loads m (physical addr))
    {s s' : Session σ} {word : Word} {tr : List Call} (hr : m.Returns s word tr s') :
    ShowsLoad tr (physical addr, word) := by
  obtain ⟨obs, hshows, rfl⟩ := h s word tr s' hr
  refine showsLoad_of_shows hshows ?_
  rw [busReads_read]
  exact List.mem_singleton_self _

/-- The words that a call answers. -/
def Call.answers : Call → List Word
  | .oncdRead _ _ val => [val]
  | .readBlock _ data => data
  | _ => []

/-- A block is loaded at consecutive words. -/
theorem busReads_blockReads (addr : Word) (data : List Word) :
    busReads (blockReads addr data) = consecutive addr data := by
  rw [blockReads, busReads, List.filterMap_map]
  exact List.filterMap_some

/-- Words at consecutive addresses are those that were given. -/
theorem snd_mem_of_mem_consecutive {a : Word × Word} {addr : Word} {data : List Word}
    (h : a ∈ consecutive addr data) : a.2 ∈ data := by
  induction data generalizing addr with
  | nil => simp [consecutive] at h
  | cons w data ih =>
    rcases List.mem_cons.mp h with rfl | h
    · exact List.mem_cons_self
    · exact List.mem_cons_of_mem _ (ih h)

/-- What one call shows to be loaded is an answer of it. -/
theorem mem_answers_of_step {k : Latches} {c : Call} {a : Word × Word}
    (h : a ∈ busReads (busStep k c).2) : a.2 ∈ c.answers := by
  cases c with
  | oncdRead reg nbits val =>
    rw [busStep] at h
    split at h
    · split at h
      · obtain rfl : a = _ := by simpa using h
        exact List.mem_singleton_self _
      · simp [busReads] at h
    · simp [busReads] at h
  | readBlock addr data =>
    rw [busStep, busReads_blockReads] at h
    exact snd_mem_of_mem_consecutive h
  | oncdWrite val reg nbits =>
    rw [busStep] at h
    split at h
    · simp [busReads] at h
    · split at h
      · simp [busReads] at h
      · split at h
        · split at h <;> simp [busReads] at h
        · simp [busReads] at h
  | writeBlock | writeNwords | programBlock32 | programBlock32Unprotect | programBlock32Protect
  | programBlock64 | programBlock32Micron =>
    simp only [busStep, busReads_stores, List.not_mem_nil] at h
  | getIdcode | cpuStopped | stopCpu | resetCpu | stepCpu | runCpu | close => cases h

/-- What a run shows to be loaded is an answer of one of its calls. -/
theorem mem_answers_of_observe {k : Latches} {tr : List Call} {a : Word × Word}
    (h : a ∈ busReads (bus.observe k tr).2) : a.2 ∈ tr.flatMap Call.answers := by
  induction tr generalizing k with
  | nil => simp [busReads] at h
  | cons c tr ih =>
    rw [Observer.observe_cons, busReads_append] at h
    rw [List.flatMap_cons, List.mem_append]
    rcases List.mem_append.mp h with h | h
    · exact .inl (mem_answers_of_step h)
    · exact .inr (ih h)

/-- The places that a call gives for the loads. -/
def Call.places : Call → List Word
  | .oncdWrite val reg _ => if reg = oncdOmar then [val] else []
  | .readBlock addr data => (consecutive addr data).map Prod.fst
  | _ => []

/-- An address is latched by a call that gives it. -/
theorem omar_busStep (k : Latches) (c : Call) :
    (busStep k c).1.omar = k.omar ∨ ∃ val ∈ c.places, (busStep k c).1.omar = some val := by
  cases c with
  | oncdWrite val reg nbits =>
    rw [busStep]
    by_cases homar : reg = oncdOmar
    · rw [if_pos homar, Call.places, if_pos homar]
      exact .inr ⟨val, List.mem_singleton_self val, rfl⟩
    · left
      rw [if_neg homar]
      split_ifs
      · rfl
      · cases hlatch : k.omar <;> cases k.omdr <;> first | exact hlatch | rfl
      · rfl
  | oncdRead reg nbits val =>
    left
    rw [busStep]
    cases hlatch : k.omar <;> exact hlatch
  | _ => exact .inl rfl

/-- What one call shows to be loaded comes from the address that is latched, or from one that it gives. -/
theorem mem_places_of_step {k : Latches} {c : Call} {a : Word × Word} (h : a ∈ busReads (busStep k c).2) :
    k.omar = some a.1 ∨ a.1 ∈ c.places := by
  cases c with
  | oncdRead reg nbits val =>
    left
    rw [busStep] at h
    split at h
    · rename_i addr hlatch
      split_ifs at h
      · rw [busReads_read, List.mem_singleton] at h
        rw [hlatch, h]
      · cases h
    · cases h
  | readBlock addr data =>
    rw [busStep, busReads_blockReads] at h
    exact .inr (List.mem_map_of_mem h)
  | oncdWrite val reg nbits =>
    rw [busStep] at h
    split_ifs at h
    · cases h
    · cases h
    · split at h <;> cases h
    · cases h
  | writeBlock | writeNwords | programBlock32 | programBlock32Unprotect | programBlock32Protect
  | programBlock64 | programBlock32Micron =>
    simp only [busStep, busReads_stores, List.not_mem_nil] at h
  | getIdcode | cpuStopped | stopCpu | resetCpu | stepCpu | runCpu | close => cases h

/-- It comes from the address that is latched, or from one that a call gives. -/
theorem mem_places_of_observe {k : Latches} {tr : List Call} {a : Word × Word}
    (h : a ∈ busReads (bus.observe k tr).2) : k.omar = some a.1 ∨ a.1 ∈ tr.flatMap Call.places := by
  induction tr generalizing k with
  | nil => cases h
  | cons c tr ih =>
    rw [Observer.observe_cons, busReads_append] at h
    rw [List.flatMap_cons, List.mem_append]
    rcases List.mem_append.mp h with h | h
    · exact (mem_places_of_step h).imp_right .inl
    · rcases ih h with hlatch | hplaces
      · rcases omar_busStep k c with hsame | ⟨val, hval, hgiven⟩
        · exact .inl (hsame.symm.trans hlatch)
        · obtain rfl : val = a.1 := Option.some.inj (hgiven.symm.trans hlatch)
          exact .inr (.inl hval)
      · exact .inr (.inr hplaces)

/-- A word is loaded from an address that has been given. -/
theorem ShowsLoad.mem_places {tr : List Call} {a : Word × Word} (h : ShowsLoad tr a) :
    a.1 ∈ tr.flatMap Call.places := by
  obtain ⟨pre, part, post, obs, rfl, hshows, hmem⟩ := h
  have hobs : (bus.observe bus.start part).2 = obs := (hshows _ bus.start_idle).2
  have hpart : a.1 ∈ part.flatMap Call.places := by
    rcases mem_places_of_observe (k := bus.start) (hobs ▸ hmem) with hlatch | hplaces
    · cases hlatch
    · exact hplaces
  simp only [List.flatMap_append, List.mem_append]
  exact .inl (.inr hpart)

/-- A word that is loaded is an answer of the adapter. -/
theorem ShowsLoad.mem_answers {tr : List Call} {a : Word × Word} (h : ShowsLoad tr a) :
    a.2 ∈ tr.flatMap Call.answers := by
  obtain ⟨pre, part, post, obs, rfl, hshows, hmem⟩ := h
  have hobs : (bus.observe bus.start part).2 = obs := (hshows _ bus.start_idle).2
  have hpart := mem_answers_of_observe (k := bus.start) (hobs ▸ hmem)
  simp only [List.flatMap_append, List.mem_append]
  exact .inl (.inr hpart)

/-- The loads of words from an address on, at the addresses that a method makes of them. -/
def loadsAt (f : Word → Word) (addr : Word) (words : List Word) : List BusEvent :=
  (consecutive addr words).map fun a => .read (f a.1) a.2

theorem loadsAt_append (f : Word → Word) (addr : Word) (ws ws' : List Word) :
    loadsAt f addr (ws ++ ws') =
      loadsAt f addr ws ++ loadsAt f (addr + BitVec.ofNat 32 ws.length * 4) ws' := by
  rw [loadsAt, consecutive_append, List.map_append]
  rfl

/-- A word of a block is loaded from its address. -/
theorem mem_busReads_loadsAt {f : Word → Word} {addr word : Word} {words : List Word} {j : Nat}
    (h : words[j]? = some word) :
    (f (addr + 4 * BitVec.ofNat 32 j), word) ∈ busReads (loadsAt f addr words) := by
  induction words generalizing addr j with
  | nil => simp at h
  | cons w words ih =>
    cases j with
    | zero =>
      obtain rfl : w = word := by simpa using h
      simp [loadsAt, consecutive, busReads]
    | succ j =>
      have hmem : (f (addr + 4 + 4 * BitVec.ofNat 32 j), word) ∈
          busReads (loadsAt f (addr + 4) words) := ih (by simpa using h)
      have haddr : addr + 4 + 4 * BitVec.ofNat 32 j = addr + 4 * BitVec.ofNat 32 (j + 1) := by
        rw [BitVec.add_assoc]
        congr 1
        rw [BitVec.ofNat_add, BitVec.mul_add, BitVec.add_comm]
        rfl
      rw [haddr] at hmem
      exact List.mem_cons_of_mem _ hmem

/-- What a load of a block shows: the loads of its words. -/
theorem readBlocks_exhibits {read : Word → Word → Extension σ (Nat → Word)} {blockWords : Word}
    (fuel : Nat) (nwords addr : Word) :
    (readBlocks read blockWords fuel nwords addr).Exhibits bus fun words obs =>
      words.length = nwords.toNat ∧ obs = loadsAt id addr words := by
  induction fuel generalizing nwords addr with
  | zero =>
    unfold readBlocks
    split
    · exact exhibits_stop
    · rename_i hn
      obtain rfl : nwords = 0 := by simpa using hn
      exact exhibits_pure ⟨rfl, rfl⟩
  | succ fuel ih =>
    unfold readBlocks
    split
    · have hblock : (extension (read (nextBlock nwords blockWords) addr) fun data =>
          .readBlock addr (wordsOf (nextBlock nwords blockWords).toNat data)).Exhibits bus
          fun data obs => obs = loadsAt id addr (wordsOf (nextBlock nwords blockWords).toNat data) := by
        intro s data tr s' hr
        rw [extension_trace hr]
        exact ⟨_, shows_call fun k => rfl, rfl⟩
      refine hblock.bind ?_
      rintro data o₁ rfl
      refine (ih _ _).bind ?_
      rintro rest o₂ ⟨hlen, rfl⟩
      refine exhibits_pure ⟨?_, ?_⟩
      · have hadd := nextBlock_add nwords blockWords
        rw [List.length_append, length_wordsOf, hlen, hadd]
      · rw [loadsAt_append, length_wordsOf, BitVec.ofNat_toNat, BitVec.setWidth_eq, List.append_nil]
    · rename_i hn
      obtain rfl : nwords = 0 := by simpa using hn
      exact exhibits_pure ⟨rfl, rfl⟩

/-- Words that are loaded one by one. -/
theorem readNexts_exhibits (n : Nat) (addr : Word) :
    (readNexts A n addr).Exhibits bus fun words obs =>
      words.length = n ∧ obs = loadsAt physical addr words := by
  induction n generalizing addr with
  | zero => exact exhibits_pure ⟨rfl, rfl⟩
  | succ n ih =>
    refine (targetReadNext_loads addr).bind ?_
    rintro word o₁ rfl
    refine (ih (addr + 4)).bind ?_
    rintro rest o₂ ⟨hlen, rfl⟩
    refine exhibits_pure ⟨by rw [List.length_cons, hlen], ?_⟩
    rw [List.append_nil]
    rfl

/-- A block is loaded: its words come from their places behind the physical address of its start. -/
theorem targetReadBlock_exhibits (addr nwords : Word) :
    (targetReadBlock A addr nwords).Exhibits bus fun words obs => words.length = nwords.toNat ∧
      ∃ f : Word → Word, obs = loadsAt f (physical addr) words ∧
        ∀ k, f (physical addr + 4 * BitVec.ofNat 32 k) = blockPlace A.readBlock.isSome addr k := by
  unfold targetReadBlock
  cases hread : A.readBlock with
  | some read =>
    exact (readBlocks_exhibits _ _ _).mono fun words obs h => ⟨h.1, id, h.2, fun _ => rfl⟩
  | none =>
    refine (silent_allowMemory _).exhibits.bind ?_
    rintro _ o₁ rfl
    exact (readNexts_exhibits _ _).mono fun words obs h => ⟨h.1, physical, h.2, fun _ => rfl⟩

/-- A block that is read has as many words as were asked for. -/
theorem length_targetReadBlock {addr nwords : Word} {s s' : Session σ} {words : List Word}
    {tr : List Call} (h : (targetReadBlock A addr nwords).Returns s words tr s') :
    words.length = nwords.toNat := by
  obtain ⟨obs, -, hlen, -⟩ := targetReadBlock_exhibits addr nwords s words tr s' h
  exact hlen

/-- The words of a block in one segment are loaded from their own addresses. -/
theorem targetReadBlock_showsLoad {addr nwords : Word} (hplace : InPlace A.readBlock.isSome addr nwords)
    {s s' : Session σ} {words : List Word} {tr : List Call}
    (h : (targetReadBlock A addr nwords).Returns s words tr s') {j : Nat} {word : Word}
    (hword : words[j]? = some word) : ShowsLoad tr (physical (addr + 4 * BitVec.ofNat 32 j), word) := by
  obtain ⟨obs, hshows, hlen, f, rfl, hf⟩ := targetReadBlock_exhibits addr nwords s words tr s' h
  have hj : j < nwords.toNat := by
    rw [← hlen]
    exact (List.getElem?_eq_some_iff.mp hword).1
  have hmem : (f (physical addr + 4 * BitVec.ofNat 32 j), word) ∈ busReads (loadsAt f (physical addr) words) :=
    mem_busReads_loadsAt hword
  rw [hf, hplace j hj] at hmem
  exact showsLoad_of_shows hshows hmem

/-- One step of the loop over the blocks. The numbers are places in the image. -/
inductive LoopStep
  /-- A block is programmed or written. -/
  | store (offset len : Nat)
  /-- A block is read, with these words. -/
  | readBlock (offset len : Nat) (words : List Word)
  /-- A word that has been read as `bad` is programmed again. -/
  | rewrite (offset : Nat) (bad : Word)
  /-- A word is read again. -/
  | readWord (offset : Nat) (word : Word)

namespace LoopStep

/-- The step is made with these calls. -/
def Makes (A : Adapter σ) (t : Target) (mem : MemoryImage) (store : Nat → Nat → Action σ Unit) :
    LoopStep → Session σ → List Call → Session σ → Prop
  | .store offset len, s, tr, s' => (store offset len).Returns s () tr s'
  | .readBlock offset len words, s, tr, s' =>
    (targetReadBlock A (mem.base + BitVec.ofNat 32 offset) (BitVec.ofNat 32 ((len + 3) / 4))).Returns s words tr s'
  | .rewrite offset bad, s, tr, s' =>
    (targetFlashRewrite A t (mem.base + BitVec.ofNat 32 offset) bad (mem.word offset)).Returns s true tr s'
  | .readWord offset word, s, tr, s' => (targetReadWord A (mem.base + BitVec.ofNat 32 offset)).Returns s word tr s'

/-- The step programs the word at a place of the image. -/
def Programs (offset : Nat) : LoopStep → Prop
  | .store start len => start ≤ offset ∧ offset < start + len
  | .rewrite start _ => start = offset
  | _ => False

/-- The step reads this word for a place of the image. -/
def Reads (offset : Nat) (word : Word) : LoopStep → Prop
  | .readBlock start _ words => ∃ j, start + 4 * j = offset ∧ words[j]? = some word
  | .readWord start word' => start = offset ∧ word' = word
  | _ => False

end LoopStep

/-- Steps of the loop one after the other, each with its calls. -/
inductive LoopSteps (A : Adapter σ) (t : Target) (mem : MemoryImage) (store : Nat → Nat → Action σ Unit) :
    Session σ → List (LoopStep × List Call) → Session σ → Prop
  | nil (s : Session σ) : LoopSteps A t mem store s [] s
  | cons {s s₁ s' : Session σ} {step : LoopStep} {tr : List Call} {steps : List (LoopStep × List Call)}
      (made : step.Makes A t mem store s tr s₁) (rest : LoopSteps A t mem store s₁ steps s') :
      LoopSteps A t mem store s ((step, tr) :: steps) s'

/-- The calls of the steps. -/
def stepCalls (steps : List (LoopStep × List Call)) : List Call := steps.flatMap Prod.snd

theorem stepCalls_append (steps steps' : List (LoopStep × List Call)) :
    stepCalls (steps ++ steps') = stepCalls steps ++ stepCalls steps' := List.flatMap_append

/-- No step programs the word at a place of the image. -/
def Spares (steps : List (LoopStep × List Call)) (offset : Nat) : Prop := ∀ y ∈ steps, ¬y.1.Programs offset

/-- The word at a place of the image is read by one of the steps, from its own physical address, and is not
programmed after that. -/
def ReadsLast (mem : MemoryImage) (steps : List (LoopStep × List Call)) (offset : Nat) (word : Word) : Prop :=
  ∃ before x after, steps = before ++ x :: after ∧ x.1.Reads offset word ∧
    ShowsLoad x.2 (physical (mem.base + BitVec.ofNat 32 offset), word) ∧ Spares after offset

section Verify

variable {verifyOnly : Bool} {mem : MemoryImage} {store : Nat → Nat → Action σ Unit} {u : Unit} {s s' s₁ : Session σ}
  {tr : List Call} {steps steps' : List (LoopStep × List Call)} {offset : Nat} {word : Word}

/-- Steps of the loop, one part after the other. -/
theorem LoopSteps.append (h : LoopSteps A t mem store s steps s₁) (h' : LoopSteps A t mem store s₁ steps' s') :
    LoopSteps A t mem store s (steps ++ steps') s' := by
  induction h with
  | nil => exact h'
  | cons made rest ih => exact .cons made (ih h')

theorem Spares.append (h : Spares steps offset) (h' : Spares steps' offset) : Spares (steps ++ steps') offset := by
  intro y hy
  rcases List.mem_append.mp hy with hy | hy
  · exact h y hy
  · exact h' y hy

/-- Steps before the last load do not matter. -/
theorem ReadsLast.append_left (h : ReadsLast mem steps offset word) (earlier : List (LoopStep × List Call)) :
    ReadsLast mem (earlier ++ steps) offset word := by
  obtain ⟨before, x, after, rfl, hreads, hload, hspares⟩ := h
  exact ⟨earlier ++ before, x, after, (List.append_assoc _ _ _).symm, hreads, hload, hspares⟩

/-- Steps behind it do not matter where they spare the word. -/
theorem ReadsLast.append_right (h : ReadsLast mem steps offset word) (hlater : Spares steps' offset) :
    ReadsLast mem (steps ++ steps') offset word := by
  obtain ⟨before, x, after, rfl, hreads, hload, hspares⟩ := h
  exact ⟨before, x, after ++ steps', by rw [List.append_assoc, List.cons_append], hreads, hload,
    hspares.append hlater⟩

/-- A word that is programmed again with success is loaded after that. -/
theorem rewriteWord_returns {addr expected word word' : Word}
    (h : (rewriteWord A t verifyOnly addr expected word).Returns s word' tr s') :
    ∃ tr₁ s₁ tr₂, (targetFlashRewrite A t addr word expected).Returns s true tr₁ s₁ ∧
      (targetReadWord A addr).Returns s₁ word' tr₂ s' ∧ tr = tr₁ ++ tr₂ := by
  unfold rewriteWord at h
  cases verifyOnly with
  | true => exact absurd h not_returns_stop
  | false =>
    rw [if_neg Bool.false_ne_true] at h
    obtain ⟨ok, tr₁, s₁, tr₂, h₁, h₂, rfl⟩ := returns_bind_iff.mp h
    cases ok with
    | false => exact absurd h₂ not_returns_stop
    | true => exact ⟨tr₁, s₁, tr₂, h₁, h₂, rfl⟩

/-- A word is accepted as it is, or after one more round. -/
theorem verifyWord_cases {addr expected word : Word} {tries : Nat}
    (h : (verifyWord A t verifyOnly addr expected tries word).Returns s u tr s') :
    (word = expected ∧ tr = [] ∧ s' = s) ∨ word ≠ expected ∧ ∃ n word' tr₁ s₁ tr₂, tries = n + 1 ∧
      (rewriteWord A t verifyOnly addr expected word).Returns s word' tr₁ s₁ ∧
      (verifyWord A t verifyOnly addr expected n word').Returns s₁ u tr₂ s' ∧ tr = tr₁ ++ tr₂ := by
  by_cases heq : word = expected
  · rw [verifyWord.eq_def] at h
    cases tries <;>
    · dsimp only at h
      rw [if_pos heq] at h
      obtain ⟨-, htr, hs⟩ := returns_pure_iff.mp h
      exact .inl ⟨heq, htr, hs⟩
  · right
    cases tries with
    | zero =>
      rw [verifyWord, if_neg heq] at h
      obtain ⟨_, _, _, _, -, hreport, -⟩ := returns_bind_iff.mp h
      exact absurd hreport not_returns_stop
    | succ n =>
      rw [verifyWord, if_neg heq] at h
      obtain ⟨word', tr₁, s₁, tr₂, hround, hrest, htr⟩ := returns_bind_iff.mp h
      exact ⟨heq, n, word', tr₁, s₁, tr₂, rfl, hround, hrest, htr⟩

/-- A part of the loop, by the steps that it makes: they program the words of one range only. -/
structure RunsBy (A : Adapter σ) (t : Target) (mem : MemoryImage) (store : Nat → Nat → Action σ Unit) (lo hi : Nat)
    (s : Session σ) (tr : List Call) (s' : Session σ) (steps : List (LoopStep × List Call)) : Prop where
  made : LoopSteps A t mem store s steps s'
  calls_eq : tr = stepCalls steps
  spares : ∀ o, o < lo ∨ hi ≤ o → Spares steps o

theorem runsBy_nil (lo hi : Nat) (s : Session σ) : RunsBy A t mem store lo hi s [] s [] :=
  ⟨.nil s, rfl, fun _ _ _ hy => absurd hy List.not_mem_nil⟩

theorem RunsBy.append {lo hi : Nat} {tr' : List Call} (h : RunsBy A t mem store lo hi s tr s₁ steps)
    (h' : RunsBy A t mem store lo hi s₁ tr' s' steps') :
    RunsBy A t mem store lo hi s (tr ++ tr') s' (steps ++ steps') where
  made := h.made.append h'.made
  calls_eq := by rw [stepCalls_append, h.calls_eq, h'.calls_eq]
  spares o ho := (h.spares o ho).append (h'.spares o ho)

/-- A smaller range is within the larger one. -/
theorem RunsBy.mono {lo hi lo' hi' : Nat} (h : RunsBy A t mem store lo hi s tr s' steps) (hlo : lo' ≤ lo)
    (hhi : hi ≤ hi') : RunsBy A t mem store lo' hi' s tr s' steps :=
  ⟨h.made, h.calls_eq, fun o ho => h.spares o (by omega)⟩

variable (store) in
/-- A word that differs is programmed again, and read after that. -/
theorem rewriteWord_steps {word' : Word} (h : (rewriteWord A t verifyOnly (mem.base + BitVec.ofNat 32 offset)
    (mem.word offset) word).Returns s word' tr s') :
    ∃ steps, RunsBy A t mem store offset (offset + 1) s tr s' steps ∧ ReadsLast mem steps offset word' := by
  obtain ⟨tr₁, s₁, tr₂, hrewrite, hread, rfl⟩ := rewriteWord_returns h
  refine ⟨[(.rewrite offset word, tr₁), (.readWord offset word', tr₂)],
    ⟨.cons hrewrite (.cons hread (.nil s')), by simp [stepCalls], fun o ho y hy hprograms => ?_⟩, ?_⟩
  · simp only [List.mem_cons, List.not_mem_nil, or_false] at hy
    rcases hy with rfl | rfl
    · have heq : offset = o := hprograms
      omega
    · exact hprograms
  · exact ⟨[(.rewrite offset word, tr₁)], (.readWord offset word', tr₂), [], rfl, ⟨rfl, rfl⟩,
      showsLoad_of_loads (targetReadWord_loads _) hread, fun y hy => absurd hy List.not_mem_nil⟩

variable (store) in
/-- A word that is accepted has been as expected from the start, or is read so in the end. -/
theorem verifyWord_steps {tries : Nat} (h : (verifyWord A t verifyOnly (mem.base + BitVec.ofNat 32 offset)
    (mem.word offset) tries word).Returns s u tr s') :
    ∃ steps, RunsBy A t mem store offset (offset + 1) s tr s' steps ∧
      ((word = mem.word offset ∧ steps = []) ∨ ReadsLast mem steps offset (mem.word offset)) := by
  induction tries generalizing word s tr with
  | zero =>
    rcases verifyWord_cases h with ⟨heq, rfl, rfl⟩ | ⟨-, n, _, _, _, _, hn, -⟩
    · exact ⟨[], runsBy_nil _ _ s', .inl ⟨heq, rfl⟩⟩
    · cases hn
  | succ tries ih =>
    rcases verifyWord_cases h with ⟨heq, rfl, rfl⟩ | ⟨-, n, word', tr₁, s₁, tr₂, hn, hround, hrest, rfl⟩
    · exact ⟨[], runsBy_nil _ _ s', .inl ⟨heq, rfl⟩⟩
    · obtain rfl := Nat.succ.inj hn
      obtain ⟨steps₁, hsteps₁, hread⟩ := rewriteWord_steps store hround
      obtain ⟨steps₂, hsteps₂, hlast⟩ := ih hrest
      refine ⟨steps₁ ++ steps₂, hsteps₁.append hsteps₂, .inr ?_⟩
      rcases hlast with ⟨rfl, rfl⟩ | hlast
      · rw [List.append_nil]
        exact hread
      · exact hlast.append_left steps₁

variable (store) in
/-- Words of a block that have been read, and have been verified. -/
theorem verifyWords_steps {words : List Word} (h : (verifyWords A t verifyOnly mem offset words).Returns s u tr s') :
    ∃ steps, RunsBy A t mem store offset (offset + 4 * words.length) s tr s' steps ∧
      ∀ j word, words[j]? = some word →
        (word = mem.word (offset + 4 * j) ∧ Spares steps (offset + 4 * j)) ∨
          ReadsLast mem steps (offset + 4 * j) (mem.word (offset + 4 * j)) := by
  induction words generalizing offset s tr with
  | nil =>
    obtain ⟨-, rfl, rfl⟩ := returns_pure_iff.mp h
    exact ⟨[], runsBy_nil _ _ s', fun j word hword => by simp at hword⟩
  | cons w words ih =>
    obtain ⟨_, tr₁, s₁, tr₂, h₁, h₂, rfl⟩ := returns_bind_iff.mp h
    obtain ⟨steps₁, hsteps₁, hfirst⟩ := verifyWord_steps store h₁
    obtain ⟨steps₂, hsteps₂, hrest⟩ := ih h₂
    have hlen : (w :: words).length = words.length + 1 := List.length_cons
    refine ⟨steps₁ ++ steps₂, (hsteps₁.mono le_rfl (by omega)).append (hsteps₂.mono (by omega) (by omega)), ?_⟩
    intro j word hword
    cases j with
    | zero =>
      obtain rfl : w = word := by simpa using hword
      have hlater : Spares steps₂ (offset + 4 * 0) := hsteps₂.spares _ (by omega)
      rcases hfirst with ⟨heq, rfl⟩ | hlast
      · exact .inl ⟨heq, hlater⟩
      · exact .inr (hlast.append_right hlater)
    | succ j =>
      have hoffset : offset + 4 * (j + 1) = offset + 4 + 4 * j := by omega
      rw [hoffset]
      have hearlier : Spares steps₁ (offset + 4 + 4 * j) := hsteps₁.spares _ (by omega)
      rcases hrest j word (by simpa using hword) with ⟨heq, hspares⟩ | hlast
      · exact .inl ⟨heq, hearlier.append hspares⟩
      · exact .inr (hlast.append_left steps₁)

/-- The words of the block are read at their own addresses. -/
def MemoryImage.BlockInPlace (mem : MemoryImage) (A : Adapter σ) (addr len : Nat) : Prop :=
  InPlace A.readBlock.isSome (mem.base + BitVec.ofNat 32 addr) (BitVec.ofNat 32 ((len + 3) / 4))

variable (store) in
/-- A block that is verified is read as it should be. -/
theorem verifyBlock_steps {addr len : Nat} (hlen : len ≤ blockSz) (hplace : mem.BlockInPlace A addr len)
    (h : (verifyBlock A t verifyOnly mem addr len).Returns s u tr s') :
    ∃ steps, RunsBy A t mem store addr (addr + 4 * ((len + 3) / 4)) s tr s' steps ∧
      ∀ j < (len + 3) / 4, ReadsLast mem steps (addr + 4 * j) (mem.word (addr + 4 * j)) := by
  obtain ⟨words, tr₁, s₁, tr₂, h₁, h₂, rfl⟩ := returns_bind_iff.mp h
  have hcount : words.length = (len + 3) / 4 := by
    rw [length_targetReadBlock h₁, BitVec.toNat_ofNat, Nat.mod_eq_of_lt]
    unfold blockSz at hlen
    omega
  obtain ⟨steps, hsteps, hwords⟩ := verifyWords_steps store h₂
  rw [hcount] at hsteps
  have hread : RunsBy A t mem store addr (addr + 4 * ((len + 3) / 4)) s tr₁ s₁ [(.readBlock addr len words, tr₁)] := by
    refine ⟨.cons h₁ (.nil s₁), by simp [stepCalls], fun o _ y hy => ?_⟩
    rw [List.mem_singleton.mp hy]
    exact id
  refine ⟨_, hread.append hsteps, fun j hj => ?_⟩
  obtain ⟨word, hword⟩ : ∃ word, words[j]? = some word := ⟨_, List.getElem?_eq_getElem (by omega)⟩
  rcases hwords j word hword with ⟨rfl, hspares⟩ | hlast
  · have haddr : mem.base + BitVec.ofNat 32 addr + 4 * BitVec.ofNat 32 j =
        mem.base + BitVec.ofNat 32 (addr + 4 * j) := by
      rw [BitVec.ofNat_add, BitVec.ofNat_mul, BitVec.add_assoc]
      rfl
    have hload := targetReadBlock_showsLoad hplace h₁ hword
    rw [haddr] at hload
    exact ⟨[], (.readBlock addr len words, tr₁), steps, rfl, ⟨j, rfl, hword⟩, hload, hspares⟩
  · exact hlast.append_left [(.readBlock addr len words, tr₁)]

/-- The words of every block of the image are read at their own addresses. -/
def MemoryImage.BlocksInPlace (mem : MemoryImage) (A : Adapter σ) : Prop :=
  ∀ k ∈ blocks mem.len, mem.BlockInPlace A (blockSz * k) (blockLen mem.len (blockSz * k))

variable (A t mem) in
/-- Storing a block, or leaving it out, is a step that programs the words of the block. -/
theorem storeBlock_steps {addr len : Nat}
    (h : (if verifyOnly then pure () else store addr len : Action σ Unit).Returns s u tr s') :
    ∃ steps, RunsBy A t mem store addr (addr + len) s tr s' steps := by
  cases verifyOnly with
  | true =>
    obtain ⟨-, rfl, rfl⟩ := returns_pure_iff.mp h
    exact ⟨[], runsBy_nil _ _ s'⟩
  | false =>
    refine ⟨[(.store addr len, tr)], .cons h (.nil s'), by simp [stepCalls], fun o ho y hy hprograms => ?_⟩
    rw [List.mem_singleton.mp hy] at hprograms
    have hrange : addr ≤ o ∧ o < addr + len := hprograms
    omega

/-- Every block of a run is read as it should be, after it has been stored and the words of it programmed
again. The blocks behind it leave it alone. -/
theorem eachBlock_steps {k n : Nat}
    (hplace : ∀ i ∈ List.range' k n, mem.BlockInPlace A (blockSz * i) (blockLen mem.len (blockSz * i)))
    (h : (eachBlock A t verifyOnly mem store (List.range' k n)).Returns s u tr s') :
    ∃ steps, RunsBy A t mem store (blockSz * k) (blockSz * (k + n)) s tr s' steps ∧
      ∀ i ∈ List.range' k n, ∀ j < (blockLen mem.len (blockSz * i) + 3) / 4,
        ReadsLast mem steps (blockSz * i + 4 * j) (mem.word (blockSz * i + 4 * j)) := by
  induction n generalizing k s tr with
  | zero =>
    obtain ⟨-, rfl, rfl⟩ := returns_pure_iff.mp h
    exact ⟨[], runsBy_nil _ _ s', fun i hi => absurd hi List.not_mem_nil⟩
  | succ n ih =>
    rw [List.range'_succ] at h hplace ⊢
    obtain ⟨_, tr₁, s₁, _, h₁, h', rfl⟩ := returns_bind_iff.mp h
    obtain ⟨_, tr₂, s₂, tr₃, h₂, h₃, rfl⟩ := returns_bind_iff.mp h'
    have hlen : blockLen mem.len (blockSz * k) ≤ blockSz := Nat.min_le_left _ _
    have hwords : 4 * ((blockLen mem.len (blockSz * k) + 3) / 4) ≤ blockSz := by
      unfold blockSz at hlen ⊢
      omega
    obtain ⟨steps₁, hsteps₁⟩ := storeBlock_steps A t mem h₁
    obtain ⟨steps₂, hsteps₂, hreads⟩ := verifyBlock_steps store hlen (hplace k List.mem_cons_self) h₂
    obtain ⟨steps₃, hsteps₃, hrest⟩ := ih (fun i hi => hplace i (List.mem_cons_of_mem k hi)) h₃
    have hnext : blockSz * (k + 1) = blockSz * k + blockSz := Nat.mul_succ _ _
    have hend : blockSz * (k + 1) ≤ blockSz * (k + 1 + n) := Nat.mul_le_mul_left _ (Nat.le_add_right _ _)
    rw [Nat.add_right_comm k 1 n] at hsteps₃ hend
    have hblock := (hsteps₁.mono le_rfl (by omega)).append
      ((hsteps₂.mono le_rfl (by omega)).append (hsteps₃.mono (by omega) le_rfl) :
        RunsBy A t mem store (blockSz * k) (blockSz * (k + n + 1)) s₁ (tr₂ ++ tr₃) s' (steps₂ ++ steps₃))
    refine ⟨_, hblock, fun i hi j hj => ?_⟩
    rcases List.mem_cons.mp hi with rfl | hi
    · exact ((hreads j hj).append_right (hsteps₃.spares _ (by omega))).append_left steps₁
    · exact ((hrest i hi j hj).append_left steps₂).append_left steps₁

/-- All blocks together hold every byte of the image. -/
theorem eachBlock_blocks_steps (hplace : mem.BlocksInPlace A)
    (h : (eachBlock A t verifyOnly mem store (blocks mem.len)).Returns s u tr s') :
    ∃ steps, LoopSteps A t mem store s steps s' ∧ tr = stepCalls steps ∧
      ∀ o : Nat, (o : Int) < mem.len → ReadsLast mem steps (4 * (o / 4)) (mem.word (4 * (o / 4))) := by
  have hblocks : blocks mem.len = List.range' 0 ((mem.len.toNat + (blockSz - 1)) / blockSz) :=
    List.range_eq_range' ..
  rw [MemoryImage.BlocksInPlace, hblocks] at hplace
  rw [hblocks] at h
  obtain ⟨steps, hsteps, hreads⟩ := eachBlock_steps hplace h
  refine ⟨steps, hsteps.made, hsteps.calls_eq, fun o ho => ?_⟩
  have hk : o / blockSz ∈ List.range' 0 ((mem.len.toNat + (blockSz - 1)) / blockSz) := by
    rw [← List.range_eq_range', List.mem_range]
    unfold blockSz
    omega
  have hj : o % blockSz / 4 < (blockLen mem.len (blockSz * (o / blockSz)) + 3) / 4 := by
    unfold blockLen blockSz
    omega
  have hoffset : blockSz * (o / blockSz) + 4 * (o % blockSz / 4) = 4 * (o / 4) := by
    unfold blockSz
    omega
  rw [← hoffset]
  exact hreads _ hk _ hj

end Verify

/-- The calls of the adapter in a run. -/
def callsOf (tr : List ControlEvent) : List Call :=
  tr.filterMap fun
    | .call c => some c
    | _ => none

theorem callsOf_append (tr tr' : List ControlEvent) :
    callsOf (tr ++ tr') = callsOf tr ++ callsOf tr' := List.filterMap_append

theorem callsOf_map_call (tr : List Call) : callsOf (tr.map .call) = tr := by
  induction tr with
  | nil => rfl
  | cons c tr ih => exact congrArg (c :: ·) ih

/-- How a block is stored: with `-w` it is written, and else programmed. -/
def Invocation.storeBlock (inv : Invocation) (A : Adapter σ) (t : Target) (mem : MemoryImage) (fuel : Nat) :
    Nat → Nat → Action σ Unit :=
  if inv.memoryWriteMode then writeBlock A t mem else programBlock A t mem fuel

/-- The run ends with these steps of the loop over the blocks, and then it quits. -/
def EndsWith (A : Adapter σ) (inv : Invocation) (fuel : Nat) (mem : MemoryImage) (tr : List ControlEvent)
    (steps : List (LoopStep × List Call)) : Prop :=
  ∃ t opening closing s₁ s₂ s₃, tr = opening ++ (stepCalls steps).map .call ++ closing ∧
    LoopSteps A t mem (inv.storeBlock A t mem fuel) s₁ steps s₂ ∧
    (quit A t inv.startAddr).Returns s₂ () closing s₃

/-- Every byte of the image has been read back from the target: in the loop over the blocks its word is loaded
from its own physical address and not programmed after that, and the byte in the lane of it is that of the
image. -/
def ReadBack (A : Adapter σ) (inv : Invocation) (fuel : Nat) (mem : MemoryImage) (tr : List ControlEvent) : Prop :=
  ∀ o : Nat, (o : Int) < mem.len → ∃ steps word, EndsWith A inv fuel mem tr steps ∧
    ReadsLast mem steps (4 * (o / 4)) word ∧ (wordBytes word)[o % 4]? = some (mem.data o)

/-- The bytes of a word of the image are those of the image. -/
theorem wordBytes_word (mem : MemoryImage) (offset k : Nat) (hk : k < 4) :
    (wordBytes (mem.word offset))[k]? = some (mem.data (offset + k)) := by
  rw [MemoryImage.word, wordBytes_setBytes]
  match k, hk with
  | 0, _ => rfl
  | 1, _ => rfl
  | 2, _ => rfl
  | 3, _ => rfl

section Runs

variable {inv : Invocation} {mem : MemoryImage} {l : LoadState} {fuel : Nat}
  {s s' : Session σ} {tr : List ControlEvent}

/-- A part of a run ends with the loop over the blocks, in which the words of the image are read last. -/
def EndsReading (A : Adapter σ) (t : Target) (mem : MemoryImage) (store : Nat → Nat → Action σ Unit)
    (tr : List ControlEvent) (s' : Session σ) : Prop :=
  ∃ opening steps s₁, tr = opening ++ (stepCalls steps).map .call ∧ LoopSteps A t mem store s₁ steps s' ∧
    ∀ o : Nat, (o : Int) < mem.len → ReadsLast mem steps (4 * (o / 4)) (mem.word (4 * (o / 4)))

/-- Where the words are read the bytes are. -/
theorem EndsReading.readBack {tr₁ closing : List ControlEvent} {s₁ s₂ : Session σ}
    (h : EndsReading A t mem (inv.storeBlock A t mem fuel) tr₁ s₁)
    (hquit : (quit A t inv.startAddr).Returns s₁ () closing s₂) : ReadBack A inv fuel mem (tr₁ ++ closing) := by
  obtain ⟨opening, steps, s₀, rfl, hsteps, hreads⟩ := h
  intro o ho
  refine ⟨steps, mem.word (4 * (o / 4)), ⟨t, opening, closing, s₀, s₁, s₂, rfl, hsteps, hquit⟩, hreads o ho, ?_⟩
  have hoffset : 4 * (o / 4) + o % 4 = o := Nat.div_add_mod o 4
  rw [wordBytes_word mem _ _ (Nat.mod_lt o (by omega)), hoffset]

/-- The loop over the blocks reads the image last. -/
theorem endsReading_of_eachBlock {verifyOnly : Bool} {store : Nat → Nat → Action σ Unit} (hplace : mem.BlocksInPlace A)
    {tr₀ : List Call} (h : (eachBlock A t verifyOnly mem store (blocks mem.len)).Returns s () tr₀ s')
    (opening : List ControlEvent) : EndsReading A t mem store (opening ++ tr₀.map .call) s' := by
  obtain ⟨steps, hsteps, rfl, hreads⟩ := eachBlock_blocks_steps hplace h
  exact ⟨opening, steps, s, rfl, hsteps, hreads⟩

/-- `do_write` reads the image back. -/
theorem doWrite_reads (hplace : mem.BlocksInPlace A) {t' : Target} (h : (doWrite A inv mem).Returns s t' tr s') :
    EndsReading A t' mem (writeBlock A t' mem) tr s' := by
  obtain ⟨t₁, tr₁, s₁, _, -, h', rfl⟩ := returns_bind_iff.mp h
  obtain ⟨_, tr₂, s₂, tr₃, h₂, h₃, rfl⟩ := returns_bind_iff.mp h'
  obtain ⟨tr₀, hblocks, rfl⟩ := returns_mapEvents_iff.mp h₂
  obtain ⟨rfl, rfl, rfl⟩ := returns_pure_iff.mp h₃
  rw [List.append_nil]
  exact endsReading_of_eachBlock hplace hblocks tr₁

/-- `do_program` reads the image back where it finds flash memory. Elsewhere it looks for it, and
that is all. -/
theorem doProgram_reads {t' : Target} (h : (doProgram A inv mem fuel).Returns s t' tr s') :
    ∃ d tr₁ s₁, (probeFlash A inv mem.base).Returns s d tr₁ s₁ ∧ t' = d.target ∧
      (d.found.isSome → mem.BlocksInPlace A → EndsReading A t' mem (programBlock A t' mem fuel) tr s') ∧
      (d.found = none → tr = tr₁ ∧ s' = s₁) := by
  obtain ⟨d, tr₁, s₁, tr₂, h₁, h₂, rfl⟩ := returns_bind_iff.mp h
  refine ⟨d, tr₁, s₁, h₁, ?_⟩
  by_cases hfound : d.found.isSome
  · rw [if_pos hfound] at h₂
    obtain ⟨_, tr₃, s₃, _, -, h', rfl⟩ := returns_bind_iff.mp h₂
    obtain ⟨_, tr₄, s₄, tr₅, h₄, h₅, rfl⟩ := returns_bind_iff.mp h'
    obtain ⟨tr₀, hblocks, rfl⟩ := returns_mapEvents_iff.mp h₄
    obtain ⟨rfl, rfl, rfl⟩ := returns_pure_iff.mp h₅
    refine ⟨rfl, fun _ hplace => ?_, fun hnone => ?_⟩
    · rw [List.append_nil, ← List.append_assoc]
      exact endsReading_of_eachBlock hplace hblocks (tr₁ ++ tr₃)
    · rw [hnone] at hfound
      exact absurd hfound (by simp)
  · rw [if_neg hfound] at h₂
    obtain ⟨rfl, rfl, rfl⟩ := returns_pure_iff.mp h₂
    exact ⟨rfl, fun h => absurd h hfound, fun _ => ⟨List.append_nil _, rfl⟩⟩

/-- A file with contents is to be programmed: it is loaded, and `-w` is not given. -/
def Invocation.Programs (inv : Invocation) (l : LoadState) (mem : MemoryImage) : Prop :=
  ∃ m, inv.load = some m ∧ loaded m l = .ok mem ∧ inv.memoryWriteMode = false ∧ 0 < mem.len

/-- Flash memory is found where a file is to be programmed. -/
def FlashFound (A : Adapter σ) (inv : Invocation) (l : LoadState) (s : Session σ) : Prop :=
  ∀ mem, inv.Programs l mem →
    ∀ d tr s', (probeFlash A inv mem.base).Returns s d tr s' → d.found.isSome

/-- The words of every block of the image that is loaded are read at their own addresses: no block reaches from
one segment into another one. -/
def ImageInPlace (A : Adapter σ) (inv : Invocation) (l : LoadState) : Prop :=
  ∀ m mem, inv.load = some m → loaded m l = .ok mem → mem.BlocksInPlace A

/-- Nothing is to be read back of an image without contents. -/
theorem readBack_of_empty (h : mem.len ≤ 0) : ReadBack A inv fuel mem tr := by
  intro o ho
  omega

/-- Only what is programmed needs flash memory. -/
theorem flashFound_of_not_programs (h : ∀ mem, ¬inv.Programs l mem) : FlashFound A inv l s :=
  fun mem hprograms => absurd hprograms (h mem)

/-- What is programmed is the image that was loaded. -/
theorem Invocation.Programs.unique {mem mem' : MemoryImage} {m : Load Int}
    (hload : inv.load = some m) (hloaded : loaded m l = .ok mem) (h : inv.Programs l mem') :
    mem' = mem := by
  obtain ⟨m', hload', hloaded', -⟩ := h
  obtain rfl : m = m' := Option.some.inj (hload.symm.trans hload')
  exact Except.ok.inj (hloaded'.symm.trans hloaded)

/-- The outcome of the only look for flash memory decides whether it is found. -/
theorem flashFound_iff {d : Detection} {tr₁ : List ControlEvent} {s₁ : Session σ}
    (hprograms : inv.Programs l mem) (h : (probeFlash A inv mem.base).Returns s d tr₁ s₁) :
    FlashFound A inv l s ↔ d.found.isSome := by
  constructor
  · exact fun hfound => hfound mem hprograms d tr₁ s₁ h
  · intro hsome mem' hprograms' d' tr' s' h'
    obtain ⟨m, hload, hloaded, -⟩ := hprograms
    obtain rfl := Invocation.Programs.unique hload hloaded hprograms'
    obtain ⟨rfl, -, -⟩ := h.unique h'
    exact hsome

/-- A file that is written is read back. -/
theorem programFile_write {mem' : MemoryImage} (hmode : inv.memoryWriteMode = true)
    (h : (programFile A inv (.ok mem') fuel).Returns s mem tr s') :
    mem = mem' ∧ (mem.BlocksInPlace A → ReadBack A inv fuel mem tr) := by
  obtain ⟨t', tr₁, s₁, _, h₁, h', rfl⟩ := returns_bind_iff.mp h
  obtain ⟨_, tr₂, s₂, tr₃, hquit, h₃, rfl⟩ := returns_bind_iff.mp h'
  obtain ⟨rfl, rfl, rfl⟩ := returns_pure_iff.mp h₃
  rw [hmode, if_pos rfl] at h₁
  refine ⟨rfl, fun hplace => ?_⟩
  rw [List.append_nil]
  have hreads := doWrite_reads hplace h₁
  have hstore : inv.storeBlock A t' mem fuel = writeBlock A t' mem := by rw [Invocation.storeBlock, hmode, if_pos rfl]
  rw [← hstore] at hreads
  exact hreads.readBack hquit

/-- A file that is programmed is read back where flash memory is found. Elsewhere the program
looks for it and quits. -/
theorem programFile_program {mem' : MemoryImage} (hmode : inv.memoryWriteMode = false)
    (h : (programFile A inv (.ok mem') fuel).Returns s mem tr s') :
    mem = mem' ∧ ∃ d tr₁ s₁, (probeFlash A inv mem.base).Returns s d tr₁ s₁ ∧
      (d.found.isSome → mem.BlocksInPlace A → ReadBack A inv fuel mem tr) ∧
      (d.found = none → ∃ tr₂, (quit A d.target inv.startAddr).Returns s₁ () tr₂ s' ∧
        tr = tr₁ ++ tr₂) := by
  obtain ⟨t', tr₁, s₁, _, h₁, h', rfl⟩ := returns_bind_iff.mp h
  obtain ⟨_, tr₂, s₂, tr₃, hquit, h₃, rfl⟩ := returns_bind_iff.mp h'
  obtain ⟨rfl, rfl, rfl⟩ := returns_pure_iff.mp h₃
  rw [hmode, if_neg Bool.false_ne_true] at h₁
  obtain ⟨d, tr₀, s₀, hprobe, rfl, hreads, hnothing⟩ := doProgram_reads h₁
  rw [List.append_nil]
  have hstore : inv.storeBlock A d.target mem fuel = programBlock A d.target mem fuel := by
    rw [Invocation.storeBlock, hmode, if_neg Bool.false_ne_true]
  rw [← hstore] at hreads
  refine ⟨rfl, d, tr₀, s₀, hprobe, fun hsome hplace => (hreads hsome hplace).readBack hquit, fun hnone => ?_⟩
  obtain ⟨rfl, rfl⟩ := hnothing hnone
  exact ⟨tr₂, hquit, rfl⟩

/-- An address to erase is no file: nothing is loaded. -/
theorem mcprog_erase (hload : inv.load = none)
    (h : (mcprog A inv l fuel).Returns s mem tr s') : mem.len = 0 := by
  simp only [mcprog, hload] at h
  obtain ⟨t', tr₁, s₁, _, -, h', rfl⟩ := returns_bind_iff.mp h
  obtain ⟨_, tr₂, s₂, tr₃, -, h₃, rfl⟩ := returns_bind_iff.mp h'
  obtain ⟨rfl, -, -⟩ := returns_pure_iff.mp h₃
  rfl

/-- A run with the exit status 0 has read the image back if flash memory is found where it is to be
programmed, and if no block of the image reaches from one segment into another one. Where no flash memory is found
the run has opened the device, looked for it and quit. -/
theorem mcprog_readBack (h : (mcprog A inv l fuel).Returns s mem tr s') :
    (FlashFound A inv l s → ImageInPlace A inv l → ReadBack A inv fuel mem tr) ∧
    (¬FlashFound A inv l s → inv.Programs l mem ∧ ∃ d tr₁ s₁ tr₂,
      (probeFlash A inv mem.base).Returns s d tr₁ s₁ ∧ d.found = none ∧
      (quit A d.target inv.startAddr).Returns s₁ () tr₂ s' ∧ tr = tr₁ ++ tr₂) := by
  -- Where nothing is programmed flash memory need not be found.
  have hread (hback : ImageInPlace A inv l → ReadBack A inv fuel mem tr) (hnot : ∀ mem, ¬inv.Programs l mem) :
      (FlashFound A inv l s → ImageInPlace A inv l → ReadBack A inv fuel mem tr) ∧
      (¬FlashFound A inv l s → inv.Programs l mem ∧ ∃ d tr₁ s₁ tr₂,
        (probeFlash A inv mem.base).Returns s d tr₁ s₁ ∧ d.found = none ∧
        (quit A d.target inv.startAddr).Returns s₁ () tr₂ s' ∧ tr = tr₁ ++ tr₂) :=
    ⟨fun _ => hback, fun hnone => absurd (flashFound_of_not_programs hnot) hnone⟩
  cases hload : inv.load with
  | none =>
    refine hread (fun _ => readBack_of_empty (mcprog_erase hload h).le) ?_
    rintro mem' ⟨m, hsome, -⟩
    rw [hload] at hsome
    cases hsome
  | some m =>
    simp only [mcprog, hload] at h
    cases hloaded : loaded m l with
    | error e =>
      rw [hloaded] at h
      exact absurd h not_returns_stop
    | ok mem' =>
      rw [hloaded] at h
      cases hmode : inv.memoryWriteMode with
      | true =>
        obtain ⟨rfl, hback⟩ := programFile_write hmode h
        refine hread (fun hplace => hback (hplace m mem hload hloaded)) ?_
        rintro mem' ⟨m', -, -, hfalse, -⟩
        rw [hmode] at hfalse
        cases hfalse
      | false =>
        obtain ⟨rfl, d, tr₁, s₁, hprobe, hback, hquit⟩ := programFile_program hmode h
        by_cases hlen : 0 < mem.len
        · have hprograms : inv.Programs l mem := ⟨m, hload, hloaded, hmode, hlen⟩
          have hiff := flashFound_iff hprograms hprobe
          refine ⟨fun hfound hplace => hback (hiff.mp hfound) (hplace m mem hload hloaded), fun hnone => ⟨hprograms, ?_⟩⟩
          have hd : d.found = none := by simpa using mt hiff.mpr hnone
          obtain ⟨tr₂, h₂, htr⟩ := hquit hd
          exact ⟨d, tr₁, s₁, tr₂, hprobe, hd, h₂, htr⟩
        · refine hread (fun _ => readBack_of_empty (by omega)) ?_
          rintro mem' hprograms
          obtain rfl := Invocation.Programs.unique hload hloaded hprograms
          obtain ⟨_, -, -, -, hpos⟩ := hprograms
          exact hlen hpos

end Runs

/-- A file of four bytes, for a board with one region of flash memory. -/
def fourBytes (file : List Byte) : Invocation where
  eraseMode := 0
  verifyOnly := false
  memoryWriteMode := false
  startAddr := defaultAddr
  file := file
  fileNumber := 0
  address := some 0x1FC00000
  settings := [.flash 0x1FC00000 0x1FFFFFFF]
  codes := ⟨0, 0⟩

/-- No file has been read yet. -/
def emptyLoad : LoadState := ⟨fun _ => 0, 0, fun _ => 0, fun _ => 0, 0⟩

/-- The address that is given is the base of the image. -/
theorem base_fourBytes {file : List Byte} {mem : MemoryImage}
    (h : (fourBytes file).Programs emptyLoad mem) : mem.base = 0x1FC00000 := by
  obtain ⟨m, hload, hloaded, -⟩ := h
  obtain rfl : readBinAt 0x1FC00000 file = m := Option.some.inj hload
  obtain rfl := Except.ok.inj hloaded
  rfl

/-- The one block of the file is in one segment. -/
theorem imageInPlace_fourBytes (A : Adapter σ) {b₀ b₁ b₂ b₃ : Byte} :
    ImageInPlace A (fourBytes [b₀, b₁, b₂, b₃]) emptyLoad := by
  intro m mem hload hloaded
  obtain rfl : readBinAt 0x1FC00000 [b₀, b₁, b₂, b₃] = m := Option.some.inj hload
  have htake : List.take memorySize [b₀, b₁, b₂, b₃] = [b₀, b₁, b₂, b₃] := List.take_of_length_le (show 4 ≤ memorySize by decide)
  obtain ⟨hbase, hlen⟩ : mem.base = 0x1FC00000 ∧ mem.len = 4 := by
    obtain rfl := Except.ok.inj hloaded
    exact ⟨rfl, congrArg (fun bytes => (bytes.length : Int)) htake⟩
  have hplace : ∀ fast, InPlace fast (0x1FC00000 + BitVec.ofNat 32 (blockSz * 0)) (BitVec.ofNat 32 ((4 + 3) / 4)) := by
    decide
  intro k hk
  rw [hlen] at hk ⊢
  rw [MemoryImage.BlockInPlace, hbase, List.mem_singleton.mp hk]
  exact hplace A.readBlock.isSome

/-- Every load answers the id of a chip, and the file consists of that word. -/
theorem mcprog_readBack_found :
    ∃ mem tr s', (mcprog (scripted mc12Id 0x225b225b) (fourBytes [0x5b, 0x22, 0x5b, 0x22]) emptyLoad
      100).Returns ⟨0, []⟩ mem tr s' ∧ mem.len = 4 ∧
        ReadBack (scripted mc12Id 0x225b225b) (fourBytes [0x5b, 0x22, 0x5b, 0x22]) 100 mem tr := by
  have hprobe : ((probeFlash (scripted mc12Id 0x225b225b) (fourBytes [0x5b, 0x22, 0x5b, 0x22])
      0x1FC00000 ⟨0, []⟩).result.toOption.map fun d => d.found.isSome) = some true := by
    decide +kernel
  obtain ⟨d, tr₁, s₁, hd, hsome⟩ := exists_returns hprobe
  have hfound : FlashFound (scripted mc12Id 0x225b225b) (fourBytes [0x5b, 0x22, 0x5b, 0x22])
      emptyLoad ⟨0, []⟩ := by
    intro mem hprograms d' tr' s' h'
    rw [base_fourBytes hprograms] at h'
    obtain ⟨rfl, -, -⟩ := hd.unique h'
    exact hsome
  have hrun : ((mcprog (scripted mc12Id 0x225b225b) (fourBytes [0x5b, 0x22, 0x5b, 0x22]) emptyLoad
      100 ⟨0, []⟩).result.toOption.map MemoryImage.len) = some 4 := by decide +kernel
  obtain ⟨mem, tr, s', h, hlen⟩ := exists_returns hrun
  exact ⟨mem, tr, s', h, hlen, (mcprog_readBack h).1 hfound (imageInPlace_fourBytes _)⟩

/-- What is read in the steps with which a run ends is loaded in the run. -/
theorem EndsWith.showsLoad {A : Adapter σ} {inv : Invocation} {fuel : Nat} {mem : MemoryImage}
    {tr : List ControlEvent} {steps : List (LoopStep × List Call)} {offset : Nat} {word : Word}
    (h : EndsWith A inv fuel mem tr steps) (hreads : ReadsLast mem steps offset word) :
    ShowsLoad (callsOf tr) (physical (mem.base + BitVec.ofNat 32 offset), word) := by
  obtain ⟨t, opening, closing, _, _, _, rfl, -, -⟩ := h
  obtain ⟨before, x, after, rfl, -, ⟨pre, part, post, obs, htr, hshows, hmem⟩, -⟩ := hreads
  refine ⟨callsOf opening ++ stepCalls before ++ pre, part, post ++ stepCalls after ++ callsOf closing, obs, ?_,
    hshows, hmem⟩
  rw [callsOf_append, callsOf_append, callsOf_map_call, stepCalls_append]
  simp only [stepCalls, List.flatMap_cons, htr, List.append_assoc]

/-- No load answers the id of a chip: nothing is programmed, and the program ends as usual. -/
theorem not_readBack_of_no_flash : ¬∀ mem tr s',
    (mcprog (scripted mc12Id 0) (fourBytes [1, 2, 3, 4]) emptyLoad 100).Returns ⟨0, []⟩ mem tr s' →
      ReadBack (scripted mc12Id 0) (fourBytes [1, 2, 3, 4]) 100 mem tr := by
  intro hall
  have hrun : ((mcprog (scripted mc12Id 0) (fourBytes [1, 2, 3, 4]) emptyLoad
      100 ⟨0, []⟩).result.toOption.map fun mem => (mem.len, mem.data 0)) = some (4, 1) := by
    decide +kernel
  have hanswers : ((callsOf (mcprog (scripted mc12Id 0) (fourBytes [1, 2, 3, 4]) emptyLoad
      100 ⟨0, []⟩).trace).flatMap Call.answers).all fun w => (wordBytes w)[0]? ≠ some 1 := by
    decide +kernel
  obtain ⟨mem, tr, s', h, hmem⟩ := exists_returns hrun
  obtain ⟨hlen, hdata⟩ := Prod.mk.inj hmem
  have hback := hall mem tr s' h
  rw [Returns] at h
  rw [h, List.all_eq_true] at hanswers
  obtain ⟨steps, word, hends, hreads, hbyte⟩ := hback 0 (by rw [hlen]; decide)
  rw [hdata] at hbyte
  simpa [hbyte] using hanswers word (hends.showsLoad hreads).mem_answers

/-- `mcprog -w file 9ffffffc`, for a file of two words. -/
def writeAcross : Invocation where
  eraseMode := -1
  verifyOnly := false
  memoryWriteMode := true
  startAddr := defaultAddr
  file := [0x5b, 0x22, 0x5b, 0x22, 0x5b, 0x22, 0x5b, 0x22]
  fileNumber := 0
  address := some 0x9FFFFFFC
  settings := []
  codes := ⟨0, 0⟩

/-- The second word belongs to the next segment, where its address is that of the first word of the memory: nothing
is loaded from there, and the program ends as usual. -/
theorem not_readBack_across_segments : ¬∀ mem tr s',
    (mcprog (scripted mc12Id 0x225b225b) writeAcross emptyLoad 100).Returns ⟨0, []⟩ mem tr s' →
      ReadBack (scripted mc12Id 0x225b225b) writeAcross 100 mem tr := by
  intro hall
  have hrun : ((mcprog (scripted mc12Id 0x225b225b) writeAcross emptyLoad
      100 ⟨0, []⟩).result.toOption.map fun mem => (mem.len, mem.base)) = some (8, 0x9FFFFFFC) := by
    decide +kernel
  have hplaces : (0 : Word) ∉ (callsOf (mcprog (scripted mc12Id 0x225b225b) writeAcross emptyLoad
      100 ⟨0, []⟩).trace).flatMap Call.places := by
    decide +kernel
  obtain ⟨mem, tr, s', h, hmem⟩ := exists_returns hrun
  obtain ⟨hlen, hbase⟩ := Prod.mk.inj hmem
  have hback := hall mem tr s' h
  rw [Returns] at h
  obtain ⟨steps, word, hends, hreads, -⟩ := hback 4 (by rw [hlen]; decide)
  have hplace := (hends.showsLoad hreads).mem_places
  have hzero : physical (mem.base + BitVec.ofNat 32 (4 * (4 / 4))) = 0 := by
    rw [hbase]
    decide
  rw [hzero] at hplace
  rw [h] at hplaces
  exact hplaces hplace

end Mcprog
