import Mcprog.Target.BlockAccess
import Mcprog.Target.EraseAddress
import Mcprog.Target.WriteBuffer

/-!
# The buffers of a block

What `target_program_block32_micron` makes of the write buffer, with each of its two paths: the
words of the block cut into buffers of at most 16, where the setup, the count, the words and the
confirmation of each of them go, and what is left out when the chips do not get ready.
-/

namespace Mcprog

open Interaction

variable {σ : Type} {A : Adapter σ} {t : Target}

/-- The block of the chip that an address belongs to. -/
def Target.sectorStart (t : Target) (addr : Word) : Word := addr &&& ~~~(t.sectorSize - 1)

/-- Where a word of the block goes: the method of the adapter takes the address as it is. -/
def wordPlace (fast : Bool) (addr : Word) : Word := if fast then addr else physical addr

/-- Where the count and the confirmation of a buffer go. The method of the adapter finds the place
by the address of the first word, and the stores by the start of the sector. -/
def bufferPlace (fast : Bool) (sectorAddr addr : Word) : Word :=
  if fast then addr &&& 0xFFC00000 else physical sectorAddr

/-- Words at consecutive addresses, where they go. -/
def placedWords (fast : Bool) (addr : Word) (words : List Word) : List (Word × Word) :=
  (consecutive addr words).map fun a => (wordPlace fast a.1, a.2)

theorem length_placedWords (fast : Bool) (addr : Word) (words : List Word) :
    (placedWords fast addr words).length = words.length := by
  rw [placedWords, List.length_map, consecutive_eq_zip, List.length_zip, length_wordSteps, min_self]

theorem placedWords_append (fast : Bool) (addr : Word) (words words' : List Word) :
    placedWords fast addr (words ++ words') = placedWords fast addr words ++
      placedWords fast (addr + BitVec.ofNat 32 words.length * 4) words' := by
  rw [placedWords, consecutive_append, List.map_append]
  rfl

/-- The command is stored before each look at the status. -/
theorem pollCommand_exhibits (addr cmd mask : Word) (timeout : Nat) :
    (pollCommand A t addr cmd mask timeout).Exhibits bus fun _ obs =>
      CommandPolls (physical addr) cmd obs := by
  induction timeout with
  | zero =>
    apply Program.Exhibits.bind (targetWriteWord_stores addr cmd)
    rintro _ o₁ rfl
    apply Program.Exhibits.bind (targetReadWord_loads addr)
    rintro val o₂ rfl
    exact Program.exhibits_pure (commandPolls_once _ _ _)
  | succ timeout ih =>
    apply Program.Exhibits.bind (targetWriteWord_stores addr cmd)
    rintro _ o₁ rfl
    apply Program.Exhibits.bind (targetReadWord_loads addr)
    rintro val o₂ rfl
    split
    · exact Program.exhibits_pure (commandPolls_once _ _ _)
    · apply ih.mono
      intro _ obs h
      exact h.again

/-- The words of a buffer are stored one by one, by induction on them. -/
theorem writeWords_stores (words : List Word) (addr : Word) :
    Stores (writeWords A t words addr) (placedWords false addr words) := by
  induction words generalizing addr with
  | nil => exact stores_pure
  | cons word words ih => exact (targetWriteWord_stores addr word).seq (ih (addr + 4))

/-- The confirmation of the method has the command in the two low bytes only. -/
def confirmWord (fast : Bool) : Word := if fast then 0x00d000d0 else 0xd0d0d0d0

/-- The word at the end is the command that confirms, with either way of storing. -/
theorem confirmWord_spec (fast : Bool) : chipCommand (confirmWord fast) = confirmCommand := by
  cases fast <;> decide

/-- A buffer is its count, its words and the confirmation. -/
theorem programBuffer_stores {fast : Bool} (hfast : A.programBlock32Micron.isSome = fast)
    (sectorAddr addr : Word) (n : Nat) (data : Nat → Word) :
    Stores (programBuffer A t sectorAddr addr n data)
      ((bufferPlace fast sectorAddr addr, countWord n) ::
        (placedWords fast addr (wordsOf (n + 1) data) ++
          [(bufferPlace fast sectorAddr addr, confirmWord fast)])) := by
  subst hfast
  unfold programBuffer
  cases A.programBlock32Micron with
  | some program =>
    apply Stores.of_eq
    · apply extension_stores
      intro k
      rw [busStep, packetWrites_usbProgramBlock32Micron (Or.inl rfl), length_wordsOf]
    · rw [placedWords]
      simp [wordPlace, bufferPlace, confirmWord, countWord]
  | none =>
    exact (targetWriteWord_stores _ _).seq ((writeWords_stores _ _).seq (targetWriteWord_stores _ _))

/-- A buffer that holds these words. -/
structure Filled (fast : Bool) (sectorAddr addr : Word) (words : List Word) (c : BufferCycle) :
    Prop where
  polled : physical sectorAddr ∈ c.commands
  filled : bufferPlace fast sectorAddr addr ∈ c.commands
  only : ∀ a ∈ c.commands, a = physical sectorAddr ∨ a = bufferPlace fast sectorAddr addr
  count : c.count = countWord (words.length - 1)
  data : c.data = placedWords fast addr words

/-- More status loads of the sector leave a buffer what it is. -/
theorem Filled.access {fast : Bool} {sectorAddr addr : Word} {words : List Word} {c : BufferCycle}
    (h : Filled fast sectorAddr addr words c) {addrs : List Word}
    (haddrs : ∀ a ∈ addrs, a = physical sectorAddr) :
    Filled fast sectorAddr addr words (c.access addrs) where
  polled := List.mem_append_left _ h.polled
  filled := List.mem_append_left _ h.filled
  only := by
    intro a ha
    rcases List.mem_append.mp ha with ha | ha
    · exact h.only a ha
    · exact .inl (haddrs a ha)
  count := h.count
  data := h.data

/-- The buffers of a block, all of them or those before the chips were not ready. Only the last one
has less than 16 words. -/
inductive Cycles (fast : Bool) (sectorAddr : Word) :
    Bool → Word → List Word → List BufferCycle → Prop
  | done (addr : Word) : Cycles fast sectorAddr true addr [] []
  | stopped (addr : Word) (words : List Word) : Cycles fast sectorAddr false addr words []
  | next {ok : Bool} {addr : Word} {words rest : List Word} {c : BufferCycle} {cs : List BufferCycle}
      (pos : 0 < words.length) (le : words.length ≤ 16) (full : rest = [] ∨ words.length = 16)
      (filled : Filled fast sectorAddr addr words c)
      (others : Cycles fast sectorAddr ok (addr + BitVec.ofNat 32 words.length * 4) rest cs) :
      Cycles fast sectorAddr ok addr (words ++ rest) (c :: cs)

/-- More status loads after the last buffer. -/
theorem Cycles.access {fast : Bool} {sectorAddr : Word} {ok : Bool} {addr : Word} {words : List Word}
    {cs : List BufferCycle} {c : BufferCycle} (h : Cycles fast sectorAddr ok addr words (cs ++ [c]))
    {addrs : List Word} (haddrs : ∀ a ∈ addrs, a = physical sectorAddr) :
    Cycles fast sectorAddr ok addr words (cs ++ [c.access addrs]) := by
  induction cs generalizing addr words with
  | nil =>
    cases h with
    | next pos le full filled others => exact .next pos le full (filled.access haddrs) others
  | cons c' cs ih =>
    cases h with
    | next pos le full filled others => exact .next pos le full filled (ih others)

/-- The buffers that come of a loop over a block: those that the chips have programmed, and with
what is pending all of them. Without an answer the last setup is under way. -/
def Buffers (fast : Bool) (sectorAddr addr : Word) (words : List Word) (ok : Bool)
    (obs : List BusEvent) : Prop :=
  ∀ k : BufferState, k.Accepting → ∃ k' out cycles, writeBuffer.observe k obs = (k', out) ∧
    k.pending ++ cycles.map .cycle = out ++ k'.pending ∧
    Cycles fast sectorAddr ok addr words cycles ∧
    (if ok then k'.Accepting else ∃ commands, k' = .setup commands)

theorem buffers_nil (fast : Bool) (sectorAddr addr : Word) : Buffers fast sectorAddr addr [] true [] := by
  intro k hk
  exact ⟨k, [], [], rfl, List.append_nil _, .done addr, hk⟩

/-- The chip has not taken the command for the next buffer. -/
theorem buffers_stopped (fast : Bool) {sectorAddr addr : Word} (words : List Word) {obs : List BusEvent}
    (h : CommandPolls (physical sectorAddr) 0xe8e8e8e8 obs) :
    Buffers fast sectorAddr addr words false obs := by
  intro k hk
  obtain ⟨addrs, -, -, hobs⟩ := h.observe_setup hk
  exact ⟨_, _, [], hobs, rfl, .stopped addr words, addrs, rfl⟩

/-- One more buffer in front of the others. -/
theorem Buffers.next {fast : Bool} {sectorAddr addr : Word} {words rest : List Word} {ok : Bool}
    {polls obs : List BusEvent} (hpolls : CommandPolls (physical sectorAddr) 0xe8e8e8e8 polls)
    {n : Nat} (hwords : words.length = n + 1) (hn : n < 16) (full : rest = [] ∨ words.length = 16)
    (h : Buffers fast sectorAddr (addr + BitVec.ofNat 32 words.length * 4) rest ok obs) :
    Buffers fast sectorAddr addr (words ++ rest) ok (polls ++
      (stores ((bufferPlace fast sectorAddr addr, countWord n) ::
        (placedWords fast addr words ++ [(bufferPlace fast sectorAddr addr, confirmWord fast)])) ++
        obs)) := by
  intro k hk
  obtain ⟨addrs, hmem, hall, hsetup⟩ := hpolls.observe_setup hk
  have hfill := observe_fill addrs hn (bufferPlace fast sectorAddr addr)
    ((length_placedWords fast addr words).trans hwords) (confirmWord_spec fast)
  obtain ⟨k', out, cycles, hobs, hpending, hcycles, hk'⟩ := h _ (.inr ⟨_, rfl⟩)
  have hfilled : Filled fast sectorAddr addr words ⟨addrs ++ [bufferPlace fast sectorAddr addr,
      bufferPlace fast sectorAddr addr], countWord n, placedWords fast addr words⟩ := by
    refine ⟨List.mem_append_left _ hmem, by simp, ?_, by rw [hwords]; rfl, rfl⟩
    intro a ha
    rcases List.mem_append.mp ha with ha | ha
    · exact .inl (hall a ha)
    · exact .inr ((List.mem_pair.mp ha).elim id id)
  refine ⟨k', k.pending ++ out, _ :: cycles, ?_, ?_,
    .next (by omega) (by omega) full hfilled hcycles, hk'⟩
  · rw [Observer.observe_append, hsetup, Observer.observe_append, hfill, hobs]
    rfl
  · rw [List.append_assoc, ← hpending]
    rfl

/-- The length of the next buffer without one. -/
def lastIndex (nwords : Word) : Nat := if nwords < 16 then (nwords - 1).toNat else 15

/-- A buffer has up to sixteen words, and the rest is left. -/
theorem lastIndex_spec {nwords : Word} (h : nwords > 0) : lastIndex nwords < 16 ∧
    nwords.toNat = lastIndex nwords + 1 + (nwords - BitVec.ofNat 32 (lastIndex nwords + 1)).toNat ∧
    ((nwords - BitVec.ofNat 32 (lastIndex nwords + 1)).toNat = 0 ∨ lastIndex nwords + 1 = 16) := by
  have hone : (1 : Word).toNat = 1 := rfl
  have hpos : 0 < nwords.toNat := h
  have hlt := nwords.isLt
  rw [BitVec.toNat_sub, BitVec.toNat_ofNat]
  unfold lastIndex
  split
  · rename_i hless
    have hless' : nwords.toNat < 16 := hless
    rw [BitVec.toNat_sub_of_le (BitVec.le_def.mpr (by rw [hone]; exact hpos)), hone]
    omega
  · rename_i hle
    have hle' : ¬nwords.toNat < 16 := hle
    omega

/-- The loop over the buffers of a block. -/
theorem programBuffers_exhibits {fast : Bool} (hfast : A.programBlock32Micron.isSome = fast)
    (sectorAddr : Word) (fuel : Nat) (nwords addr : Word) (data : Nat → Word) :
    (programBuffers A t sectorAddr fuel nwords addr data).Exhibits bus
      (Buffers fast sectorAddr addr (wordsOf nwords.toNat data)) := by
  induction fuel generalizing nwords addr data with
  | zero =>
    unfold programBuffers
    split
    · exact Program.exhibits_stop
    · rename_i h
      obtain rfl : nwords = 0 := by simpa using h
      exact Program.exhibits_pure (buffers_nil _ _ _)
  | succ fuel ih =>
    unfold programBuffers
    split
    · rename_i h
      obtain ⟨hlt, hsum, hfull⟩ := lastIndex_spec h
      apply (pollCommand_exhibits _ _ _ _).bind
      intro ok o₁ hpolls
      cases ok with
      | false => exact Program.exhibits_pure (by
          rw [List.append_nil]
          exact buffers_stopped fast _ hpolls)
      | true =>
        apply Program.Exhibits.bind (programBuffer_stores hfast sectorAddr addr (lastIndex nwords) data)
        rintro _ o₂ rfl
        apply (ih _ _ _).mono
        intro ok o₃ h₃
        rw [hsum, wordsOf_add]
        apply Buffers.next hpolls (length_wordsOf _ _) hlt
        · rw [length_wordsOf]
          apply hfull.imp_left
          intro hzero
          rw [hzero]
          rfl
        · rw [length_wordsOf]
          exact h₃
    · rename_i h
      obtain rfl : nwords = 0 := by simpa using h
      exact Program.exhibits_pure (buffers_nil _ _ _)

/-- What comes of a block: its buffers, and the one that was given up. -/
def BlockBuffers (fast : Bool) (sectorAddr addr : Word) (words : List Word) (ok : Bool)
    (obs : List BusEvent) : Prop :=
  ∃ cycles, Cycles fast sectorAddr ok addr words cycles ∧ writeBuffer.observe .ready obs =
    (.ready, cycles.map .cycle ++ if ok then [] else [.abort])

/-- All buffers of a block, with the last one pending or not. -/
def AllBuffers (fast : Bool) (sectorAddr addr : Word) (words : List Word) (obs : List BusEvent) :
    Prop :=
  ∃ k out cycles, writeBuffer.observe .ready obs = (k, out) ∧ BufferState.Accepting k ∧
    cycles.map .cycle = out ++ k.pending ∧ Cycles fast sectorAddr true addr words cycles

section End

variable {fast : Bool} {sectorAddr addr : Word} {words : List Word} {obs obs' : List BusEvent}

/-- Where the loop succeeds, all words are in buffers. -/
theorem Buffers.all (h : Buffers fast sectorAddr addr words true obs) :
    AllBuffers fast sectorAddr addr words obs := by
  obtain ⟨k', out, cycles, hobs, hpending, hcycles, hk'⟩ := h .ready (.inl rfl)
  exact ⟨k', out, cycles, hobs, hk', hpending, hcycles⟩

/-- Status loads after the loop are those of the last buffer. -/
theorem AllBuffers.polls (h : AllBuffers fast sectorAddr addr words obs)
    (hpolls : Polls (physical sectorAddr) obs') :
    AllBuffers fast sectorAddr addr words (obs ++ obs') := by
  obtain ⟨k, out, cycles, hobs, hk, hpending, hcycles⟩ := h
  rcases hk with rfl | ⟨c, rfl⟩
  · refine ⟨.ready, out, cycles, ?_, .inl rfl, hpending, hcycles⟩
    rw [Observer.observe_append, hobs, hpolls.observe_ready, List.append_nil]
  · obtain ⟨addrs, haddrs, hbusy⟩ := hpolls.observe_busy c
    obtain ⟨cs, cs', rfl, hcs, hlast⟩ := List.map_eq_append_iff.mp hpending
    obtain ⟨c', rfl⟩ : ∃ c', cs' = [c'] := by
      rw [← List.length_eq_one_iff, ← List.length_map, hlast]
      rfl
    obtain rfl : c' = c := by simpa [BufferState.pending] using hlast
    refine ⟨.busy (c'.access addrs), out, cs ++ [c'.access addrs], ?_, .inr ⟨_, rfl⟩, ?_,
      hcycles.access haddrs⟩
    · rw [Observer.observe_append, hobs, hbusy, List.append_nil]
    · rw [List.map_append, hcs]
      rfl

/-- Any command but a setup ends the last buffer. -/
theorem AllBuffers.command (h : AllBuffers fast sectorAddr addr words obs) {place cmd : Word}
    (hcmd : chipCommand cmd ≠ setupCommand) (hpolls : CommandPolls place cmd obs') :
    AllBuffers fast sectorAddr addr words (obs ++ obs') := by
  obtain ⟨k, out, cycles, hobs, hk, hpending, hcycles⟩ := h
  refine ⟨.ready, out ++ k.pending, cycles, ?_, .inl rfl, ?_, hcycles⟩
  · rw [Observer.observe_append, hobs, hpolls.observe_other hcmd hk]
  · rw [hpending]
    exact (List.append_nil _).symm

/-- The store that leaves the status mode. -/
theorem AllBuffers.reset (h : AllBuffers fast sectorAddr addr words obs) (place : Word) :
    BlockBuffers fast sectorAddr addr words true (obs ++ [.write place 0xffffffff]) := by
  have hreset : CommandPolls place 0xffffffff [.write place 0xffffffff] := ⟨[], rfl, by simp⟩
  obtain ⟨k, out, cycles, hobs, hk, hpending, hcycles⟩ := h
  refine ⟨cycles, hcycles, ?_⟩
  rw [Observer.observe_append, hobs, hreset.observe_other (by decide) hk, hpending]
  exact congrArg _ (List.append_nil _).symm

/-- The same store gives up a setup. -/
theorem Buffers.reset (h : Buffers fast sectorAddr addr words false obs) (place : Word) :
    BlockBuffers fast sectorAddr addr words false (obs ++ [.write place 0xffffffff]) := by
  obtain ⟨k', out, cycles, hobs, hpending, hcycles, commands, rfl⟩ := h .ready (.inl rfl)
  have hout : cycles.map .cycle = out := hpending.trans (List.append_nil _)
  have hstep : writeBuffer.step (.setup commands) (.write place 0xffffffff) =
      (.ready, [.abort]) := by
    rw [writeBuffer_step, bufferStep, if_neg (by decide), if_pos (by decide)]
  refine ⟨cycles, hcycles, ?_⟩
  rw [Observer.observe_append, hobs, Observer.observe_cons, hstep, hout]
  rfl

end End

/-- The tail of the routine: status loads, the status command and the store that leaves the mode. -/
def finishBlock (A : Adapter σ) (t : Target) (sectorAddr : Word) : Action σ Unit := do
  if ← pollStatus A sectorAddr (statusMask t) 10000 then
    let _ ← pollCommand A t sectorAddr 0x70707070 (statusMask t) 10000
  targetWriteWord A t sectorAddr 0xffffffff

/-- The routine is the loop over its buffers and the tail. -/
theorem targetProgramBlock32Micron_eq (addr nwords : Word) (data : Nat → Word) :
    targetProgramBlock32Micron A t addr nwords data = (do
      if ← programBuffers A t (t.sectorStart addr) nwords.toNat nwords addr data then
        finishBlock A t (t.sectorStart addr)
      else
        targetWriteWord A t (t.sectorStart addr) 0xffffffff) := by
  apply bind_congr
  intro ok
  cases ok <;> rfl

/-- The chip is set back to reading, and looked at. -/
theorem finishBlock_exhibits {fast : Bool} {sectorAddr addr : Word} {words : List Word}
    {obs : List BusEvent} (h : AllBuffers fast sectorAddr addr words obs) :
    (finishBlock A t sectorAddr).Exhibits bus fun _ obs' =>
      BlockBuffers fast sectorAddr addr words true (obs ++ obs') := by
  apply (pollStatus_exhibits _ _ _).bind
  intro ready o₁ h₁
  have hpolled := h.polls h₁
  split
  · apply (pollCommand_exhibits _ _ _ _).bind
    intro _ o₂ h₂
    have hcommand := hpolled.command (by decide) h₂
    apply Program.Exhibits.mono (targetWriteWord_stores _ _)
    rintro _ o₃ rfl
    rw [← List.append_assoc, ← List.append_assoc]
    exact hcommand.reset _
  · apply Program.Exhibits.mono (targetWriteWord_stores _ _)
    rintro _ o₃ rfl
    rw [← List.append_assoc]
    exact hpolled.reset _

/-- The buffers of a block, whether its setups are answered or not. -/
theorem targetProgramBlock32Micron_exhibits {fast : Bool}
    (hfast : A.programBlock32Micron.isSome = fast) (addr nwords : Word) (data : Nat → Word) :
    (targetProgramBlock32Micron A t addr nwords data).Exhibits bus fun _ obs =>
      ∃ ok, BlockBuffers fast (t.sectorStart addr) addr (wordsOf nwords.toNat data) ok obs := by
  rw [targetProgramBlock32Micron_eq]
  apply (programBuffers_exhibits hfast _ _ _ _ _).bind
  intro ok o₁ h₁
  cases ok with
  | true => exact (finishBlock_exhibits h₁.all).mono fun _ _ h => ⟨true, h⟩
  | false =>
    apply Program.Exhibits.mono (targetWriteWord_stores _ _)
    rintro _ o₂ rfl
    exact ⟨false, h₁.reset _⟩

end Mcprog
