import Mcprog.Adapter.PortMemory
import Mcprog.Target.BlockAccess
import Mcprog.Target.Follows

/-!
# Memory behind the registers

A processor whose registers are in front of a memory is reached as the registers alone are, so the
accesses of `target.c` over a serial adapter are accesses to that memory.
-/

namespace Mcprog

open Interaction Jtag Program

variable {σ τ μ α : Type} {R : σ → τ → Prop} {M : AddressSpace μ}

/-- A register takes what is written to it. -/
def MemoryInterface.put (i : MemoryInterface μ) (reg : Nat) (val : Word) : MemoryInterface μ :=
  if reg = oncdOmar then { i with omar := val }
  else if reg = oncdOmdr then { i with omdr := val }
  else if reg = oncdOscr then { i with oscr := val }
  else i

/-- What a read of a register shows. The memory is always ready. -/
def MemoryInterface.shown (i : MemoryInterface μ) (reg : Nat) : Word :=
  if reg = oncdOscr then i.oscr ||| oscrRdym else i.omdr

/-- An access moves a word where the control register selects the memory. -/
def AddressSpace.access (M : AddressSpace μ) (i : MemoryInterface μ) : MemoryInterface μ :=
  if i.oscr.getLsbD 0 then M.cycle i else i

/-- A port without methods has no method for blocks. -/
theorem memoryPort_readBlock_lacking (μ : Type)
    (h : (none : Option (Word → Word → Extension (MemoryInterface μ) (Nat → Word))).isSome ∨
      (none : Option (Word → List Word → Extension (MemoryInterface μ) Unit)).isSome) : (0 : Word) < 0 := by simp at h

/-- Nor has it one for blocks of flash memory. -/
theorem memoryPort_programBlock_lacking (μ : Type)
    (h : (none : Option (ProgramArgs → Extension (MemoryInterface μ) Unit)).isSome ∨
      (none : Option (ProgramArgs → Extension (MemoryInterface μ) Unit)).isSome) : (0 : Word) < 0 := by simp at h

/-- Nor one for its pages. -/
theorem memoryPort_unprotect_lacking (μ : Type)
    (h : (none : Option (ProgramArgs → Extension (MemoryInterface μ) Unit)).isSome) :
    (none : Option (ProgramArgs → Extension (MemoryInterface μ) Unit)).isSome := h

/-- The registers in front of a memory, by an adapter that has the mandatory methods only. -/
def memoryPort (M : AddressSpace μ) : Adapter (MemoryInterface μ) where
  close i := .ok ((), i)
  getIdcode i := .ok (0, i)
  cpuStopped i := .ok (true, i)
  stopCpu i := .ok ((), i)
  resetCpu i := .ok ((), i)
  oncdWrite val reg _ i := .ok ((), if reg = oncdMem then M.access i else i.put reg val)
  oncdRead reg _ i := .ok (i.shown reg, i)
  blockWords := 0
  programBlockWords := 0
  stepCpu := none
  runCpu := none
  readBlock := none
  writeBlock := none
  writeNwords := none
  programBlock32 := none
  programBlock32Unprotect := none
  programBlock32Protect := none
  programBlock64 := none
  programBlock32Micron := none
  blockWords_pos := memoryPort_readBlock_lacking μ
  programBlockWords_pos := memoryPort_programBlock_lacking μ
  unprotect_of_protect := memoryPort_unprotect_lacking μ

/-- A register other than the one that starts a cycle is written. -/
theorem oncdWrite_memoryPort {reg : Nat} (hreg : reg ≠ oncdMem) (val : Word) (nbits : Nat)
    (s : Session (MemoryInterface μ)) :
    (oncdWrite (memoryPort M) val reg nbits).Reaches s () { s with device := s.device.put reg val } := by
  refine reaches_request ?_
  change Except.ok ((), { s with device := if reg = oncdMem then M.access s.device else s.device.put reg val }) = _
  rw [if_neg hreg]

/-- A cycle of the memory, as the control register asks for it. -/
theorem oncdMem_memoryPort {s : Session (MemoryInterface μ)} (h : s.device.oscr.getLsbD 0 = true) (nbits : Nat) :
    (oncdWrite (memoryPort M) 0 oncdMem nbits).Reaches s () { s with device := M.cycle s.device } := by
  refine reaches_request ?_
  change Except.ok ((), { s with device := M.access s.device }) = _
  rw [AddressSpace.access, if_pos h]

theorem oncdRead_memoryPort (reg nbits : Nat) (s : Session (MemoryInterface μ)) :
    (oncdRead (memoryPort M) reg nbits).Reaches s (s.device.shown reg) s := reaches_request rfl

/-- The loads of a block, while the control register lets the memory be read. -/
theorem memoryPort_readWords (n : Nat) (addr : Word) {s : Session (MemoryInterface μ)}
    (h0 : s.device.oscr.getLsbD 0 = true) (h1 : s.device.oscr.getLsbD 1 = true) :
    ∃ s', (mpsseReadWords (memoryPort M) n addr).Reaches s (M.loadAll (wordSteps n addr) s.device.memory).1 s' ∧
      s'.oscr = s.oscr ∧ s'.device.oscr = s.device.oscr ∧
      s'.device.memory = (M.loadAll (wordSteps n addr) s.device.memory).2 := by
  induction n generalizing addr s with
  | zero => exact ⟨s, reaches_pure _ _, rfl, rfl, rfl⟩
  | succ n ih =>
    have homar := oncdWrite_memoryPort (M := M) (by decide : oncdOmar ≠ oncdMem) addr 32 s
    obtain ⟨s₁, hs₁⟩ : ∃ s₁ : Session (MemoryInterface μ), s₁ = { s with device := s.device.put oncdOmar addr } := ⟨_, rfl⟩
    rw [← hs₁] at homar
    have hcycle : M.cycle s₁.device = { s₁.device with
        omdr := (M.load addr s.device.memory).1, memory := (M.load addr s.device.memory).2 } := by
      rw [hs₁, AddressSpace.cycle]
      exact if_pos h1
    have haccess := oncdMem_memoryPort (M := M) (s := s₁) (by rw [hs₁]; exact h0) 0
    rw [hcycle] at haccess
    obtain ⟨s', hwords, hoscr, hdev, hmem⟩ := ih (addr + 4) (s := { s₁ with device := { s₁.device with
      omdr := (M.load addr s.device.memory).1, memory := (M.load addr s.device.memory).2 } })
      (by rw [hs₁]; exact h0) (by rw [hs₁]; exact h1)
    refine ⟨s', homar.bind (haccess.bind ((oncdRead_memoryPort _ _ _).bind (hwords.bind (reaches_pure _ _)))), ?_, ?_, hmem⟩
    · rw [hoscr, hs₁]
    · rw [hdev, hs₁]
      rfl

/-- The stores of a block, while the control register lets the memory be written. -/
theorem memoryPort_words (args : List (Word × Word)) {s : Session (MemoryInterface μ)}
    (h0 : s.device.oscr.getLsbD 0 = true) (h1 : s.device.oscr.getLsbD 1 = false) :
    ∃ s', (mpsseWords (memoryPort M) args).Reaches s () s' ∧ s'.oscr = s.oscr ∧ s'.device.oscr = s.device.oscr ∧
      s'.device.memory = M.storeAll args s.device.memory := by
  induction args generalizing s with
  | nil => exact ⟨s, reaches_pure _ _, rfl, rfl, rfl⟩
  | cons a args ih =>
    obtain ⟨addr, data⟩ := a
    have homar := oncdWrite_memoryPort (M := M) (by decide : oncdOmar ≠ oncdMem) addr 32 s
    have homdr := oncdWrite_memoryPort (M := M) (by decide : oncdOmdr ≠ oncdMem) data 32
      { s with device := s.device.put oncdOmar addr }
    obtain ⟨s₂, hs₂⟩ : ∃ s₂ : Session (MemoryInterface μ),
      s₂ = { s with device := (s.device.put oncdOmar addr).put oncdOmdr data } := ⟨_, rfl⟩
    have hcycle : M.cycle s₂.device = { s₂.device with memory := M.store addr data s.device.memory } := by
      rw [hs₂, AddressSpace.cycle]
      exact if_neg (Bool.eq_false_iff.mp h1)
    have haccess := oncdMem_memoryPort (M := M) (s := s₂) (by rw [hs₂]; exact h0) 0
    rw [hcycle] at haccess
    rw [hs₂] at haccess
    obtain ⟨s', hwords, hoscr, hdev, hmem⟩ := ih (s := { s₂ with device := { s₂.device with
      memory := M.store addr data s.device.memory } }) (by rw [hs₂]; exact h0) (by rw [hs₂]; exact h1)
    rw [hs₂] at hwords hoscr hdev
    exact ⟨s', homar.bind (homdr.bind (haccess.bind hwords)), hoscr, hdev, hmem⟩

/-- The control register shows that the memory is ready. -/
theorem shown_oscr_agrees (i : MemoryInterface μ) : i.Agrees (i.shown oncdOscr) ∧ i.shown oncdOscr &&& oscrRdym ≠ 0 := by
  have hshown : i.shown oncdOscr = i.oscr ||| oscrRdym := if_pos rfl
  have hready : (i.oscr ||| oscrRdym) &&& oscrRdym = oscrRdym := by
    apply BitVec.eq_of_getLsbD_eq
    intro k hk
    rw [BitVec.getLsbD_and, BitVec.getLsbD_or]
    cases i.oscr.getLsbD k <;> cases oscrRdym.getLsbD k <;> rfl
  rw [hshown, hready]
  exact ⟨⟨by simp [oscrRdym], by simp [oscrRdym]⟩, by decide⟩

theorem memoryPort_ready (i : MemoryInterface μ) : (fun _ : MemoryInterface μ => 0) i < 100 := Nat.zero_lt_succ 99

/-- The registers serve the memory word by word. -/
def memoryPort_serves (M : AddressSpace μ) : Serves (memoryPort M) M where
  view := id
  busy _ := 0
  busy_lt := memoryPort_ready
  write_omar val i := ⟨i.put oncdOmar val, rfl, rfl⟩
  write_omdr val i := ⟨i.put oncdOmdr val, rfl, rfl⟩
  write_oscr val i := ⟨i.put oncdOscr val, rfl, rfl⟩
  write_mem i h := ⟨M.access i, rfl, if_pos h⟩
  read_oscr i := ⟨i.shown oncdOscr, i, rfl, rfl, (shown_oscr_agrees i).1, .inl (shown_oscr_agrees i).2⟩
  read_omdr i := ⟨i, rfl, rfl⟩
  read_block _ h := absurd h (by simp [memoryPort])
  write_block _ h := absurd h (by simp [memoryPort])

/-- A block is read as the words of the memory. -/
theorem memoryPort_readBlock (n addr : Word) {s : Session (MemoryInterface μ)} (hs : s.device.Agrees s.oscr) :
    ∃ data s', method (mpsseReadBlock (memoryPort M) n addr) s = .ok (data, s') ∧ s'.device.Agrees s'.oscr ∧
      (wordsOf n.toNat data, s'.device.memory) = M.loadAll (wordSteps n.toNat addr) s.device.memory := by
  obtain ⟨s₁, hallow, hs₁, hallows⟩ := allowMemory_allowing (S := memoryPort_serves M) (m := s.device.memory)
    allows_load ⟨hs, rfl⟩
  have hdevice := (show (memoryPort_serves M).Allowing true s.device.memory s₁ from ⟨hs₁, hallows⟩).device
  obtain ⟨s', hwords, hoscr, hdev, hmem⟩ := memoryPort_readWords (M := M) n.toNat addr hdevice.1 hdevice.2
  have hmem₁ : s₁.device.memory = s.device.memory := hs₁.memory
  rw [hmem₁] at hwords hmem
  have hlen : (M.loadAll (wordSteps n.toNat addr) s.device.memory).1.length = n.toNat := by
    rw [AddressSpace.length_loadAll, length_wordSteps]
  have hdata := wordsOf_getD (M.loadAll (wordSteps n.toNat addr) s.device.memory).1
  rw [hlen] at hdata
  refine ⟨_, s', method_of_reaches (hallow.bind (hwords.bind (reaches_pure _ _))), ?_, Prod.ext hdata hmem⟩
  rw [MemoryInterface.Agrees, hdev, hoscr]
  exact hs₁.agrees

/-- Words are stored in the memory in their order. -/
theorem memoryPort_stores (args : List (Word × Word)) {s : Session (MemoryInterface μ)} (hs : s.device.Agrees s.oscr) :
    ∃ s', method (mpsseWriteNwords (memoryPort M) args) s = .ok ((), s') ∧ s'.device.Agrees s'.oscr ∧
      s'.device.memory = M.storeAll args s.device.memory := by
  obtain ⟨s₁, hallow, hs₁, hallows⟩ := allowMemory_allowing (S := memoryPort_serves M) (m := s.device.memory)
    allows_store ⟨hs, rfl⟩
  have hdevice := (show (memoryPort_serves M).Allowing false s.device.memory s₁ from ⟨hs₁, hallows⟩).device
  obtain ⟨s', hwords, hoscr, hdev, hmem⟩ := memoryPort_words (M := M) args hdevice.1 hdevice.2
  have hmem₁ : s₁.device.memory = s.device.memory := hs₁.memory
  rw [hmem₁] at hmem
  refine ⟨s', method_of_reaches (hallow.bind hwords), ?_, hmem⟩
  rw [MemoryInterface.Agrees, hdev, hoscr]
  exact hs₁.agrees

/-- The block methods of the FT2232 adapter over the registers serve it by blocks. -/
def ft2232_serves (M : AddressSpace μ) : Serves (ft2232 (memoryPort M)) M where
  view := id
  busy _ := 0
  busy_lt := memoryPort_ready
  write_omar := (memoryPort_serves M).write_omar
  write_omdr := (memoryPort_serves M).write_omdr
  write_oscr := (memoryPort_serves M).write_oscr
  write_mem := (memoryPort_serves M).write_mem
  read_oscr := (memoryPort_serves M).read_oscr
  read_omdr := (memoryPort_serves M).read_omdr
  read_block := by
    intro read hread n _ addr s hs
    obtain rfl := Option.some.inj hread
    exact memoryPort_readBlock n addr hs
  write_block := by
    intro write hwrite words _ addr s hs
    obtain rfl := Option.some.inj hwrite
    exact memoryPort_stores (consecutive addr words) hs

section Blocks

variable {D : Adapter σ} {D' : Adapter τ}

/-- A method follows where its program does. -/
theorem corresponds_method {m : Action σ α} {m' : Action τ α} (h : Follow R (fun _ => m) m') {s : Session σ}
    {t : Session τ} (hs : Session.Pairs R s t) :
    Corresponds (Session.Pairs R) (fun _ => method m s) (method m' t) := by
  obtain ⟨s', hs', enough, henough⟩ := h s t hs
  have hrun : m s = ⟨(m' t).trace, s', (m' t).result⟩ := henough enough le_rfl
  unfold method
  rw [hrun]
  dsimp only
  cases (m' t).result with
  | error e => exact ⟨0, fun _ _ => rfl⟩
  | ok a => exact ⟨s', hs', 0, fun _ _ => rfl⟩

namespace ReachesMemoryAs

variable (h : ReachesMemoryAs R (fun _ => D) D')

include h

/-- The loads behind one start, by induction on their number. -/
theorem mpsseReadWords (n : Nat) (addr : Word) :
    Follow R (fun _ => Mcprog.mpsseReadWords D n addr) (Mcprog.mpsseReadWords D' n addr) := by
  induction n generalizing addr with
  | zero => exact tracks_pure _
  | succ n ih =>
    exact (h.oncdWrite _ (by decide)).bind fun _ => (h.oncdWrite _ (by decide)).bind fun _ =>
      (h.oncdRead (by decide)).bind fun _ => (ih _).bind fun _ => tracks_pure _

/-- The stores behind one start, by induction on them. -/
theorem mpsseWords (args : List (Word × Word)) :
    Follow R (fun _ => Mcprog.mpsseWords D args) (Mcprog.mpsseWords D' args) := by
  induction args with
  | nil => exact tracks_pure ()
  | cons a args ih =>
    exact (h.oncdWrite _ (by decide)).bind fun _ => (h.oncdWrite _ (by decide)).bind fun _ =>
      (h.oncdWrite _ (by decide)).bind fun _ => ih

/-- With the block methods the adapters reach the memory alike again. -/
theorem ft2232 : ReachesMemoryAs R (fun _ => Mcprog.ft2232 D) (Mcprog.ft2232 D') where
  memoryCalls call hcall s m hs := by
    cases call with
    | oncdWrite value reg nbits => exact h.memoryCalls (.oncdWrite value reg nbits) hcall s m hs
    | oncdRead reg nbits => exact h.memoryCalls (.oncdRead reg nbits) hcall s m hs
    | readBlock nwords addr =>
      exact corresponds_method ((h.allowMemory _).bind fun _ => (h.mpsseReadWords _ _).bind fun _ => tracks_pure _) hs
    | writeBlock addr data => exact corresponds_method ((h.allowMemory _).bind fun _ => h.mpsseWords _) hs
    | writeNwords args => exact corresponds_method ((h.allowMemory _).bind fun _ => h.mpsseWords _) hs
    | programBlock32 args => exact corresponds_method ((h.allowMemory _).bind fun _ => h.mpsseWords _) hs
    | programBlock32Unprotect args => exact corresponds_nullMethod
    | programBlock32Protect args => exact corresponds_nullMethod
    | programBlock64 args => exact corresponds_nullMethod
    | programBlock32Micron addr data => exact corresponds_nullMethod
    | _ => exact hcall.elim
  blockWords _ := rfl
  programBlockWords _ := rfl
  readBlock _ := rfl
  writeBlock _ := rfl
  writeNwords _ := rfl
  programBlock32 _ := rfl
  programBlock32Unprotect _ := rfl
  programBlock32Protect _ := rfl
  programBlock64 _ := rfl
  programBlock32Micron _ := rfl

end ReachesMemoryAs

end Blocks

/-- While its registers are selected, the processor takes what is written to them, shows it, and
moves a word at an access as the registers alone do. -/
structure PortRam (P : DebugPort τ) (M : AddressSpace μ) where
  selected : τ → Prop
  view : τ → MemoryInterface μ
  write : ∀ t val reg, selected t → reg = oncdOmar ∨ reg = oncdOmdr ∨ reg = oncdOscr →
    selected (P.oncdWrite val (BitVec.ofNat 32 reg) 32 t) ∧
      view (P.oncdWrite val (BitVec.ofNat 32 reg) 32 t) = (view t).put reg val
  access : ∀ t, selected t → selected (P.oncdWrite 0 (BitVec.ofNat 32 oncdMem) 0 t) ∧
    view (P.oncdWrite 0 (BitVec.ofNat 32 oncdMem) 0 t) = M.access (view t)
  read : ∀ t reg, selected t → reg = oncdOmdr ∨ reg = oncdOscr →
    (P.oncdRead (BitVec.ofNat 32 reg) 32 t).1 = (view t).shown reg ∧
      selected (P.oncdRead (BitVec.ofNat 32 reg) 32 t).2 ∧ view (P.oncdRead (BitVec.ofNat 32 reg) 32 t).2 = view t

/-- The registers are selected, and are these. -/
def PortRam.Shows {P : DebugPort τ} (U : PortRam P M) (t : τ) (i : MemoryInterface μ) : Prop :=
  U.selected t ∧ U.view t = i

/-- Through its port the memory is reached as it is through the registers alone. -/
theorem PortRam.reaches {P : DebugPort τ} (U : PortRam P M) :
    ReachesMemoryAs U.Shows (fun _ => P.adapter) (memoryPort M) where
  memoryCalls call hcall s m hs := by
    obtain ⟨hselected, hview⟩ := hs.2
    cases call with
    | oncdWrite value reg nbits =>
      refine hs.lift (f := fun _ => P.adapter.oncdWrite value reg.val nbits.val)
        (g := (memoryPort M).oncdWrite value reg.val nbits.val) ⟨_, ?_, 0, fun _ _ => rfl⟩
      rcases hcall with ⟨hreg, hbits⟩ | ⟨hreg, hbits⟩
      · obtain ⟨hselected', hview'⟩ := U.write s.device value reg.val hselected hreg
        have hmem : reg.val ≠ oncdMem := by rcases hreg with h | h | h <;> rw [h] <;> decide
        rw [hbits, if_neg hmem, ← hview]
        exact ⟨hselected', hview'⟩
      · rw [hbits, hreg, if_pos rfl, ← hview]
        exact U.access s.device hselected
    | oncdRead reg nbits =>
      obtain ⟨hreg, hbits⟩ := hcall
      obtain ⟨hword, hselected', hview'⟩ := U.read s.device reg.val hselected hreg
      refine hs.lift (f := fun _ => P.adapter.oncdRead reg.val nbits.val)
        (g := (memoryPort M).oncdRead reg.val nbits.val) ⟨_, ⟨hselected', hview'.trans hview⟩, 0, fun _ _ => ?_⟩
      change Except.ok (P.oncdRead (BitVec.ofNat 32 reg.val) nbits.val s.device) = _
      rw [hbits, ← hview, ← hword]
    | readBlock nwords addr => exact corresponds_nullMethod
    | writeBlock addr data => exact corresponds_nullMethod
    | writeNwords args => exact corresponds_nullMethod
    | programBlock32 args => exact corresponds_nullMethod
    | programBlock32Unprotect args => exact corresponds_nullMethod
    | programBlock32Protect args => exact corresponds_nullMethod
    | programBlock64 args => exact corresponds_nullMethod
    | programBlock32Micron addr data => exact corresponds_nullMethod
    | _ => exact hcall.elim
  blockWords _ := rfl
  programBlockWords _ := rfl
  readBlock _ := rfl
  writeBlock _ := rfl
  writeNwords _ := rfl
  programBlock32 _ := rfl
  programBlock32Unprotect _ := rfl
  programBlock32Protect _ := rfl
  programBlock64 _ := rfl
  programBlock32Micron _ := rfl

end Mcprog
