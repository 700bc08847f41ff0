import Mcprog.Library.Abstraction
import Mcprog.Oncd.Machine
import Mcprog.Target.Control

/-!
# The processor of 2005 behind its debug block

A device whose pipeline is drained: an instruction that is clocked in has its whole effect at
once, and a memory cycle of the debug block is done when it is asked for. What the accesses of
the program do to such a device is said by what they do to the registers, the memory and the
fetch stage alone.
-/

namespace Mcprog

open Interaction Program

/-- The debug block and the processor. The stages after the fetch are not followed. -/
structure Mc12 where
  machine : Machine
  running : Bool
  oscr : Word
  pcFetch : Word
  irDec : Word
  pcDec : Word
  pcExec : Word
  omar : Word
  omdr : Word

namespace Mc12

variable (d : Mc12)

/-- One clock of the stopped processor: the decoded instruction is executed. -/
def clock : Mc12 :=
  match decode d.irDec with
  | some instr => { d with machine := d.machine.step instr, pcFetch := d.machine.nextPc d.pcFetch instr }
  | none => d

/-- A memory cycle, where memory access is allowed: a load or a store. -/
def cycle : Mc12 :=
  if d.oscr &&& oscrSlctMem = 0 then d
  else if d.oscr &&& oscrRo = 0 then { d with machine := d.machine.setMem (wordNo d.omar) d.omdr }
  else { d with omdr := d.machine.mem (wordNo d.omar) }

/-- Let the program go on. -/
def resume : Mc12 := { d with running := true }

/-- A write of a register or a command of the debug block. -/
def write (val : Word) (reg : Nat) : Mc12 :=
  if reg = oncdPCfetch then { d with pcFetch := val }
  else if reg = oncdIRdec then { d with irDec := val }
  else if reg = oncdOscr then { d with oscr := val }
  else if reg = oncdOmar then { d with omar := val }
  else if reg = oncdOmdr then { d with omdr := val }
  else if reg = oncdMem then d.cycle
  else if reg = oncdGo ||| irdFlushPipe ||| irdStep1Clk then d.clock
  else if reg = oncdGo ||| irdResume ||| irdFlushPipe then d.resume
  else d

/-- What feeding an instruction comes to: the address, the instruction and a clock. -/
def feed (addr instr : Word) : Mc12 :=
  ((d.write addr oncdPCfetch).write instr oncdIRdec).write 0
    (oncdGo ||| irdFlushPipe ||| irdStep1Clk)

/-- An instruction is put into the pipeline, and clocked once. -/
theorem feed_eq (addr instr : Word) :
    d.feed addr instr = clock { d with pcFetch := addr, irDec := instr } := rfl

/-- A read of a register of the debug block. The memory is always ready. -/
def read (reg : Nat) : Word :=
  if reg = oncdPCfetch then d.pcFetch
  else if reg = oncdPCdec then d.pcDec
  else if reg = oncdIRdec then d.irDec
  else if reg = oncdPCexec then d.pcExec
  else if reg = oncdOscr then d.oscr ||| oscrRdym
  else if reg = oncdOmdr then d.omdr
  else 0

end Mc12

/-- The adapter in front of the device, with a command of its own to let the program go or
without. -/
def mc12 (ownRun : Bool) : Adapter Mc12 where
  close d := .ok ((), d)
  getIdcode d := .ok (mc12Id, d)
  cpuStopped d := .ok (!d.running, d)
  stopCpu d := .ok ((), { d with running := false })
  resetCpu d := .ok ((), d.resume)
  oncdWrite val reg _ d := .ok ((), d.write val reg)
  oncdRead reg _ d := .ok (d.read reg, d)
  blockWords := 0
  programBlockWords := 0
  stepCpu := none
  runCpu := if ownRun then some fun s => .ok ((), { s with device := s.device.resume }) else none
  readBlock := none
  writeBlock := none
  writeNwords := none
  programBlock32 := none
  programBlock32Unprotect := none
  programBlock32Protect := none
  programBlock64 := none
  programBlock32Micron := none
  blockWords_pos h := by simp at h
  programBlockWords_pos h := by simp at h
  unprotect_of_protect h := by simp at h

/-- What the accesses work on: the registers and the memory, and the fetch stage. -/
@[ext] structure Core extends Machine where
  pc : Word

namespace Core

/-- Execute one instruction word, fetched at the start address. -/
def exec (c : Core) (instr : Word) : Core :=
  match decode instr with
  | some instr => ⟨c.toMachine.step instr, c.toMachine.nextPc bootAddr instr⟩
  | none => { c with pc := bootAddr }

/-- An instruction that is known has its effect. -/
theorem exec_of_decode {c : Core} {w : Word} {instr : Instr} (h : decode w = some instr) :
    c.exec w = ⟨c.toMachine.step instr, c.toMachine.nextPc bootAddr instr⟩ := by
  rw [exec, h]

end Core

/-- A session of the debugger stands for a core: the cached `OSCR` is that of the device. -/
structure At (c : Core) (s : Session Mc12) : Prop where
  oscr : s.oscr = s.device.oscr ||| oscrRdym
  machine : s.device.machine = c.toMachine
  pc : s.device.pcFetch = c.pc

section Performs

variable {b : Bool} {c : Core} {s : Session Mc12}

/-- A debug register of the model is written. -/
theorem reaches_oncdWrite (val : Word) (reg nbits : Nat) (s : Session Mc12) :
    (oncdWrite (mc12 b) val reg nbits).Reaches s () { s with device := s.device.write val reg } :=
  reaches_request rfl

/-- A debug register of the model is read. -/
theorem reaches_oncdRead (reg nbits : Nat) (s : Session Mc12) :
    (oncdRead (mc12 b) reg nbits).Reaches s (s.device.read reg) s :=
  reaches_request rfl

/-- An instruction that is fed is executed. -/
theorem targetExec_performs (instr : Word) :
    Performs At (targetExec (mc12 b) instr) c () (c.exec instr) := by
  intro s hs
  refine ⟨{ s with device := s.device.feed bootAddr instr },
    (reaches_oncdWrite bootAddr oncdPCfetch 32 s).bind
      ((reaches_oncdWrite instr oncdIRdec 32 _).bind (reaches_oncdWrite 0 _ 0 _)), ?_⟩
  rw [Mc12.feed_eq, Mc12.clock, Core.exec]
  dsimp only
  cases decode instr with
  | none => exact ⟨hs.oscr, hs.machine, rfl⟩
  | some i =>
    refine ⟨hs.oscr, ?_, ?_⟩
    · exact congrArg (Machine.step · i) hs.machine
    · exact congrArg (Machine.nextPc · bootAddr i) hs.machine

/-- Instructions that are fed are executed one after the other. -/
theorem execAll_performs (instrs : List Word) :
    Performs At (execAll (mc12 b) instrs) c () (instrs.foldl Core.exec c) := by
  induction instrs generalizing c with
  | nil => exact performs_pure () c
  | cons instr instrs ih => exact (targetExec_performs instr).bind ih

/-- A register of the fetch stage. -/
theorem oncdRead_performs_pc (nbits : Nat) :
    Performs At (oncdRead (mc12 b) oncdPCfetch nbits) c c.pc c := by
  intro s hs
  have hread : s.device.read oncdPCfetch = c.pc := hs.pc
  exact ⟨s, hread ▸ reaches_oncdRead oncdPCfetch nbits s, hs⟩

/-- Memory access is not allowed. -/
theorem and_oscrSlctMem (x : Word) : x &&& oscrSlctMem = 0 ↔ x.getLsbD 0 = false := by
  have hmask : oscrSlctMem = BitVec.twoPow 32 0 := by decide
  rw [hmask, BitVec.and_twoPow]
  cases x.getLsbD 0 with
  | false => simp
  | true => decide

/-- The memory is to be written. -/
theorem and_oscrRo (x : Word) : x &&& oscrRo = 0 ↔ x.getLsbD 1 = false := by
  have hmask : oscrRo = BitVec.twoPow 32 1 := by decide
  rw [hmask, BitVec.and_twoPow]
  cases x.getLsbD 1 with
  | false => simp
  | true => decide

/-- The bit `RDYm` is set. -/
def HasRdym (oscr : Word) : Prop := oscr ||| oscrRdym = oscr

/-- The bit that says that the memory is ready. -/
theorem hasRdym_iff (x : Word) : HasRdym x ↔ x.getLsbD 5 = true := by
  have hbit : ∀ i : Fin 32, oscrRdym.getLsbD i = decide (i.val = 5) := by decide
  constructor
  · intro h
    rw [← h, BitVec.getLsbD_or]
    simp [oscrRdym]
  · intro h
    apply BitVec.eq_of_getLsbD_eq
    intro i hi
    rw [BitVec.getLsbD_or, hbit ⟨i, hi⟩]
    by_cases hi' : i = 5
    · simp [hi', h]
    · simp [hi']

/-- A ready control register that differs from the device in nothing else. -/
theorem At.hasRdym (h : At c s) : HasRdym s.oscr := by
  rw [HasRdym, h.oscr, BitVec.or_assoc, BitVec.or_self]

/-- Writing the control register keeps the core. -/
theorem At.setOscr (h : At c s) {oscr : Word} (hr : HasRdym oscr) :
    At c { s with oscr, device := s.device.write oscr oncdOscr } :=
  ⟨hr.symm, h.machine, h.pc⟩

/-- Changing the control register keeps the core. -/
theorem changeOscr_performs {f : Word → Word} (hf : ∀ x, HasRdym x → HasRdym (f x)) :
    Performs At (changeOscr (mc12 b) f) c () c := by
  intro s hs
  exact ⟨_, (reaches_getOscr s).bind ((reaches_setOscr _ s).bind (reaches_oncdWrite _ _ _ _)),
    hs.setOscr (hf _ hs.hasRdym)⟩

/-- Allowing memory access brings the control register to the new value. -/
theorem allowMemory_reaches {f : Word → Word} (hf : ∀ x, HasRdym x → HasRdym (f x)) (hs : At c s) :
    ∃ s', (allowMemory (mc12 b) f).Reaches s () s' ∧ At c s' ∧ s'.oscr = f s.oscr := by
  by_cases h : f s.oscr ≠ s.oscr
  · refine ⟨_, (reaches_getOscr s).bind ?_, hs.setOscr (hf _ hs.hasRdym), rfl⟩
    rw [if_pos h]
    exact (reaches_setOscr _ s).bind (reaches_oncdWrite _ _ _ _)
  · refine ⟨s, (reaches_getOscr s).bind ?_, hs, (not_not.mp h).symm⟩
    rw [if_neg h]
    exact reaches_pure () s

/-- The memory is ready when it is asked. -/
theorem waitReady_reaches (timeout : String) {count : Nat} (hcount : 0 < count) (hs : At c s) :
    (waitReady (mc12 b) timeout count).Reaches s () s := by
  obtain ⟨n, rfl⟩ := Nat.exists_eq_add_of_lt hcount
  have hread : s.device.read oncdOscr = s.oscr := hs.oscr.symm
  have hready : (s.oscr &&& oscrRdym) ≠ 0 := by
    have hmask : oscrRdym = BitVec.twoPow 32 5 := by decide
    rw [hmask, BitVec.and_twoPow, (hasRdym_iff _).mp hs.hasRdym]
    decide
  have h := reaches_oncdRead (b := b) oncdOscr 32 s
  rw [hread] at h
  rw [Nat.zero_add, waitReady]
  refine h.bind ((reaches_setOscr _ s).bind ?_)
  rw [if_pos hready]
  exact reaches_pure () s

/-- The device allows what the cached register does. -/
theorem At.allows (h : At c s) {load : Bool} (ha : Allows load s.oscr) :
    Allows load s.device.oscr := by
  have hdiff : ∀ i, oscrRdym.getLsbD i = false → s.oscr.getLsbD i = s.device.oscr.getLsbD i := by
    intro i hi
    rw [h.oscr, BitVec.getLsbD_or, hi, Bool.or_false]
  exact ⟨(hdiff 0 (by decide)).symm.trans ha.1, (hdiff 1 (by decide)).symm.trans ha.2⟩

theorem cycle_load {d : Mc12} (h : Allows true d.oscr) :
    d.cycle = { d with omdr := d.machine.mem (wordNo d.omar) } := by
  have h₁ : ¬ d.oscr &&& oscrSlctMem = 0 := by
    rw [and_oscrSlctMem, h.1]
    decide
  have h₂ : ¬ d.oscr &&& oscrRo = 0 := by
    rw [and_oscrRo, h.2]
    decide
  rw [Mc12.cycle, if_neg h₁, if_neg h₂]

theorem cycle_store {d : Mc12} (h : Allows false d.oscr) :
    d.cycle = { d with machine := d.machine.setMem (wordNo d.omar) d.omdr } := by
  have h₁ : ¬ d.oscr &&& oscrSlctMem = 0 := by
    rw [and_oscrSlctMem, h.1]
    decide
  have h₂ : d.oscr &&& oscrRo = 0 := by rw [and_oscrRo, h.2]
  rw [Mc12.cycle, if_neg h₁, if_pos h₂]

/-- A load of a word answers what the memory holds. -/
theorem targetReadWord_performs (addr : Word) :
    Performs At (targetReadWord (mc12 b) addr) c (c.mem (wordNo (physical addr))) c := by
  intro s hs
  have hf : ∀ x, HasRdym x → HasRdym (x ||| oscrSlctMem ||| oscrRo) := by
    intro x hx
    rw [hasRdym_iff] at *
    simp [hx]
  obtain ⟨s₁, hr₁, hs₁, hoscr⟩ := allowMemory_reaches (b := b) hf hs
  have hallows : Allows true s₁.oscr := by
    rw [hoscr]
    constructor
    · simp [oscrSlctMem, oscrRo]
    · simp [oscrSlctMem, oscrRo]
  have hcycle : (s₁.device.write (physical addr) oncdOmar).cycle = { s₁.device with
      omar := physical addr, omdr := s₁.device.machine.mem (wordNo (physical addr)) } :=
    cycle_load (d := s₁.device.write (physical addr) oncdOmar) (hs₁.allows hallows)
  have hs₂ : At c { s₁ with device := (s₁.device.write (physical addr) oncdOmar).write 0 oncdMem } := by
    change At c { s₁ with device := (s₁.device.write (physical addr) oncdOmar).cycle }
    rw [hcycle]
    exact ⟨hs₁.oscr, hs₁.machine, hs₁.pc⟩
  have hread : ((s₁.device.write (physical addr) oncdOmar).write 0 oncdMem).read oncdOmdr =
      c.mem (wordNo (physical addr)) := by
    change (s₁.device.write (physical addr) oncdOmar).cycle.read oncdOmdr = _
    rw [hcycle]
    exact congrArg (fun m : Machine => m.mem (wordNo (physical addr))) hs₁.machine
  refine ⟨_, hr₁.bind ((reaches_oncdWrite _ _ _ _).bind ((reaches_oncdWrite _ _ _ _).bind
    ((waitReady_reaches _ (by decide) hs₂).bind ?_))), hs₂⟩
  rw [← hread]
  exact reaches_oncdRead oncdOmdr 32 _

/-- A store of a word of the stopped processor. -/
theorem targetWriteWord_performs {t : Target} (ht : t.isRunning = false) (addr val : Word) :
    Performs At (targetWriteWord (mc12 b) t addr val) c ()
      { c with toMachine := c.setMem (wordNo (physical addr)) val } := by
  intro s hs
  have hf : ∀ x, HasRdym x → HasRdym ((x &&& ~~~oscrRo) ||| oscrSlctMem) := by
    intro x hx
    rw [hasRdym_iff] at *
    simp [hx, oscrRo]
  obtain ⟨s₁, hr₁, hs₁, hoscr⟩ := allowMemory_reaches (b := b) hf hs
  have hallows : Allows false s₁.oscr := by
    rw [hoscr]
    constructor
    · simp [oscrSlctMem]
    · simp [oscrSlctMem, oscrRo]
  have hcycle : ((s₁.device.write (physical addr) oncdOmar).write val oncdOmdr).cycle =
      { s₁.device with
        omar := physical addr, omdr := val
        machine := s₁.device.machine.setMem (wordNo (physical addr)) val } :=
    cycle_store (d := (s₁.device.write (physical addr) oncdOmar).write val oncdOmdr)
      (hs₁.allows hallows)
  refine ⟨{ s₁ with device := ((s₁.device.write (physical addr) oncdOmar).write val oncdOmdr).cycle },
    hr₁.bind ((reaches_oncdWrite _ _ _ _).bind ((reaches_oncdWrite _ _ _ _).bind
      ((reaches_oncdWrite _ _ _ _).bind ?_))), ?_⟩
  · rw [ht, if_neg Bool.false_ne_true]
    exact reaches_pure _ _
  · rw [hcycle]
    exact ⟨hs₁.oscr, congrArg (Machine.setMem · _ val) hs₁.machine, hs₁.pc⟩

end Performs

end Mcprog
