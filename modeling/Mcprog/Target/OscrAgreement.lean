import Mcprog.Adapter.Watched
import Mcprog.Target.Control
import Mcprog.Target.FlashProgram

/-!
# The cached control register agrees with the hardware

`OSCR` is written only where the cached copy seems to differ. The operations of the target
keep the two sides in agreement, so that each access to memory finds the mode that it needs.
-/

namespace Mcprog

open Interaction Program

variable {σ ε α β : Type} {D : Adapter σ} {H : ControlBits D} {A : Adapter (Watched σ)}
  {t : Target} {mode : Option Bool}

/-- A call of the adapter stays safe inside the proxy. -/
theorem Safe.calls {P : Condition σ} {m : Action (Watched σ) α} {Q : α → Condition σ}
    (h : Safe P m Q) : Safe P (Mcprog.calls m) Q := Triple.mapEvents h .call

/-- What is sent to the debugger has nothing to do with the memory. -/
theorem safe_emit {P : Condition σ} {e : ε} :
    Safe P (emit e : Program ε (Session (Watched σ)) Fatal Unit) fun _ => P :=
  triple_emit fun _ _ hs => hs

/-- The program keeps the agreement. -/
abbrev KeepsAgreement (H : ControlBits D) (m : Program ε (Session (Watched σ)) Fatal α) : Prop :=
  Safe (Agrees H none) m fun _ => Agrees H none

theorem keeps_pure {a : α} :
    KeepsAgreement H (pure a : Program ε (Session (Watched σ)) Fatal α) :=
  safe_pure fun _ hs => hs

variable (H) in
/-- The adapter works through the debug registers of the watched device, its extended methods
included. -/
structure ThroughOncd (A : Adapter (Watched σ)) : Prop extends OverOncd H A where
  stopCpu : A.stopCpu = D.stopCpu.watched
  stepCpu : A.stepCpu = none
  runCpu : A.runCpu = none
  readBlock : ∀ f ∈ A.readBlock, ∀ nwords addr event,
    KeepsAgreement H (extension (f nwords addr) event)
  writeBlock : ∀ f ∈ A.writeBlock, ∀ addr data event, KeepsAgreement H (extension (f addr data) event)
  writeNwords : ∀ f ∈ A.writeNwords, ∀ args event, KeepsAgreement H (extension (f args) event)
  programBlock32 : ∀ f ∈ A.programBlock32, ∀ args event, KeepsAgreement H (extension (f args) event)
  programBlock32Protect : A.programBlock32Protect = none
  programBlock64 : A.programBlock64 = none
  programBlock32Micron : A.programBlock32Micron = none

namespace OverOncd

variable (hA : OverOncd H A)
include hA

/-- A store finds the mode for stores, and leaves it. -/
theorem safe_writeNext (addr data : Word) : Safe (Agrees H (some true))
    (targetWriteNext A t addr data) fun _ => Agrees H (some true) := by
  refine (hA.safe_set (by decide) (by decide)).bind fun _ => ?_
  refine (hA.safe_write (by decide) (by decide)).bind fun _ => ?_
  refine (hA.safe_access.conseq (fun s hs => ⟨hs.1, hs.2.2 rfl⟩) fun _ _ hs => hs).bind fun _ => ?_
  split
  · exact hA.safe_waitReady _ _
  · exact safe_pure fun _ hs => hs

/-- After a stored word the control bits are those for stores. -/
theorem safe_writeWord (addr data : Word) : Safe (Agrees H none)
    (targetWriteWord A t addr data) fun _ => Agrees H (some true) :=
  hA.safe_allowWrite.bind fun _ => hA.safe_writeNext addr data

/-- A load finds the mode for loads, and leaves it. -/
theorem safe_readNext (addr : Word) : Safe (Agrees H (some false)) (targetReadNext A addr)
    fun _ => Agrees H (some false) := by
  refine (hA.safe_write (by decide) (by decide)).bind fun _ => ?_
  refine (hA.safe_access.conseq (fun s hs => ⟨hs.1, hs.2.1 rfl⟩) fun _ _ hs => hs).bind fun _ => ?_
  exact (hA.safe_waitReady _ _).bind fun _ => hA.safe_get

/-- After a loaded word the control bits are those for loads. -/
theorem safe_readWord (addr : Word) : Safe (Agrees H none) (targetReadWord A addr)
    fun _ => Agrees H (some false) :=
  hA.safe_allowRead.bind fun _ => hA.safe_readNext addr

/-- The agreement holds again after a stored word. -/
theorem keeps_writeWord (addr data : Word) : KeepsAgreement H (targetWriteWord A t addr data) :=
  (hA.safe_writeWord addr data).post fun _ _ hs => hs.weaken

/-- The agreement holds again after a loaded word. -/
theorem keeps_readWord (addr : Word) : KeepsAgreement H (targetReadWord A addr) :=
  (hA.safe_readWord addr).post fun _ _ hs => hs.weaken

/-- Words are stored one after the other without a look at the control bits, by induction on them. -/
theorem safe_writeNexts (args : List (Word × Word)) : Safe (Agrees H (some true))
    (writeNexts A t args) fun _ => Agrees H (some true) := by
  induction args with
  | nil => exact safe_pure fun _ hs => hs
  | cons a args ih => exact (hA.safe_writeNext a.1 a.2).bind fun _ => ih

/-- The same for words at consecutive addresses. -/
theorem safe_writeNextWords (words : List Word) (addr : Word) : Safe (Agrees H (some true))
    (writeNextWords A t words addr) fun _ => Agrees H (some true) := by
  induction words generalizing addr with
  | nil => exact safe_pure fun _ hs => hs
  | cons word words ih => exact (hA.safe_writeNext _ word).bind fun _ => ih _

/-- Words are loaded one after the other without a look at the control bits, by induction on them. -/
theorem safe_readNexts (n : Nat) (addr : Word) : Safe (Agrees H (some false)) (readNexts A n addr)
    fun _ => Agrees H (some false) := by
  induction n generalizing addr with
  | zero => exact safe_pure fun _ hs => hs
  | succ n ih =>
    exact (hA.safe_readNext addr).bind fun word => (ih _).bind fun rest => safe_pure fun _ hs => hs

/-- The stores of the FT2232 adapter come after one start. -/
theorem safe_mpsseWords (args : List (Word × Word)) : Safe (Agrees H (some true))
    (mpsseWords A args) fun _ => Agrees H (some true) := by
  induction args with
  | nil => exact safe_pure fun _ hs => hs
  | cons a args ih =>
    refine (hA.safe_set (by decide) (by decide)).bind fun _ => ?_
    refine (hA.safe_write (by decide) (by decide)).bind fun _ => ?_
    exact (hA.safe_access.conseq (fun s hs => ⟨hs.1, hs.2.2 rfl⟩) fun _ _ hs => hs).bind
      fun _ => ih

/-- The loads of the FT2232 adapter come after one start. -/
theorem safe_mpsseReadWords (n : Nat) (addr : Word) : Safe (Agrees H (some false))
    (mpsseReadWords A n addr) fun _ => Agrees H (some false) := by
  induction n generalizing addr with
  | zero => exact safe_pure fun _ hs => hs
  | succ n ih =>
    refine (hA.safe_write (by decide) (by decide)).bind fun _ => ?_
    refine (hA.safe_access.conseq (fun s hs => ⟨hs.1, hs.2.1 rfl⟩) fun _ _ hs => hs).bind fun _ => ?_
    exact hA.safe_get.bind fun word => (ih _).bind fun words => safe_pure fun _ hs => hs

/-- A list of words is stored after stores are allowed. -/
theorem keeps_mpsseStores (args : List (Word × Word)) : KeepsAgreement H (do
    allowMemory A fun oscr => (oscr &&& ~~~oscrRo) ||| oscrSlctMem
    mpsseWords A args) :=
  (hA.safe_allowWrite.bind fun _ => hA.safe_mpsseWords args).post fun _ _ hs => hs.weaken

/-- The FT2232 adapter sets the control bits itself before it reads a block. -/
theorem keeps_mpsseReadBlock (nwords addr : Word) :
    KeepsAgreement H (mpsseReadBlock A nwords addr) :=
  hA.safe_allowRead.bind fun _ => (hA.safe_mpsseReadWords _ _).bind fun _ =>
    safe_pure fun _ hs => hs.weaken

end OverOncd

/-- A method that is such a program. -/
theorem keeps_method {m : Action (Watched σ) α} (h : KeepsAgreement H m) (event : α → Call) :
    KeepsAgreement H (extension (method m) event) := by
  refine triple_request ?_ fun _ _ hs => hs.2
  intro tr s a s' hs hm
  have hpost := h [] s hs
  rw [method] at hm
  cases hres : (m s).result with
  | error e =>
    rw [hres] at hm
    exact absurd hm (by simp)
  | ok b =>
    rw [hres] at hm hpost
    rw [← (Prod.mk.inj (Except.ok.inj hm)).2]
    exact hpost

/-- An adapter without methods for blocks goes through the debug registers. -/
theorem throughOncd_watched (H : ControlBits D) : ThroughOncd H (D.watched H.bits) where
  oncdWrite := rfl
  oncdRead := rfl
  stopCpu := rfl
  stepCpu := rfl
  runCpu := rfl
  readBlock f hf := by simp [Adapter.watched] at hf
  writeBlock f hf := by simp [Adapter.watched] at hf
  writeNwords f hf := by simp [Adapter.watched] at hf
  programBlock32 f hf := by simp [Adapter.watched] at hf
  programBlock32Protect := rfl
  programBlock64 := rfl
  programBlock32Micron := rfl

/-- The FT2232 adapter goes through the debug registers as well. -/
theorem throughOncd_ft2232 (H : ControlBits D) : ThroughOncd H (ft2232 (D.watched H.bits)) where
  oncdWrite := rfl
  oncdRead := rfl
  stopCpu := rfl
  stepCpu := rfl
  runCpu := rfl
  readBlock f hf nwords addr event := by
    rw [← Option.some.inj hf]
    exact keeps_method ((throughOncd_watched H).keeps_mpsseReadBlock nwords addr) event
  writeBlock f hf addr data event := by
    rw [← Option.some.inj hf]
    exact keeps_method ((throughOncd_watched H).keeps_mpsseStores _) event
  writeNwords f hf args event := by
    rw [← Option.some.inj hf]
    exact keeps_method ((throughOncd_watched H).keeps_mpsseStores _) event
  programBlock32 f hf args event := by
    rw [← Option.some.inj hf]
    exact keeps_method ((throughOncd_watched H).keeps_mpsseStores _) event
  programBlock32Protect := rfl
  programBlock64 := rfl
  programBlock32Micron := rfl

namespace ThroughOncd

variable (hA : ThroughOncd H A)
include hA

/-- The words of a command keep the agreement, whichever way they are stored. -/
theorem keeps_writeNwords (first : Word × Word) (rest : List (Word × Word)) :
    KeepsAgreement H (targetWriteNwords A t first rest) := by
  unfold targetWriteNwords
  split
  · rename_i f hf
    exact hA.writeNwords f hf _ _
  · exact ((hA.safe_writeWord _ _).bind fun _ => hA.safe_writeNexts rest).post
      fun _ _ hs => hs.weaken

theorem keeps_writeByte (addr data : Word) : KeepsAgreement H (targetWriteByte A t addr data) := by
  unfold targetWriteByte
  split
  · exact hA.keeps_writeNwords _ _
  · exact ((hA.safe_writeWord _ _).bind fun _ => hA.safe_writeNext _ _).post
      fun _ _ hs => hs.weaken

theorem keeps_write2Bytes (addr1 data1 addr2 data2 : Word) :
    KeepsAgreement H (targetWrite2Bytes A t addr1 data1 addr2 data2) := by
  unfold targetWrite2Bytes
  split
  · exact hA.keeps_writeNwords _ _
  · exact ((hA.safe_writeWord _ _).bind fun _ => (hA.safe_writeNext _ _).bind fun _ =>
      (hA.safe_writeNext _ _).bind fun _ => hA.safe_writeNext _ _).post fun _ _ hs => hs.weaken

omit hA in
/-- A loop over the blocks of a buffer keeps what its method keeps. -/
theorem keeps_blockLoop {f : Word → List Word → Action (Watched σ) Unit} {blockWords : Word}
    (hf : ∀ addr words, KeepsAgreement H (f addr words)) (fuel : Nat) (nwords addr : Word)
    (data : Nat → Word) : KeepsAgreement H (blockLoop f blockWords fuel nwords addr data) := by
  induction fuel generalizing nwords addr data with
  | zero =>
    unfold blockLoop
    split
    · exact safe_stop
    · exact keeps_pure
  | succ fuel ih =>
    unfold blockLoop
    split
    · exact (hf _ _).bind fun _ => ih _ _ _
    · exact keeps_pure

omit hA in
/-- Blocks are read one after the other, by induction on the fuel. -/
theorem keeps_readBlocks {f : Word → Word → Extension (Watched σ) (Nat → Word)} {blockWords : Word}
    (hf : ∀ nwords addr event, KeepsAgreement H (extension (f nwords addr) event)) (fuel : Nat)
    (nwords addr : Word) : KeepsAgreement H (readBlocks f blockWords fuel nwords addr) := by
  induction fuel generalizing nwords addr with
  | zero =>
    unfold readBlocks
    split
    · exact safe_stop
    · exact keeps_pure
  | succ fuel ih =>
    unfold readBlocks
    split
    · exact (hf _ _ _).bind fun _ => (ih _ _).bind fun _ => keeps_pure
    · exact keeps_pure

/-- A block is read by its method, or word by word after one start. -/
theorem keeps_readBlock (addr nwords : Word) : KeepsAgreement H (targetReadBlock A addr nwords) := by
  unfold targetReadBlock
  split
  · rename_i f hf
    exact keeps_readBlocks (hA.readBlock f hf) _ _ _
  · exact (hA.safe_allowRead.bind fun _ => hA.safe_readNexts _ _).post fun _ _ hs => hs.weaken

/-- A block is stored by its method, or word by word after the first. -/
theorem keeps_writeBlock (addr nwords : Word) (data : Nat → Word) :
    KeepsAgreement H (targetWriteBlock A t addr nwords data) := by
  unfold targetWriteBlock
  split
  · rename_i f hf
    exact keeps_blockLoop (fun _ _ => hA.writeBlock f hf _ _ _) _ _ _ _
  · exact ((hA.safe_writeWord _ _).bind fun _ => hA.safe_writeNextWords _ _).post
      fun _ _ hs => hs.weaken

/-- Each word is programmed with a start of its own, by induction on them. -/
theorem keeps_programWords (base : Word) (words : List Word) (addr : Word) :
    KeepsAgreement H (programWords A t base words addr) := by
  induction words generalizing addr with
  | nil => exact keeps_pure
  | cons word words ih => exact (hA.keeps_writeNwords _ _).bind fun _ => ih _

/-- The bytes of the words are programmed, by induction on the words. -/
theorem keeps_programBytes (words : List Word) (addr : Word) :
    KeepsAgreement H (programBytes A t words addr) := by
  induction words generalizing addr with
  | nil => exact keeps_pure
  | cons word words ih =>
    exact (hA.keeps_write2Bytes _ _ _ _).bind fun _ => (hA.keeps_write2Bytes _ _ _ _).bind fun _ =>
      (hA.keeps_write2Bytes _ _ _ _).bind fun _ => (hA.keeps_write2Bytes _ _ _ _).bind fun _ => ih _

/-- A poll is a load, by induction on those that are left. -/
theorem keeps_pollStatus (addr mask : Word) (timeout : Nat) :
    KeepsAgreement H (pollStatus A addr mask timeout) := by
  induction timeout with
  | zero => exact (hA.keeps_readWord _).bind fun _ => keeps_pure
  | succ timeout ih =>
    refine (hA.keeps_readWord _).bind fun status => ?_
    split
    · exact keeps_pure
    · exact ih

/-- A poll with its command is a store and a load, by induction on those that are left. -/
theorem keeps_pollCommand (addr cmd mask : Word) (timeout : Nat) :
    KeepsAgreement H (pollCommand A t addr cmd mask timeout) := by
  induction timeout with
  | zero =>
    exact (hA.keeps_writeWord _ _).bind fun _ => (hA.keeps_readWord _).bind fun _ => keeps_pure
  | succ timeout ih =>
    refine (hA.keeps_writeWord _ _).bind fun _ => (hA.keeps_readWord _).bind fun status => ?_
    split
    · exact keeps_pure
    · exact ih

/-- The words of a buffer are stored each by itself, by induction on them. -/
theorem keeps_writeWords (words : List Word) (addr : Word) :
    KeepsAgreement H (writeWords A t words addr) := by
  induction words generalizing addr with
  | nil => exact keeps_pure
  | cons word words ih => exact (hA.keeps_writeWord _ _).bind fun _ => ih _

/-- The buffers of a block, by induction on the fuel. -/
theorem keeps_programBuffers (sectorAddr : Word) (fuel : Nat) (nwords addr : Word)
    (data : Nat → Word) :
    KeepsAgreement H (programBuffers A t sectorAddr fuel nwords addr data) := by
  have hbuffer : ∀ addr n data, KeepsAgreement H (programBuffer A t sectorAddr addr n data) := by
    intro addr n data
    unfold programBuffer
    rw [hA.programBlock32Micron]
    exact (hA.keeps_writeWord _ _).bind fun _ => (hA.keeps_writeWords _ _).bind fun _ =>
      hA.keeps_writeWord _ _
  induction fuel generalizing nwords addr data with
  | zero =>
    unfold programBuffers
    split
    · exact safe_stop
    · exact keeps_pure
  | succ fuel ih =>
    unfold programBuffers
    split
    · refine (hA.keeps_pollCommand _ _ _ _).bind fun ready => ?_
      split
      · exact (hbuffer _ _ _).bind fun _ => ih _ _ _
      · exact keeps_pure
    · exact keeps_pure

/-- A block for a Micron chip keeps the agreement, also where a poll fails. -/
theorem keeps_programMicron (addr nwords : Word) (data : Nat → Word) :
    KeepsAgreement H (targetProgramBlock32Micron A t addr nwords data) := by
  refine (hA.keeps_programBuffers _ _ _ _ _).bind fun ok => ?_
  split
  · refine (hA.keeps_pollStatus _ _ _).bind fun ready => ?_
    split
    · exact (hA.keeps_pollCommand _ _ _ _).bind fun _ => hA.keeps_writeWord _ _
    · exact hA.keeps_writeWord _ _
  · exact hA.keeps_writeWord _ _

/-- A block for an Atmel chip keeps the agreement, page after page. -/
theorem keeps_programAtmel (addr base nwords : Word) (data : Nat → Word) (fuel : Nat) :
    KeepsAgreement H (targetProgramBlock32Atmel A t addr base nwords data fuel) := by
  unfold targetProgramBlock32Atmel
  rw [hA.programBlock32Protect]
  dsimp only
  induction fuel generalizing nwords addr data with
  | zero => exact safe_stop
  | succ fuel ih =>
    unfold pageWordsLoop
    split
    · refine Safe.bind (Q := fun _ => Agrees H none) ?_ fun _ => ih _ _ _
      exact (hA.keeps_writeNwords _ _).bind fun _ => (hA.keeps_writeBlock _ _ _).bind fun _ =>
        (hA.keeps_writeNwords _ _).bind fun _ => hA.keeps_writeBlock _ _ _
    · exact keeps_pure

/-- Programming a block keeps the agreement, for each kind of flash memory. -/
theorem keeps_programBlock (addr nwords : Word) (data : Nat → Word) (fuel : Nat) :
    KeepsAgreement H (targetProgramBlock A t addr nwords data fuel) := by
  have hbase : KeepsAgreement H (t.computeBase addr : Action (Watched σ) Word) := by
    unfold Target.computeBase
    split
    · exact keeps_pure
    · exact safe_stop
  have hbytes : ∀ addr base, KeepsAgreement H (targetProgramBlock8 A t addr base nwords data) :=
    fun _ _ => (hA.keeps_write2Bytes _ _ _ _).bind fun _ => (hA.keeps_writeByte _ _).bind fun _ =>
      (hA.keeps_programBytes _ _).bind fun _ => hA.keeps_write2Bytes _ _ _ _
  have hwords : ∀ addr base, KeepsAgreement H (targetProgramBlock32 A t addr base nwords data) := by
    intro addr base
    unfold targetProgramBlock32
    split
    · rename_i f hf
      exact keeps_blockLoop (fun _ _ => hA.programBlock32 f hf _ _) _ _ _ _
    · exact hA.keeps_programWords _ _ _
  have hwide : ∀ addr base, KeepsAgreement H (targetProgramBlock64 A t addr base nwords data) := by
    intro addr base
    unfold targetProgramBlock64
    rw [hA.programBlock64]
    exact hA.keeps_programWords _ _ _
  refine hbase.bind fun base => ?_
  dsimp only
  split
  · exact hbytes _ _
  · split
    · split
      · exact hA.keeps_programMicron _ _ _
      · split
        · exact hA.keeps_programAtmel _ _ _ _ _
        · exact hwords _ _
    · split
      · exact hwide _ _
      · exact keeps_pure

end ThroughOncd

namespace OverOncd

variable (hA : OverOncd H A)
include hA

/-- An instruction is no access to the memory. -/
theorem keeps_exec (instr : Word) : KeepsAgreement H (targetExec A instr) :=
  (hA.safe_set (by decide) (by decide)).bind fun _ =>
    (hA.safe_set (by decide) (by decide)).bind fun _ => hA.safe_set (by decide) (by decide)

/-- Instructions one after the other, by induction on them. -/
theorem keeps_execAll (instrs : List Word) : KeepsAgreement H (execAll A instrs) := by
  induction instrs with
  | nil => exact keeps_pure
  | cons instr instrs ih => exact (hA.keeps_exec instr).bind fun _ => ih

/-- A register is read from its group, without the memory. -/
theorem keeps_regfRead (group : Word) (n : RegNo) : KeepsAgreement H (regfRead A group n) :=
  (hA.safe_set (by decide) (by decide)).bind fun _ => hA.safe_get

/-- A register is written to its group, without the memory. -/
theorem keeps_regfWrite (group : Word) (n : RegNo) (val : Word) :
    KeepsAgreement H (regfWrite A group n val) :=
  (hA.safe_set (by decide) (by decide)).bind fun _ => hA.safe_set (by decide) (by decide)

/-- Instructions with a load of the internal memory after them. -/
theorem keeps_execRead (instrs : List Word) :
    KeepsAgreement H (do execAll A instrs; targetReadWord A cramAddr) :=
  (hA.keeps_execAll instrs).bind fun _ => hA.keeps_readWord _

/-- A register is read from its group, or stored by an instruction and then loaded. -/
theorem keeps_readReg (regno : RegNo) : KeepsAgreement H (targetReadReg A t regno) := by
  unfold targetReadReg
  split
  · exact hA.keeps_regfRead _ _
  · exact hA.keeps_execRead _

/-- A register is written to its group, or by instructions. -/
theorem keeps_writeReg (regno : RegNo) (val : Word) :
    KeepsAgreement H (targetWriteReg A t regno val) := by
  unfold targetWriteReg
  split
  · exact hA.keeps_regfWrite _ _ _
  · exact hA.keeps_execAll _

/-- Reading a register that is not cached keeps the agreement. -/
theorem keeps_loadSlot (slot : Slot) : KeepsAgreement H (targetLoadSlot A t slot) := by
  have hcopy : ∀ instrs, KeepsAgreement H (do execAll A instrs; targetReadReg A t fp) :=
    fun instrs => (hA.keeps_execAll instrs).bind fun _ => hA.keeps_readReg _
  have hmove : ∀ instr, KeepsAgreement H (do targetExec A instr; targetReadReg A t fp) :=
    fun instr => (hA.keeps_exec instr).bind fun _ => hA.keeps_readReg _
  cases slot with
  | cpu i => exact hA.keeps_readReg i
  | cp0 i => exact Safe.ite (hA.keeps_regfRead _ _) (hcopy _)
  | lo => exact Safe.ite (hA.keeps_regfRead _ _) (hmove _)
  | hi => exact Safe.ite (hA.keeps_regfRead _ _) (hmove _)
  | fpu i => exact Safe.ite (hA.keeps_regfRead _ _) (hA.keeps_execRead _)
  | fcsr => exact Safe.ite (hA.keeps_regfRead _ _) (hcopy _)
  | fir => exact Safe.ite (hA.keeps_regfRead _ _) (hcopy _)

/-- Writing a register keeps the agreement. -/
theorem keeps_storeSlot (val : Word) (slot : Slot) :
    KeepsAgreement H (targetStoreSlot A t val slot) := by
  have hcopy : ∀ instrs, KeepsAgreement H (do targetWriteReg A t fp val; execAll A instrs) :=
    fun instrs => (hA.keeps_writeReg _ _).bind fun _ => hA.keeps_execAll instrs
  cases slot with
  | cpu i => exact hA.keeps_writeReg i val
  | cp0 i => exact Safe.ite (hA.keeps_regfWrite _ _ _) (hcopy _)
  | lo => exact Safe.ite (hA.keeps_regfWrite _ _ _) (hcopy _)
  | hi => exact Safe.ite (hA.keeps_regfWrite _ _ _) (hcopy _)
  | fpu i => exact Safe.ite (hA.keeps_regfWrite _ _ _) (hcopy _)
  | fcsr => exact Safe.ite (hA.keeps_regfWrite _ _ _) (hcopy _)
  | fir => exact keeps_pure

/-- A register is read from what was saved, or by instructions. -/
theorem keeps_readRegister (regno : Nat) : KeepsAgreement H (targetReadRegister A t regno) := by
  unfold targetReadRegister
  split
  · exact keeps_pure
  · split
    · exact keeps_pure
    · split
      · exact keeps_pure
      · exact (hA.keeps_loadSlot _).bind fun _ => keeps_pure

/-- A register is written to what was saved, or by instructions. -/
theorem keeps_writeRegister (regno : Nat) (val : Word) :
    KeepsAgreement H (targetWriteRegister A t regno val) := by
  unfold targetWriteRegister
  split
  · exact keeps_pure
  · split
    · exact keeps_pure
    · split
      · exact (hA.keeps_storeSlot _ _).bind fun _ => keeps_pure
      · exact keeps_pure

/-- The control register is changed between the accesses. -/
theorem keeps_changeOscr (f : Word → Word) : KeepsAgreement H (changeOscr A f) :=
  safe_getOscr.bind fun _ => hA.safe_putOscr.post fun _ _ hs => hs.1

/-- The pipeline is drained by steps, by induction on their number. -/
theorem keeps_drainPipeline (n : Nat) (exception : Word) :
    KeepsAgreement H (drainPipeline A n exception) := by
  induction n generalizing exception with
  | zero => exact keeps_pure
  | succ n ih =>
    exact (hA.keeps_exec _).bind fun _ => Safe.ite (hA.safe_get.bind fun _ => ih _) (ih _)

/-- One word of the memory is saved by a load, and the registers after it. -/
theorem keeps_saveScratch : KeepsAgreement H (saveScratch A t) :=
  (hA.keeps_readWord _).bind fun _ => (hA.keeps_execAll _).bind fun _ => hA.safe_get.bind fun _ =>
    (hA.keeps_execAll _).bind fun _ => (hA.keeps_readReg _).bind fun _ => keeps_pure

/-- Saving the state brings the two sides into agreement. -/
theorem safe_saveState : Safe (fun _ => True) (targetSaveState A t) fun _ => Agrees H none := by
  have hread : ∀ reg, Safe (fun _ => True) (Mcprog.oncdRead A reg 32) fun _ _ => True :=
    fun _ => hA.safe_readAny.post fun _ _ _ => trivial
  have hoscr : Safe (fun _ => True) (Mcprog.oncdRead A oncdOscr 32) fun val s =>
      val &&& oscrControl = H.bits s.device.device :=
    hA.safe_readAny.post fun _ _ hs => hs rfl
  have hpending : ∀ pc, KeepsAgreement H (pendingException A pc) :=
    fun _ => Safe.ite (hA.keeps_drainPipeline _ _) keeps_pure
  refine (hread _).bind fun _ => (hread _).bind fun _ => (hread _).bind fun _ =>
    (hread _).bind fun _ => hoscr.bind fun _ => safe_setOscr_of_bits.bind fun _ => ?_
  refine (hA.keeps_changeOscr _).bind fun _ => (hpending _).bind fun _ =>
    (hA.keeps_changeOscr _).bind fun _ => ?_
  exact Safe.ite hA.keeps_saveScratch keeps_pure

/-- The saved state is restored by stores and instructions. -/
theorem keeps_restoreState : KeepsAgreement H (targetRestoreState A t) := by
  have hscratch : KeepsAgreement H (restoreScratch A t) :=
    (hA.keeps_writeReg _ _).bind fun _ => (hA.keeps_writeReg _ _).bind fun _ =>
      hA.keeps_writeWord _ _
  have hset : ∀ val reg nbits, reg ≠ oncdOscr → reg ≠ oncdMem →
      KeepsAgreement H (Mcprog.oncdWrite A val reg nbits) := fun _ _ _ => hA.safe_set
  have hpipeline : KeepsAgreement H (restorePipeline A t) := by
    refine Safe.ite ?_ ?_
    · exact (hset _ _ _ (by decide) (by decide)).bind fun _ =>
        (hset _ _ _ (by decide) (by decide)).bind fun _ =>
        (hset _ _ _ (by decide) (by decide)).bind fun _ =>
        (hset _ _ _ (by decide) (by decide)).bind fun _ => hset _ _ _ (by decide) (by decide)
    · exact (hset _ _ _ (by decide) (by decide)).bind fun _ =>
        (hset _ _ _ (by decide) (by decide)).bind fun _ => hset _ _ _ (by decide) (by decide)
  exact (Safe.ite hscratch keeps_pure).bind fun _ => (hA.keeps_execAll _).bind fun _ =>
    hpipeline.bind fun _ => hA.keeps_changeOscr _

end OverOncd

namespace ThroughOncd

variable (hA : ThroughOncd H A)
include hA

/-- Stopping the processor keeps its control bits. -/
theorem safe_stopCpu : Safe (fun _ => True) (calls (adapterCall A.stopCpu fun _ => .stopCpu))
    fun _ _ => True := by
  refine Safe.calls (triple_request ?_ fun _ _ hs => hs.2)
  rintro _ s u s' ⟨-, hsound⟩ hstop
  rw [hA.stopCpu] at hstop
  obtain ⟨d, -, -, hdev⟩ := watched_method hstop
  refine ⟨trivial, ?_⟩
  rw [hdev]
  exact hsound

/-- After the context is saved the agreement holds, whatever was before. -/
theorem safe_saveContext : Safe (fun _ => True) (saveContext A t) fun _ => Agrees H none :=
  safe_emit.bind fun _ => hA.safe_saveState.calls

/-- The agreement holds after the context is restored. -/
theorem keeps_restoreContext : KeepsAgreement H (restoreContext A t) :=
  safe_emit.bind fun _ => hA.keeps_restoreState.calls

/-- A running processor is stopped with the two sides in agreement. -/
theorem safe_targetStop (h : t.isRunning = true) :
    Safe (fun _ => True) (targetStop A t) fun _ => Agrees H none := by
  rw [targetStop, h, if_pos rfl]
  exact hA.safe_stopCpu.bind fun _ => hA.safe_saveContext.bind fun _ =>
    (hA.keeps_readWord _).calls.bind fun _ => keeps_pure

/-- `target_stop` saves the context unless the processor has been stopped already. -/
theorem keeps_targetStop : KeepsAgreement H (targetStop A t) := by
  by_cases h : t.isRunning = true
  · exact (hA.safe_targetStop h).conseq (fun _ _ => trivial) fun _ _ hs => hs
  · rw [targetStop, if_neg h]
    exact keeps_pure

/-- A step of the processor touches no control bit. -/
theorem keeps_stepProgram : KeepsAgreement H (stepProgram A) := by
  refine safe_emit.bind fun _ => ?_
  rw [hA.stepCpu]
  exact (hA.safe_set (by decide) (by decide)).calls

/-- The start of the processor touches no control bit. -/
theorem keeps_runProgram : KeepsAgreement H (runProgram A) := by
  refine safe_emit.bind fun _ => ?_
  rw [hA.runCpu]
  exact (hA.safe_set (by decide) (by decide)).calls

/-- `target_step` restores the context, and saves it again. -/
theorem keeps_targetStep : KeepsAgreement H (targetStep A t) :=
  Safe.ite keeps_pure (hA.keeps_restoreContext.bind fun _ => hA.keeps_stepProgram.bind fun _ =>
    hA.safe_saveContext.conseq (fun _ _ => trivial) fun _ _ hs => hs)

/-- `target_resume` restores the context and starts the processor. -/
theorem keeps_targetResume : KeepsAgreement H (targetResume A t) :=
  Safe.ite keeps_pure (hA.keeps_restoreContext.bind fun _ => hA.keeps_runProgram.bind fun _ =>
    keeps_pure)

end ThroughOncd

/-- An operation of a debugger or a programmer on a target. -/
inductive TargetOp
  | stop
  | step
  | resume
  | readWord (addr : Word)
  | writeWord (addr data : Word)
  | writeNwords (first : Word × Word) (rest : List (Word × Word))
  | writeByte (addr data : Word)
  | write2Bytes (addr1 data1 addr2 data2 : Word)
  | readBlock (addr nwords : Word)
  | writeBlock (addr nwords : Word) (data : Nat → Word)
  | programBlock (addr nwords : Word) (data : Nat → Word) (fuel : Nat)
  | readRegister (regno : Nat)
  | writeRegister (regno : Nat) (val : Word)

/-- Perform an operation. What it reads is not of interest. -/
def TargetOp.perform (A : Adapter σ) (t : Target) : TargetOp → Control σ Target
  | stop => targetStop A t
  | step => targetStep A t
  | resume => targetResume A t
  | readWord addr => do
    let _ ← calls (targetReadWord A addr)
    return t
  | writeWord addr data => do
    calls (targetWriteWord A t addr data)
    return t
  | writeNwords first rest => do
    calls (targetWriteNwords A t first rest)
    return t
  | writeByte addr data => do
    calls (targetWriteByte A t addr data)
    return t
  | write2Bytes addr1 data1 addr2 data2 => do
    calls (targetWrite2Bytes A t addr1 data1 addr2 data2)
    return t
  | readBlock addr nwords => do
    let _ ← calls (targetReadBlock A addr nwords)
    return t
  | writeBlock addr nwords data => do
    calls (targetWriteBlock A t addr nwords data)
    return t
  | programBlock addr nwords data fuel => do
    calls (targetProgramBlock A t addr nwords data fuel)
    return t
  | readRegister regno => do
    let r ← calls (targetReadRegister A t regno)
    return r.2
  | writeRegister regno val => calls (targetWriteRegister A t regno val)

/-- Perform one operation after the other. -/
def performOps (A : Adapter σ) : Target → List TargetOp → Control σ Target
  | t, [] => pure t
  | t, op :: ops => do
    let t ← op.perform A t
    performOps A t ops

section Runs

variable (hA : ThroughOncd H A)
include hA

/-- Every operation keeps the agreement. -/
theorem perform_keepsAgreement (op : TargetOp) : KeepsAgreement H (op.perform A t) := by
  have hcall : ∀ {α : Type} {m : Action (Watched σ) α}, KeepsAgreement H m →
      KeepsAgreement H (do let _ ← calls m; return t) := fun h => h.calls.bind fun _ => keeps_pure
  cases op with
  | stop => exact hA.keeps_targetStop
  | step => exact hA.keeps_targetStep
  | resume => exact hA.keeps_targetResume
  | readWord addr => exact hcall (hA.keeps_readWord addr)
  | writeWord addr data => exact hcall (hA.keeps_writeWord addr data)
  | writeNwords first rest => exact hcall (hA.keeps_writeNwords first rest)
  | writeByte addr data => exact hcall (hA.keeps_writeByte addr data)
  | write2Bytes addr1 data1 addr2 data2 => exact hcall (hA.keeps_write2Bytes addr1 data1 addr2 data2)
  | readBlock addr nwords => exact hcall (hA.keeps_readBlock addr nwords)
  | writeBlock addr nwords data => exact hcall (hA.keeps_writeBlock addr nwords data)
  | programBlock addr nwords data fuel => exact hcall (hA.keeps_programBlock addr nwords data fuel)
  | readRegister regno => exact (hA.keeps_readRegister regno).calls.bind fun _ => keeps_pure
  | writeRegister regno val => exact (hA.keeps_writeRegister regno val).calls

/-- Operations in any order keep the agreement, by induction on them. -/
theorem performOps_keepsAgreement (ops : List TargetOp) : KeepsAgreement H (performOps A t ops) := by
  induction ops generalizing t with
  | nil => exact keeps_pure
  | cons op ops ih => exact (perform_keepsAgreement hA op).bind fun _ => ih

/-- Once the processor has been stopped the two sides agree after any operations. -/
theorem stopped_keepsAgreement (h : t.isRunning = true) (ops : List TargetOp) :
    Safe (fun _ => True) (performOps A t (.stop :: ops)) fun _ => Agrees H none :=
  (hA.safe_targetStop h).bind fun _ => performOps_keepsAgreement hA ops

end Runs

/-- The adapters over the debug registers: without extended methods, or the FT2232 one. -/
def oncdAdapters (D : Adapter σ) : List (Adapter σ) := [D, ft2232 D]

/-- Both kinds of adapter go through the debug registers. -/
theorem throughOncd_of_mem (hA : A ∈ oncdAdapters (D.watched H.bits)) : ThroughOncd H A := by
  rw [oncdAdapters, List.mem_pair] at hA
  rcases hA with rfl | rfl
  · exact throughOncd_watched H
  · exact throughOncd_ft2232 H

/-- After the processor has been stopped, the cached register and the hardware agree on the
control bits after every operation of any run, and each access to memory that a run makes,
whether it answers or stops early, finds the bits that it needs. -/
theorem performOps_agrees (D : Adapter σ) (H : ControlBits D) {A : Adapter (Watched σ)}
    (hA : A ∈ oncdAdapters (D.watched H.bits)) {t : Target} (ht : t.isRunning = true)
    (ops : List TargetOp) {s : Session (Watched σ)} (hs : s.device.triggers = []) :
    (performOps A t (.stop :: ops) s).state.device.Sound ∧
      ∀ t' tr s', (performOps A t (.stop :: ops)).Returns s t' tr s' →
        s'.oscr &&& oscrControl = H.bits s'.device.device := by
  have hsafe := stopped_keepsAgreement (throughOncd_of_mem hA) ht ops
  have hsound : s.device.Sound := by
    intro x hx
    rw [hs] at hx
    exact absurd hx List.not_mem_nil
  refine ⟨hsafe.sound trivial hsound, fun t' tr s' hr => ?_⟩
  exact (hsafe.returns trivial hsound hr).1.1

/-- A device with the register `OSCR` only, whose memory is always ready. -/
def oscrDevice : Adapter Word where
  close d := .ok ((), d)
  getIdcode d := .ok (mc12Id, d)
  cpuStopped d := .ok (true, d)
  stopCpu d := .ok ((), d)
  resetCpu d := .ok ((), d)
  oncdWrite val reg _ d := .ok ((), if reg = oncdOscr then val else d)
  oncdRead reg _ d := .ok (if reg = oncdOscr then d ||| oscrRdym else 0, d)
  blockWords := 0
  programBlockWords := 0
  stepCpu := none
  runCpu := none
  readBlock := none
  writeBlock := none
  writeNwords := none
  programBlock32 := none
  programBlock32Unprotect := none
  programBlock32Protect := none
  programBlock64 := none
  programBlock32Micron := none
  blockWords_pos h := by simp at h
  programBlockWords_pos h := by simp at h
  unprotect_of_protect h := by simp at h

/-- Its control bits. -/
def oscrDeviceBits : ControlBits oscrDevice where
  bits d := d &&& oscrControl
  write_oscr val d d' h := by
    rw [← (Prod.mk.inj (Except.ok.inj h)).2]
    rfl
  write_other val reg nbits d d' hreg h := by
    rw [← (Prod.mk.inj (Except.ok.inj h)).2, if_neg hreg]
  read_oscr val nbits d d' h := by
    have hbit : ∀ (i : Fin 32) (b : Bool), ((b || oscrRdym.getLsbD i) && oscrControl.getLsbD i) =
        (b && oscrControl.getLsbD i) := by decide
    rw [← (Prod.mk.inj (Except.ok.inj h)).1, if_pos rfl]
    apply BitVec.eq_of_getLsbD_eq
    intro i hi
    rw [BitVec.getLsbD_and, BitVec.getLsbD_or, BitVec.getLsbD_and]
    exact hbit ⟨i, hi⟩ (d.getLsbD i)
  read val reg nbits d d' h := by rw [← (Prod.mk.inj (Except.ok.inj h)).2]
  stop d d' h := by rw [← (Prod.mk.inj (Except.ok.inj h)).2]

/-- A load, a store, a step and a load again. -/
theorem performOps_agrees_oscrDevice :
    let m := performOps (ft2232 (oscrDevice.watched oscrDeviceBits.bits))
      { Target.allocated with idcode := mc12Id, isRunning := true }
      [.stop, .readWord 0, .writeWord 0 1, .step, .readRegister 2, .writeByte 0x1FC00000 3]
    (m ⟨0, ⟨0, false, []⟩⟩).state.device.Sound ∧ ∀ t' tr s', m.Returns ⟨0, ⟨0, false, []⟩⟩ t' tr s' →
      s'.oscr &&& oscrControl = s'.device.device &&& oscrControl :=
  performOps_agrees oscrDevice oscrDeviceBits (by simp [oncdAdapters]) rfl
    [.readWord 0, .writeWord 0 1, .step, .readRegister 2, .writeByte 0x1FC00000 3] rfl

end Mcprog
