import Mcprog.Target.Breakpoint
import Mcprog.Target.Control
import Mcprog.Target.Stops

/-!
# Routines without assertions

An adapter may end the program, but not by a failed assertion. Neither do the routines of
`target.c` that the proxy calls.
-/

namespace Mcprog

open Interaction Program

/-- The reason to stop is no failed assertion. -/
def Fatal.NoAssertion (e : Fatal) : Prop := ∀ text, e ≠ .assertion text

/-- No run of the program ends at a failed assertion. -/
abbrev AssertionFree {ε σ α : Type} (m : Program ε (Session σ) Fatal α) : Prop :=
  StopsFor m Fatal.NoAssertion

/-- The methods that the proxy calls have no assertions. -/
structure Adapter.Unasserting {σ : Type} (A : Adapter σ) : Prop where
  close : ∀ d e, A.close d = .error e → e.NoAssertion
  cpuStopped : ∀ d e, A.cpuStopped d = .error e → e.NoAssertion
  stopCpu : ∀ d e, A.stopCpu d = .error e → e.NoAssertion
  resetCpu : ∀ d e, A.resetCpu d = .error e → e.NoAssertion
  oncdWrite : ∀ val reg nbits d e, A.oncdWrite val reg nbits d = .error e → e.NoAssertion
  oncdRead : ∀ reg nbits d e, A.oncdRead reg nbits d = .error e → e.NoAssertion
  stepCpu : ∀ f, A.stepCpu = some f → ∀ s e, f s = .error e → e.NoAssertion
  runCpu : ∀ f, A.runCpu = some f → ∀ s e, f s = .error e → e.NoAssertion
  readBlock : ∀ f, A.readBlock = some f → ∀ n addr s e, f n addr s = .error e → e.NoAssertion
  writeBlock : ∀ f, A.writeBlock = some f → ∀ addr words s e, f addr words s = .error e →
    e.NoAssertion

/-- An end for the time or for the fuel is no assertion. -/
theorem hasTimeouts_noAssertion : HasTimeouts Fatal.NoAssertion where
  fuel _ h := by cases h
  reading _ _ h := by cases h
  writing _ _ h := by cases h
  region _ _ h := by cases h

/-- Nothing more is asserted inside the proxy. -/
@[simp] theorem assertionFree_calls {σ α : Type} {m : Action σ α} (h : AssertionFree m) :
    AssertionFree (calls m) :=
  h.mapEvents _

namespace Adapter.Unasserting

variable {σ : Type} {A : Adapter σ} (hA : A.Unasserting) (t : Target)

include hA

/-- The debug registers are accessed without an assertion. -/
theorem registers : A.RegistersStop Fatal.NoAssertion := ⟨hA.oncdWrite, hA.oncdRead⟩

/-- A debug register is written without an assertion of the library. -/
theorem write (val : Word) (reg nbits : Nat) : AssertionFree (Mcprog.oncdWrite A val reg nbits) :=
  hA.registers.write val reg nbits

/-- A debug register is read without an assertion of the library. -/
theorem read (reg nbits : Nat) : AssertionFree (Mcprog.oncdRead A reg nbits) :=
  hA.registers.read reg nbits

/-- `target_write_word` asserts nothing. -/
theorem writeWord (addr data : Word) : AssertionFree (targetWriteWord A t addr data) :=
  hA.registers.writeWord hasTimeouts_noAssertion t addr data

/-- `target_read_word` asserts nothing. -/
theorem readWord (addr : Word) : AssertionFree (targetReadWord A addr) :=
  hA.registers.readWord hasTimeouts_noAssertion addr

/-- `target_read_block` asserts nothing, with a method or without. -/
theorem block_read (addr nwords : Word) : AssertionFree (targetReadBlock A addr nwords) :=
  hA.registers.block_read hasTimeouts_noAssertion hA.readBlock addr nwords

/-- `target_write_block` asserts nothing, with a method or without. -/
theorem block_write (addr nwords : Word) (data : Nat → Word) :
    AssertionFree (targetWriteBlock A t addr nwords data) := by
  unfold targetWriteBlock
  cases hwrite : A.writeBlock with
  | some write =>
    exact stopsFor_blockLoop hasTimeouts_noAssertion
      (fun _ _ => stopsFor_request (hA.writeBlock write hwrite _ _)) _ _ _ _ _
  | none =>
    exact (hA.writeWord t _ _).bind fun _ =>
      hA.registers.writeNextWords hasTimeouts_noAssertion t _ _

/-- `target_exec` asserts nothing. -/
theorem exec (instr : Word) : AssertionFree (targetExec A instr) :=
  (hA.write _ _ _).bind fun _ => (hA.write _ _ _).bind fun _ => hA.write _ _ _

/-- Instructions one after the other, by induction on them. -/
theorem execAll (instrs : List Word) : AssertionFree (Mcprog.execAll A instrs) := by
  induction instrs with
  | nil => exact stopsFor_pure
  | cons instr instrs ih => exact (hA.exec _).bind fun _ => ih

/-- A register is read from its group without an assertion. -/
theorem regfRead (group : Word) (n : RegNo) : AssertionFree (Mcprog.regfRead A group n) :=
  (hA.write _ _ _).bind fun _ => hA.read _ _

/-- A register is written to its group without an assertion. -/
theorem regfWrite (group : Word) (n : RegNo) (val : Word) :
    AssertionFree (Mcprog.regfWrite A group n val) :=
  (hA.write _ _ _).bind fun _ => hA.write _ _ _

/-- A register of the processor is read without an assertion. -/
theorem readReg (n : RegNo) : AssertionFree (targetReadReg A t n) :=
  stopsFor_ite (fun _ => hA.regfRead _ _) fun _ => (hA.execAll _).bind fun _ => hA.readWord _

/-- A register of the processor is written without an assertion. -/
theorem writeReg (n : RegNo) (val : Word) : AssertionFree (targetWriteReg A t n val) :=
  stopsFor_ite (fun _ => hA.regfWrite _ _ _) fun _ => hA.execAll _

/-- A half of the product is written without an assertion. -/
theorem writeHilo (n : RegNo) (instr val : Word) : AssertionFree (targetWriteHilo A t n instr val) :=
  stopsFor_ite (fun _ => hA.regfWrite _ _ _) fun _ => (hA.writeReg t _ _).bind fun _ => hA.execAll _

/-- Each kind of register is read without an assertion. -/
theorem loadSlot (slot : Slot) : AssertionFree (targetLoadSlot A t slot) := by
  have hthrough : ∀ (group : Word) (n : RegNo) (m : Action σ Unit), AssertionFree m →
      AssertionFree (if t.idcode ≠ mc12Id then Mcprog.regfRead A group n else do
        m
        targetReadReg A t fp) :=
    fun _ _ _ hm => stopsFor_ite (fun _ => hA.regfRead _ _) fun _ => hm.bind fun _ => hA.readReg t _
  cases slot with
  | cpu n => exact hA.readReg t n
  | cp0 n => exact hthrough _ _ _ (hA.execAll _)
  | lo => exact hthrough _ _ _ (hA.exec _)
  | hi => exact hthrough _ _ _ (hA.exec _)
  | fpu n =>
    exact stopsFor_ite (fun _ => hA.regfRead _ _) fun _ => (hA.execAll _).bind fun _ => hA.readWord _
  | fcsr => exact hthrough _ _ _ (hA.execAll _)
  | fir => exact hthrough _ _ _ (hA.execAll _)

/-- Each kind of register is written without an assertion. -/
theorem storeSlot (val : Word) (slot : Slot) : AssertionFree (targetStoreSlot A t val slot) := by
  have hthrough : ∀ (group : Word) (n : RegNo) (instrs : List Word),
      AssertionFree (if t.idcode ≠ mc12Id then Mcprog.regfWrite A group n val else do
        targetWriteReg A t fp val
        Mcprog.execAll A instrs) :=
    fun _ _ _ => stopsFor_ite (fun _ => hA.regfWrite _ _ _) fun _ => (hA.writeReg t _ _).bind fun _ =>
      hA.execAll _
  cases slot with
  | cpu n => exact hA.writeReg t n val
  | cp0 n => exact hthrough _ _ _
  | lo => exact hA.writeHilo t _ _ _
  | hi => exact hA.writeHilo t _ _ _
  | fpu n => exact hthrough _ _ _
  | fcsr => exact hthrough _ _ _
  | fir => exact stopsFor_pure

/-- `target_read_register` asserts nothing, whatever the number is. -/
theorem readRegister (regno : Nat) : AssertionFree (targetReadRegister A t regno) := by
  refine stopsFor_ite (fun _ => stopsFor_pure) fun _ => ?_
  cases slotOf regno with
  | none => exact stopsFor_pure
  | some slot =>
    dsimp only
    cases t.cached slot with
    | some val => exact stopsFor_pure
    | none => exact (hA.loadSlot t slot).bind fun _ => stopsFor_pure

/-- `target_write_register` asserts nothing, whatever the number is. -/
theorem writeRegister (regno : Nat) (val : Word) : AssertionFree (targetWriteRegister A t regno val) := by
  refine stopsFor_ite (fun _ => stopsFor_pure) fun _ => ?_
  cases slotOf regno with
  | none => exact stopsFor_pure
  | some slot =>
    exact stopsFor_ite (fun _ => (hA.storeSlot t val slot).bind fun _ => stopsFor_pure)
      fun _ => stopsFor_pure

/-- `target_add_break` asserts nothing, also where no comparator is free. -/
theorem addBreak (addr : Word) (type : Char) : AssertionFree (targetAddBreak A addr type) := by
  have hplace : ∀ obcr omlr0 omlr1, AssertionFree (placeComparators A obcr omlr0 omlr1) :=
    fun _ _ _ => (hA.write _ _ _).bind fun _ => (hA.write _ _ _).bind fun _ =>
      (hA.write _ _ _).bind fun _ => hA.write _ _ _
  exact (hA.read _ _).bind fun _ => stopsFor_ite (fun _ => (hA.read _ _).bind fun _ => hplace _ _ _)
    fun _ => hplace _ _ _

/-- `target_remove_break` asserts nothing. -/
theorem removeBreak (addr : Word) : AssertionFree (targetRemoveBreak A addr) := by
  have hwrite : ∀ obcr omlr0 omlr1, AssertionFree (writeComparators A obcr omlr0 omlr1) :=
    fun _ _ _ => (hA.write _ _ _).bind fun _ => (hA.write _ _ _).bind fun _ => hA.write _ _ _
  refine (hA.read _ _).bind fun _ => (hA.read _ _).bind fun _ => (hA.read _ _).bind fun _ => ?_
  exact stopsFor_ite (fun _ => stopsFor_ite (fun _ => hwrite _ _ _) fun _ => hwrite _ _ _) fun _ =>
    stopsFor_ite (fun _ => stopsFor_ite (fun _ => hwrite _ _ _) fun _ => hwrite _ _ _) fun _ =>
    stopsFor_pure

/-- The control register is changed without an assertion. -/
theorem changeOscr (f : Word → Word) : AssertionFree (Mcprog.changeOscr A f) :=
  stopsFor_getOscr.bind fun _ => (stopsFor_setOscr _).bind fun _ => hA.write _ _ _

/-- The pipeline is emptied without an assertion, by induction on the steps. -/
theorem drainPipeline (n : Nat) (exception : Word) :
    AssertionFree (Mcprog.drainPipeline A n exception) := by
  induction n generalizing exception with
  | zero => exact stopsFor_pure
  | succ n ih =>
    exact (hA.exec _).bind fun _ => stopsFor_ite (fun _ => (hA.read _ _).bind fun _ => ih _)
      fun _ => ih _

/-- `target_save_state` asserts nothing. -/
theorem saveState : AssertionFree (targetSaveState A t) := by
  have hscratch : ∀ t, AssertionFree (saveScratch A t) := fun t =>
    (hA.readWord _).bind fun _ => (hA.execAll _).bind fun _ => (hA.read _ _).bind fun _ =>
      (hA.execAll _).bind fun _ => (hA.readReg t _).bind fun _ => stopsFor_pure
  refine (hA.read _ _).bind fun _ => (hA.read _ _).bind fun _ => (hA.read _ _).bind fun _ =>
    (hA.read _ _).bind fun _ => (hA.read _ _).bind fun _ => (stopsFor_setOscr _).bind fun _ =>
    (hA.changeOscr _).bind fun _ => StopsFor.bind ?_ fun _ => (hA.changeOscr _).bind fun _ => ?_
  · exact stopsFor_ite (fun _ => hA.drainPipeline _ _) fun _ => stopsFor_pure
  · exact stopsFor_ite (fun _ => hscratch _) fun _ => stopsFor_pure

/-- `target_restore_state` asserts nothing. -/
theorem restoreState : AssertionFree (targetRestoreState A t) := by
  refine StopsFor.bind ?_ fun _ => (hA.execAll _).bind fun _ => StopsFor.bind ?_ fun _ => hA.changeOscr _
  · exact stopsFor_ite (fun _ => (hA.writeReg t _ _).bind fun _ => (hA.writeReg t _ _).bind fun _ =>
      hA.writeWord t _ _) fun _ => stopsFor_pure
  · exact stopsFor_ite
      (fun _ => (hA.write _ _ _).bind fun _ => (hA.write _ _ _).bind fun _ =>
        (hA.write _ _ _).bind fun _ => (hA.write _ _ _).bind fun _ => hA.write _ _ _)
      fun _ => (hA.write _ _ _).bind fun _ => (hA.write _ _ _).bind fun _ => hA.write _ _ _

/-- The state is saved without an assertion when the processor stops. -/
theorem saveContext : AssertionFree (Mcprog.saveContext A t) :=
  stopsFor_emit.bind fun _ => assertionFree_calls (hA.saveState t)

/-- The state is restored without an assertion before the processor goes on. -/
theorem restoreContext : AssertionFree (Mcprog.restoreContext A t) :=
  stopsFor_emit.bind fun _ => assertionFree_calls (hA.restoreState t)

/-- A step of the program asserts nothing. -/
theorem stepProgram : AssertionFree (Mcprog.stepProgram A) := by
  refine stopsFor_emit.bind fun _ => ?_
  cases hstep : A.stepCpu with
  | some step => exact assertionFree_calls (stopsFor_request (hA.stepCpu step hstep))
  | none => exact assertionFree_calls (hA.write _ _ _)

/-- The start of the program asserts nothing. -/
theorem runProgram : AssertionFree (Mcprog.runProgram A) := by
  refine stopsFor_emit.bind fun _ => ?_
  cases hrun : A.runCpu with
  | some run => exact assertionFree_calls (stopsFor_request (hA.runCpu run hrun))
  | none => exact assertionFree_calls (hA.write _ _ _)

/-- `target_is_stopped` asserts nothing. -/
theorem isStopped : AssertionFree (targetIsStopped A t) := by
  have hnote : AssertionFree (noteStop A t) :=
    stopsFor_ite (fun _ => (assertionFree_calls (stopsFor_lift hA.stopCpu)).bind fun _ =>
      hA.saveContext _) fun _ => stopsFor_pure
  exact (assertionFree_calls (stopsFor_lift hA.cpuStopped)).bind fun _ =>
    stopsFor_ite (fun _ => hnote.bind fun _ => (assertionFree_calls stopsFor_getOscr).bind fun _ =>
      stopsFor_pure) fun _ => stopsFor_pure

/-- `target_stop` asserts nothing. -/
theorem stop : AssertionFree (targetStop A t) :=
  stopsFor_ite (fun _ => (assertionFree_calls (stopsFor_lift hA.stopCpu)).bind fun _ =>
    (hA.saveContext _).bind fun _ => (assertionFree_calls (hA.readWord _)).bind fun _ => stopsFor_pure)
    fun _ => stopsFor_pure

/-- `target_step` asserts nothing. -/
theorem step : AssertionFree (targetStep A t) :=
  stopsFor_ite (fun _ => stopsFor_pure) fun _ => (hA.restoreContext t).bind fun _ =>
    hA.stepProgram.bind fun _ => hA.saveContext t

/-- `target_resume` asserts nothing. -/
theorem resume : AssertionFree (targetResume A t) :=
  stopsFor_ite (fun _ => stopsFor_pure) fun _ => (hA.restoreContext t).bind fun _ =>
    hA.runProgram.bind fun _ => stopsFor_pure

/-- `target_run` asserts nothing. -/
theorem run (addr : Word) : AssertionFree (targetRun A t addr) :=
  stopsFor_ite (fun _ => stopsFor_pure) fun _ => (hA.restoreContext _).bind fun _ =>
    hA.runProgram.bind fun _ => stopsFor_pure

/-- `target_restart` asserts nothing. -/
theorem restart : AssertionFree (targetRestart A t) :=
  (stopsFor_ite (fun _ => stopsFor_pure) fun _ => hA.restoreContext t).bind fun _ =>
    stopsFor_emit.bind fun _ => (assertionFree_calls (stopsFor_lift hA.resetCpu)).bind fun _ =>
    stopsFor_pure

end Adapter.Unasserting

end Mcprog
