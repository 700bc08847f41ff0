import Mcprog.Target.Breakpoint
import Mcprog.Target.Follows

/-!
# Control of the processor over an adapter that stands for another one

The registers of the stopped processor, its state saved and restored, and the operations that stop
it and let it go.
-/

namespace Mcprog

open Interaction Program

variable {σ τ α : Type} {R : σ → τ → Prop} {A : Nat → Adapter σ} {B : Adapter τ}

namespace StandsFor

variable (h : StandsFor R A B) (t : Target)

include h

/-- The comparators are placed in the same order. -/
theorem placeComparators (obcr omlr0 omlr1 : Word) : Follow R (fun fuel => Mcprog.placeComparators (A fuel) obcr omlr0 omlr1)
    (Mcprog.placeComparators B obcr omlr0 omlr1) :=
  (h.oncdWrite _ (by decide) (by decide)).bind fun _ => (h.oncdWrite _ (by decide) (by decide)).bind fun _ =>
    (h.oncdWrite _ (by decide) (by decide)).bind fun _ => h.oncdWrite _ (by decide) (by decide)

/-- `target_add_break`, on both. -/
theorem targetAddBreak (addr : Word) (type : Char) :
    Follow R (fun fuel => Mcprog.targetAddBreak (A fuel) addr type) (Mcprog.targetAddBreak B addr type) := by
  refine (h.oncdRead (by decide) (by decide)).bind fun obcr => Tracks.ite (fun _ => ?_) fun _ => h.placeComparators _ _ _
  exact (h.oncdRead (by decide) (by decide)).bind fun omlr1 => h.placeComparators _ _ _

/-- The comparators are written in the same order. -/
theorem writeComparators (obcr omlr0 omlr1 : Word) : Follow R (fun fuel => Mcprog.writeComparators (A fuel) obcr omlr0 omlr1)
    (Mcprog.writeComparators B obcr omlr0 omlr1) :=
  (h.oncdWrite _ (by decide) (by decide)).bind fun _ => (h.oncdWrite _ (by decide) (by decide)).bind fun _ =>
    h.oncdWrite _ (by decide) (by decide)

/-- `target_remove_break`, on both. -/
theorem targetRemoveBreak (addr : Word) :
    Follow R (fun fuel => Mcprog.targetRemoveBreak (A fuel) addr) (Mcprog.targetRemoveBreak B addr) := by
  refine (h.oncdRead (by decide) (by decide)).bind fun obcr => (h.oncdRead (by decide) (by decide)).bind fun omlr0 =>
    (h.oncdRead (by decide) (by decide)).bind fun omlr1 => ?_
  refine Tracks.ite (fun _ => ?_) fun _ => Tracks.ite (fun _ => ?_) fun _ => tracks_pure ()
  · exact Tracks.ite (fun _ => h.writeComparators _ _ _) fun _ => h.writeComparators _ _ _
  · exact Tracks.ite (fun _ => h.writeComparators _ _ _) fun _ => h.writeComparators _ _ _

/-- An instruction is put into the pipeline and stepped over. -/
theorem targetExec (instr : Word) :
    Follow R (fun fuel => Mcprog.targetExec (A fuel) instr) (Mcprog.targetExec B instr) :=
  (h.oncdWrite _ (by decide) (by decide)).bind fun _ => (h.oncdWrite _ (by decide) (by decide)).bind fun _ =>
    h.oncdWrite _ (by decide) (by decide)

/-- Instructions one after the other, by induction on them. -/
theorem execAll (instrs : List Word) :
    Follow R (fun fuel => Mcprog.execAll (A fuel) instrs) (Mcprog.execAll B instrs) := by
  induction instrs with
  | nil => exact tracks_pure ()
  | cons instr instrs ih => exact (h.targetExec instr).bind fun _ => ih

/-- A register is read from its group. -/
theorem regfRead (group : Word) (n : RegNo) :
    Follow R (fun fuel => Mcprog.regfRead (A fuel) group n) (Mcprog.regfRead B group n) :=
  (h.oncdWrite _ (by decide) (by decide)).bind fun _ => h.oncdRead (by decide) (by decide)

/-- A register is written to its group. -/
theorem regfWrite (group : Word) (n : RegNo) (val : Word) :
    Follow R (fun fuel => Mcprog.regfWrite (A fuel) group n val) (Mcprog.regfWrite B group n val) :=
  (h.oncdWrite _ (by decide) (by decide)).bind fun _ => h.oncdWrite _ (by decide) (by decide)

/-- A register of the processor is read, on the oldest one by an instruction. -/
theorem targetReadReg (regno : RegNo) :
    Follow R (fun fuel => Mcprog.targetReadReg (A fuel) t regno) (Mcprog.targetReadReg B t regno) :=
  Tracks.ite (fun _ => h.regfRead _ _) fun _ => (h.execAll _).bind fun _ => h.targetReadWord _

/-- A register of the processor is written, on the oldest one by instructions. -/
theorem targetWriteReg (regno : RegNo) (val : Word) :
    Follow R (fun fuel => Mcprog.targetWriteReg (A fuel) t regno val) (Mcprog.targetWriteReg B t regno val) :=
  Tracks.ite (fun _ => h.regfWrite _ _ _) fun _ => h.execAll _

/-- A register of coprocessor 0 is read, on the oldest processor by way of the frame pointer. -/
theorem targetReadCp0 (regno : RegNo) :
    Follow R (fun fuel => Mcprog.targetReadCp0 (A fuel) t regno) (Mcprog.targetReadCp0 B t regno) :=
  Tracks.ite (fun _ => h.regfRead _ _) fun _ => (h.execAll _).bind fun _ => h.targetReadReg t _

/-- A register of coprocessor 0 is written, on the oldest processor by way of the frame pointer. -/
theorem targetWriteCp0 (regno : RegNo) (val : Word) :
    Follow R (fun fuel => Mcprog.targetWriteCp0 (A fuel) t regno val) (Mcprog.targetWriteCp0 B t regno val) :=
  Tracks.ite (fun _ => h.regfWrite _ _ _) fun _ => (h.targetWriteReg t _ _).bind fun _ => h.execAll _

/-- A register of the floating point unit is read, on the oldest processor by an instruction. -/
theorem targetReadFpu (regno : RegNo) :
    Follow R (fun fuel => Mcprog.targetReadFpu (A fuel) t regno) (Mcprog.targetReadFpu B t regno) :=
  Tracks.ite (fun _ => h.regfRead _ _) fun _ => (h.execAll _).bind fun _ => h.targetReadWord _

/-- A register of the floating point unit is written, on the oldest processor by way of the frame pointer. -/
theorem targetWriteFpu (regno : RegNo) (val : Word) :
    Follow R (fun fuel => Mcprog.targetWriteFpu (A fuel) t regno val) (Mcprog.targetWriteFpu B t regno val) :=
  Tracks.ite (fun _ => h.regfWrite _ _ _) fun _ => (h.targetWriteReg t _ _).bind fun _ => h.execAll _

/-- A control register of the floating point unit is read. -/
theorem targetReadFpuctl (regno : RegNo) :
    Follow R (fun fuel => Mcprog.targetReadFpuctl (A fuel) t regno) (Mcprog.targetReadFpuctl B t regno) :=
  Tracks.ite (fun _ => h.regfRead _ _) fun _ => (h.execAll _).bind fun _ => h.targetReadReg t _

/-- A control register of the floating point unit is written. -/
theorem targetWriteFpuctl (regno : RegNo) (val : Word) :
    Follow R (fun fuel => Mcprog.targetWriteFpuctl (A fuel) t regno val) (Mcprog.targetWriteFpuctl B t regno val) :=
  Tracks.ite (fun _ => h.regfWrite _ _ _) fun _ => (h.targetWriteReg t _ _).bind fun _ => h.execAll _

/-- Whatever a number stands for is read. -/
theorem targetLoadSlot (slot : Slot) :
    Follow R (fun fuel => Mcprog.targetLoadSlot (A fuel) t slot) (Mcprog.targetLoadSlot B t slot) := by
  cases slot with
  | cpu i => exact h.targetReadReg t i
  | cp0 i => exact h.targetReadCp0 t i
  | lo => exact Tracks.ite (fun _ => h.regfRead _ _) fun _ => (h.targetExec _).bind fun _ => h.targetReadReg t _
  | hi => exact Tracks.ite (fun _ => h.regfRead _ _) fun _ => (h.targetExec _).bind fun _ => h.targetReadReg t _
  | fpu i => exact h.targetReadFpu t i
  | fcsr => exact h.targetReadFpuctl t _
  | fir => exact h.targetReadFpuctl t _

/-- A half of the product is written by an instruction. -/
theorem targetWriteHilo (n : RegNo) (instr val : Word) :
    Follow R (fun fuel => Mcprog.targetWriteHilo (A fuel) t n instr val) (Mcprog.targetWriteHilo B t n instr val) :=
  Tracks.ite (fun _ => h.regfWrite _ _ _) fun _ => (h.targetWriteReg t _ _).bind fun _ => h.execAll _

/-- Whatever a number stands for is written. -/
theorem targetStoreSlot (val : Word) (slot : Slot) :
    Follow R (fun fuel => Mcprog.targetStoreSlot (A fuel) t val slot) (Mcprog.targetStoreSlot B t val slot) := by
  cases slot with
  | cpu i => exact h.targetWriteReg t i val
  | cp0 i => exact h.targetWriteCp0 t i val
  | lo => exact h.targetWriteHilo t _ _ val
  | hi => exact h.targetWriteHilo t _ _ val
  | fpu i => exact h.targetWriteFpu t i val
  | fcsr => exact h.targetWriteFpuctl t _ val
  | fir => exact tracks_pure ()

/-- `target_read_register`, for every number. -/
theorem targetReadRegister (regno : Nat) :
    Follow R (fun fuel => Mcprog.targetReadRegister (A fuel) t regno) (Mcprog.targetReadRegister B t regno) := by
  refine Tracks.ite (fun _ => tracks_pure _) fun _ => ?_
  cases slotOf regno with
  | none => exact tracks_pure _
  | some slot =>
    cases hcached : t.cached slot with
    | some val =>
      simp only [hcached]
      exact tracks_pure _
    | none =>
      simp only [hcached]
      exact (h.targetLoadSlot t slot).bind fun val => tracks_pure _

/-- `target_write_register`, for every number. -/
theorem targetWriteRegister (regno : Nat) (val : Word) :
    Follow R (fun fuel => Mcprog.targetWriteRegister (A fuel) t regno val) (Mcprog.targetWriteRegister B t regno val) := by
  refine Tracks.ite (fun _ => tracks_pure _) fun _ => ?_
  cases slotOf regno with
  | none => exact tracks_pure _
  | some slot =>
    exact Tracks.ite (fun _ => (h.targetStoreSlot t val slot).bind fun _ => tracks_pure _) fun _ => tracks_pure _

/-- The register is read, and written back with other bits. -/
theorem changeOscr (f : Word → Word) :
    Follow R (fun fuel => Mcprog.changeOscr (A fuel) f) (Mcprog.changeOscr B f) :=
  follow_getOscr.bind fun _ => (follow_setOscr _).bind fun _ => h.oncdWrite _ (by decide) (by decide)

/-- The steps that empty the pipeline, by induction on their number. -/
theorem drainPipeline (n : Nat) (exception : Word) :
    Follow R (fun fuel => Mcprog.drainPipeline (A fuel) n exception) (Mcprog.drainPipeline B n exception) := by
  induction n generalizing exception with
  | zero => exact tracks_pure _
  | succ n ih =>
    refine (h.targetExec _).bind fun _ => Tracks.ite (fun _ => ?_) fun _ => ih _
    exact (h.oncdRead (by decide) (by decide)).bind fun pc => ih _

/-- The exception that waits is found while the pipeline is emptied. -/
theorem pendingException (pcExec : Word) :
    Follow R (fun fuel => Mcprog.pendingException (A fuel) pcExec) (Mcprog.pendingException B pcExec) :=
  Tracks.ite (fun _ => h.drainPipeline _ _) fun _ => tracks_pure _

/-- What the accesses to registers overwrite is saved. -/
theorem saveScratch : Follow R (fun fuel => Mcprog.saveScratch (A fuel) t) (Mcprog.saveScratch B t) :=
  (h.targetReadWord _).bind fun mem0 => (h.execAll _).bind fun _ =>
    (h.oncdRead (by decide) (by decide)).bind fun gpVal => (h.execAll _).bind fun _ =>
      (h.targetReadReg _ _).bind fun fpVal => tracks_pure _

/-- `target_save_state`, on both. -/
theorem targetSaveState : Follow R (fun fuel => Mcprog.targetSaveState (A fuel) t) (Mcprog.targetSaveState B t) := by
  refine (h.oncdRead (by decide) (by decide)).bind fun pcFetch => (h.oncdRead (by decide) (by decide)).bind fun pcDec =>
    (h.oncdRead (by decide) (by decide)).bind fun irDec => (h.oncdRead (by decide) (by decide)).bind fun pcExec =>
    (h.oncdRead (by decide) (by decide)).bind fun oscr => (follow_setOscr oscr).bind fun _ =>
    (h.changeOscr _).bind fun _ => (h.pendingException _).bind fun exception => (h.changeOscr _).bind fun _ => ?_
  exact Tracks.ite (fun _ => h.saveScratch _) fun _ => tracks_pure _

/-- What the accesses to registers have overwritten is restored. -/
theorem restoreScratch : Follow R (fun fuel => Mcprog.restoreScratch (A fuel) t) (Mcprog.restoreScratch B t) :=
  (h.targetWriteReg t _ _).bind fun _ => (h.targetWriteReg t _ _).bind fun _ => h.targetWriteWord t _ _

/-- The addresses of the pipeline are restored in the same order. -/
theorem restorePipeline : Follow R (fun fuel => Mcprog.restorePipeline (A fuel) t) (Mcprog.restorePipeline B t) := by
  refine Tracks.ite (fun _ => ?_) fun _ => ?_
  · exact (h.oncdWrite _ (by decide) (by decide)).bind fun _ => (h.oncdWrite _ (by decide) (by decide)).bind fun _ =>
      (h.oncdWrite _ (by decide) (by decide)).bind fun _ => (h.oncdWrite _ (by decide) (by decide)).bind fun _ =>
        h.oncdWrite _ (by decide) (by decide)
  · exact (h.oncdWrite _ (by decide) (by decide)).bind fun _ => (h.oncdWrite _ (by decide) (by decide)).bind fun _ =>
      h.oncdWrite _ (by decide) (by decide)

/-- `target_restore_state`, on both. -/
theorem targetRestoreState :
    Follow R (fun fuel => Mcprog.targetRestoreState (A fuel) t) (Mcprog.targetRestoreState B t) := by
  have hrest : Follow R (fun fuel => do
      Mcprog.execAll (A fuel) [mipsNop, mipsNop, mipsNop]
      Mcprog.restorePipeline (A fuel) t
      Mcprog.changeOscr (A fuel) fun oscr => (oscr ||| oscrNds) &&& ~~~oscrDbm) (do
      Mcprog.execAll B [mipsNop, mipsNop, mipsNop]
      Mcprog.restorePipeline B t
      Mcprog.changeOscr B fun oscr => (oscr ||| oscrNds) &&& ~~~oscrDbm) :=
    (h.execAll _).bind fun _ => (h.restorePipeline t).bind fun _ => h.changeOscr _
  exact (Tracks.ite (fun _ => h.restoreScratch t) fun _ => tracks_pure ()).bind fun _ => hrest

/-- The state is saved, and the save is marked. -/
theorem saveContext : Follow R (fun fuel => Mcprog.saveContext (A fuel) t) (Mcprog.saveContext B t) :=
  (tracks_emit _).bind fun _ => (h.targetSaveState t).mapEvents _

/-- The state is restored, and that is marked. -/
theorem restoreContext : Follow R (fun fuel => Mcprog.restoreContext (A fuel) t) (Mcprog.restoreContext B t) :=
  (tracks_emit _).bind fun _ => (h.targetRestoreState t).mapEvents _

/-- One step of the program. -/
theorem stepProgram : Follow R (fun fuel => Mcprog.stepProgram (A fuel)) (Mcprog.stepProgram B) := by
  rcases h.shared_stepCpu with ⟨g, g', hg, hg', hcall⟩ | ⟨hg, hg'⟩
  · simp only [Mcprog.stepProgram, hg, hg']
    exact (tracks_emit _).bind fun _ => (hcall () _).mapEvents _
  · simp only [Mcprog.stepProgram, hg, hg']
    exact (tracks_emit _).bind fun _ => (h.oncdWrite _ (by decide) (by decide)).mapEvents _

/-- The program runs. -/
theorem runProgram : Follow R (fun fuel => Mcprog.runProgram (A fuel)) (Mcprog.runProgram B) := by
  rcases h.shared_runCpu with ⟨g, g', hg, hg', hcall⟩ | ⟨hg, hg'⟩
  · simp only [Mcprog.runProgram, hg, hg']
    exact (tracks_emit _).bind fun _ => (hcall () _).mapEvents _
  · simp only [Mcprog.runProgram, hg, hg']
    exact (tracks_emit _).bind fun _ => (h.oncdWrite _ (by decide) (by decide)).mapEvents _

/-- The state is saved when the processor is found stopped. -/
theorem noteStop : Follow R (fun fuel => Mcprog.noteStop (A fuel) t) (Mcprog.noteStop B t) :=
  Tracks.ite (fun _ => ((h.stopCpu _).mapEvents _).bind fun _ => h.saveContext _) fun _ => tracks_pure _

/-- `target_is_stopped` asks the processor, and goes on as the answer says. -/
theorem targetIsStopped : Follow R (fun fuel => Mcprog.targetIsStopped (A fuel) t) (Mcprog.targetIsStopped B t) := by
  refine ((h.cpuStopped _).mapEvents _).bind fun stopped => Tracks.ite (fun _ => ?_) fun _ => tracks_pure _
  exact (h.noteStop t).bind fun _ => (follow_getOscr.mapEvents _).bind fun _ => tracks_pure _

/-- `target_stop`, on both. -/
theorem targetStop : Follow R (fun fuel => Mcprog.targetStop (A fuel) t) (Mcprog.targetStop B t) := by
  refine Tracks.ite (fun _ => ?_) fun _ => tracks_pure _
  exact ((h.stopCpu _).mapEvents _).bind fun _ => (h.saveContext _).bind fun _ =>
    ((h.targetReadWord _).mapEvents _).bind fun _ => tracks_pure _

/-- `target_step`, on both. -/
theorem targetStep : Follow R (fun fuel => Mcprog.targetStep (A fuel) t) (Mcprog.targetStep B t) :=
  Tracks.ite (fun _ => tracks_pure _) fun _ => (h.restoreContext t).bind fun _ =>
    h.stepProgram.bind fun _ => h.saveContext t

/-- `target_resume`, on both. -/
theorem targetResume : Follow R (fun fuel => Mcprog.targetResume (A fuel) t) (Mcprog.targetResume B t) :=
  Tracks.ite (fun _ => tracks_pure _) fun _ => (h.restoreContext t).bind fun _ =>
    h.runProgram.bind fun _ => tracks_pure _

/-- `target_run` sets the program counter before it resumes. -/
theorem targetRun (addr : Word) : Follow R (fun fuel => Mcprog.targetRun (A fuel) t addr) (Mcprog.targetRun B t addr) :=
  Tracks.ite (fun _ => tracks_pure _) fun _ => (h.restoreContext _).bind fun _ =>
    h.runProgram.bind fun _ => tracks_pure _

/-- `target_restart` resets the processor, and stops it again. -/
theorem targetRestart : Follow R (fun fuel => Mcprog.targetRestart (A fuel) t) (Mcprog.targetRestart B t) := by
  refine (Tracks.ite (fun _ => tracks_pure ()) fun _ => h.restoreContext t).bind fun _ => (tracks_emit _).bind fun _ => ?_
  exact ((h.resetCpu _).mapEvents _).bind fun _ => tracks_pure _

/-- `target_close` leaves the processor running. -/
theorem targetClose : Follow R (fun fuel => Mcprog.targetClose (A fuel) t) (Mcprog.targetClose B t) := by
  refine (Tracks.ite (fun _ => tracks_pure t) fun _ => h.targetResume t).bind fun t => ?_
  exact ((h.adapterClose _).mapEvents _).bind fun _ => tracks_pure _

end StandsFor

end Mcprog
