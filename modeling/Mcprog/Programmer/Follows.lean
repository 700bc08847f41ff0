import Mcprog.Programmer.Probe
import Mcprog.Target.FollowsControl

/-!
# The programmer over an adapter that stands for another one

A file is programmed, written or verified, and flash memory is erased or looked for, in the same
way over an adapter that stands for another one.
-/

namespace Mcprog

open Interaction Program

variable {σ τ : Type} {R : σ → τ → Prop} {A : Nat → Adapter σ} {B : Adapter τ}

/-- The sections of flash memory are configured in the target alone. -/
theorem follow_flashConfigure (t : Target) (first last : Word) :
    Follow R (fun _ => (t.flashConfigure first last : Action σ Target))
      (t.flashConfigure first last : Action τ Target) := by
  unfold Target.flashConfigure
  cases t.freeRegion with
  | none => exact follow_fatal _ _ _
  | some i => exact tracks_pure _

/-- The loop over the blocks, over what is done with one of them. -/
theorem follow_eachBlock (t : Target) (verifyOnly : Bool) (mem : MemoryImage)
    {store : Nat → Nat → Nat → Action σ Unit} {store' : Nat → Nat → Action τ Unit}
    (hstore : ∀ addr len, Follow R (fun fuel => store fuel addr len) (store' addr len))
    (hverify : ∀ addr len, Follow R (fun fuel => verifyBlock (A fuel) t verifyOnly mem addr len)
      (verifyBlock B t verifyOnly mem addr len)) (ks : List Nat) :
    Follow R (fun fuel => eachBlock (A fuel) t verifyOnly mem (store fuel) ks)
      (eachBlock B t verifyOnly mem store' ks) := by
  induction ks with
  | nil => exact tracks_pure ()
  | cons k ks ih =>
    exact (Tracks.ite (fun _ => tracks_pure ()) fun _ => hstore _ _).bind fun _ => (hverify _ _).bind fun _ => ih

namespace StandsFor

variable (h : StandsFor R A B) (t : Target)

include h

/-- The number of the processor is asked for again, by induction on the tries that are left. -/
theorem retryIdcode (n : Nat) (idcode : Word) :
    Follow R (fun fuel => Mcprog.retryIdcode (A fuel) n idcode) (Mcprog.retryIdcode B n idcode) := by
  induction n generalizing idcode with
  | zero => exact tracks_pure _
  | succ n ih =>
    exact (h.getIdcode _).bind fun idcode =>
      Tracks.ite (fun _ => (h.resetCpu _).bind fun _ => ih idcode) fun _ => tracks_pure _

theorem targetOpen : Follow R (fun fuel => Mcprog.targetOpen (A fuel)) (Mcprog.targetOpen B) := by
  refine (h.retryIdcode _ _).bind fun idcode => Tracks.ite (fun _ => tracks_pure _) fun _ => ?_
  exact (h.adapterClose _).bind fun _ => follow_fatal _ _ _

/-- A parameter of the board stores a word, or changes the target alone. -/
theorem configureParameter (setting : Setting) :
    Follow R (fun fuel => Mcprog.configureParameter (A fuel) t setting) (Mcprog.configureParameter B t setting) := by
  cases setting with
  | store addr word => exact (h.targetWriteWord t _ _).bind fun _ => tracks_pure _
  | cscon3 word => exact (h.targetWriteWord t _ _).bind fun _ => tracks_pure _
  | flash first last => exact follow_flashConfigure t first last
  | unknown text => exact follow_fatal _ _ _

/-- The parameters in their order, by induction on them. -/
theorem configure (settings : List Setting) :
    Follow R (fun fuel => Mcprog.configure (A fuel) t settings) (Mcprog.configure B t settings) := by
  induction settings generalizing t with
  | nil => exact tracks_pure _
  | cons setting settings ih => exact (h.configureParameter t setting).bind fun t => ih t

/-- The target is opened, stopped and configured. -/
theorem openDevice (settings : List Setting) :
    Follow R (fun fuel => Mcprog.openDevice (A fuel) settings) (Mcprog.openDevice B settings) :=
  (h.targetOpen.mapEvents _).bind fun t => (h.targetStop t).bind fun t => (h.configure t _).mapEvents _

/-- A word that differs is programmed again, unless it is only to be verified. -/
theorem rewriteWord (verifyOnly : Bool) (addr expected word : Word) :
    Follow R (fun fuel => Mcprog.rewriteWord (A fuel) t verifyOnly addr expected word)
      (Mcprog.rewriteWord B t verifyOnly addr expected word) := by
  refine Tracks.ite (fun _ => follow_fatal _ _ _) fun _ => (h.targetFlashRewrite t _ _ _).bind fun ok => ?_
  exact Tracks.ite (fun _ => h.targetReadWord _) fun _ => follow_fatal _ _ _

/-- A word is read and compared, by induction on the tries that are left. -/
theorem verifyWord (verifyOnly : Bool) (addr expected : Word) (tries : Nat) (word : Word) :
    Follow R (fun fuel => Mcprog.verifyWord (A fuel) t verifyOnly addr expected tries word)
      (Mcprog.verifyWord B t verifyOnly addr expected tries word) := by
  induction tries generalizing word with
  | zero =>
    exact Tracks.ite (fun _ => tracks_pure ()) fun _ => (h.rewriteWord t _ _ _ _).bind fun _ => follow_fatal _ _ _
  | succ tries ih =>
    exact Tracks.ite (fun _ => tracks_pure ()) fun _ => (h.rewriteWord t _ _ _ _).bind fun word => ih word

/-- The words of a block, by induction on them. -/
theorem verifyWords (verifyOnly : Bool) (mem : MemoryImage) (words : List Word) (offset : Nat) :
    Follow R (fun fuel => Mcprog.verifyWords (A fuel) t verifyOnly mem offset words)
      (Mcprog.verifyWords B t verifyOnly mem offset words) := by
  induction words generalizing offset with
  | nil => exact tracks_pure ()
  | cons word words ih => exact (h.verifyWord t _ _ _ _ _).bind fun _ => ih _

/-- A block is read, and its words are compared. -/
theorem verifyBlock (verifyOnly : Bool) (mem : MemoryImage) (addr len : Nat) :
    Follow R (fun fuel => Mcprog.verifyBlock (A fuel) t verifyOnly mem addr len)
      (Mcprog.verifyBlock B t verifyOnly mem addr len) :=
  (h.targetReadBlock _ _).bind fun _ => h.verifyWords t _ _ _ _

/-- A block of the image is programmed, unless it is empty. -/
theorem programBlock (mem : MemoryImage) (turns addr len : Nat) :
    Follow R (fun fuel => Mcprog.programBlock (A fuel) t mem turns addr len)
      (Mcprog.programBlock B t mem turns addr len) :=
  h.targetProgramBlock t _ _ _ _

theorem writeBlockOf (mem : MemoryImage) (addr len : Nat) :
    Follow R (fun fuel => Mcprog.writeBlock (A fuel) t mem addr len) (Mcprog.writeBlock B t mem addr len) :=
  h.targetWriteBlock t _ _ _

/-- The flash memory is erased as the options say. -/
theorem eraseFlash (inv : Invocation) (mem : MemoryImage) (turns : Nat) :
    Follow R (fun fuel => Mcprog.eraseFlash (A fuel) inv t mem turns) (Mcprog.eraseFlash B inv t mem turns) := by
  refine Tracks.ite (fun _ => tracks_pure ()) fun _ => Tracks.ite (fun _ => ?_) fun _ =>
    Tracks.ite (fun _ => ?_) fun _ => ?_
  · exact (h.targetErase t _ _).bind fun _ => tracks_pure ()
  · exact (h.targetEraseArea t _ _ _).bind fun _ => tracks_pure ()
  · exact tracks_pure ()

/-- The flash memory is detected before it is programmed. -/
theorem probeFlash (inv : Invocation) (base : Word) :
    Follow R (fun fuel => Mcprog.probeFlash (A fuel) inv base) (Mcprog.probeFlash B inv base) :=
  (h.openDevice _).bind fun t => (h.targetFlashDetect t _ _).mapEvents _

theorem doProgram (inv : Invocation) (mem : MemoryImage) (turns : Nat) :
    Follow R (fun fuel => Mcprog.doProgram (A fuel) inv mem turns) (Mcprog.doProgram B inv mem turns) := by
  refine (h.probeFlash inv _).bind fun d => Tracks.ite (fun _ => ?_) fun _ => tracks_pure _
  have hblocks := follow_eachBlock d.target inv.verifyOnly mem (fun addr len => h.programBlock d.target mem turns addr len)
    (fun addr len => h.verifyBlock d.target inv.verifyOnly mem addr len) (blocks mem.len)
  exact ((h.eraseFlash d.target inv mem turns).mapEvents _).bind fun _ => (hblocks.mapEvents _).bind fun _ => tracks_pure _

theorem doWrite (inv : Invocation) (mem : MemoryImage) :
    Follow R (fun fuel => Mcprog.doWrite (A fuel) inv mem) (Mcprog.doWrite B inv mem) := by
  refine (h.openDevice _).bind fun t => ?_
  have hblocks := follow_eachBlock t inv.verifyOnly mem (fun addr len => h.writeBlockOf t mem addr len)
    (fun addr len => h.verifyBlock t inv.verifyOnly mem addr len) (blocks mem.len)
  exact (hblocks.mapEvents _).bind fun _ => tracks_pure _

theorem doErase (inv : Invocation) (base : Word) (turns : Nat) :
    Follow R (fun fuel => Mcprog.doErase (A fuel) inv base turns) (Mcprog.doErase B inv base turns) := by
  refine (h.probeFlash inv _).bind fun d => Tracks.ite (fun _ => ?_) fun _ => tracks_pure _
  exact ((h.targetErase d.target _ _).mapEvents _).bind fun _ => tracks_pure _

/-- The program is left, and the target started where that is asked for. -/
theorem quit (startAddr : Word) : Follow R (fun fuel => Mcprog.quit (A fuel) t startAddr) (Mcprog.quit B t startAddr) :=
  (h.targetRun t _).bind fun t => (h.targetClose t).bind fun _ => tracks_pure ()

/-- A file that has been read is programmed or stored, and one that has not been ends the program. -/
theorem programFile (inv : Invocation) (image : Except Fatal MemoryImage) (turns : Nat) :
    Follow R (fun fuel => Mcprog.programFile (A fuel) inv image turns) (Mcprog.programFile B inv image turns) := by
  cases image with
  | error e => exact tracks_stop e
  | ok mem =>
    have hend (t : Target) : Follow R (fun fuel => do Mcprog.quit (A fuel) t inv.startAddr; return mem)
        (do Mcprog.quit B t inv.startAddr; return mem) := (h.quit t _).bind fun _ => tracks_pure mem
    exact (Tracks.ite (fun _ => h.doWrite inv mem) fun _ => h.doProgram inv mem turns).bind hend

/-- The whole program, from the command line on. -/
theorem mcprog (inv : Invocation) (l : LoadState) (turns : Nat) :
    Follow R (fun fuel => Mcprog.mcprog (A fuel) inv l turns) (Mcprog.mcprog B inv l turns) := by
  unfold Mcprog.mcprog
  cases inv.load with
  | some m => exact h.programFile inv _ turns
  | none => exact (h.doErase inv _ turns).bind fun t => (h.quit t _).bind fun _ => tracks_pure _

/-- The sections are probed one after the other, by induction on the turns that are left. -/
theorem probeRegions (codes : FlashId) (turns : Nat) (addr last : Word) :
    Follow R (fun fuel => Mcprog.probeRegions (A fuel) codes turns t addr last)
      (Mcprog.probeRegions B codes turns t addr last) := by
  induction turns generalizing t addr last with
  | zero => exact tracks_stop _
  | succ turns ih =>
    refine Tracks.ite (fun _ => tracks_pure _) fun _ => ?_
    exact ((h.targetFlashDetect t _ codes).bind fun d => tracks_pure d.target).bind fun t => ih t _ _

theorem doProbe (settings : List Setting) (codes : FlashId) (last : Word) (turns : Nat) :
    Follow R (fun fuel => Mcprog.doProbe (A fuel) settings codes last turns)
      (Mcprog.doProbe B settings codes last turns) :=
  (h.openDevice settings).bind fun t => (h.probeRegions t codes turns _ _).mapEvents _

end StandsFor

end Mcprog
