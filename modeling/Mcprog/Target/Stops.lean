import Mcprog.Library.Effects
import Mcprog.Target.FlashProgram

/-!
# Why the accesses to memory stop

An access to memory stops for the reasons of the adapter, or after it has waited too long. So no
reason of a caller is among those for which the accesses that it makes stop.
-/

namespace Mcprog

open Interaction Program

variable {σ α : Type} {A : Adapter σ} {F : Fatal → Prop}

/-- The reasons of the accesses to memory themselves are among those in `F`. -/
structure HasTimeouts (F : Fatal → Prop) : Prop where
  fuel : F .fuel
  reading : ∀ values, F (.exit 1 "Timeout reading memory, aborted. OSCR=%#x\n" values)
  writing : ∀ values, F (.exit 1 "Timeout writing memory, aborted. OSCR=%#x\n" values)
  region : ∀ values, F (.exit 1 "target: no flash region for address 0x%08X\n" values)

/-- The accesses to the registers of OnCD stop only for the reasons in `F`. -/
structure Adapter.RegistersStop (A : Adapter σ) (F : Fatal → Prop) : Prop where
  oncdWrite : ∀ val reg nbits d e, A.oncdWrite val reg nbits d = .error e → F e
  oncdRead : ∀ reg nbits d e, A.oncdRead reg nbits d = .error e → F e

/-- The methods for access to memory stop only for the reasons in `F`. -/
structure Adapter.StopsOnly (A : Adapter σ) (F : Fatal → Prop) : Prop where
  oncdWrite : ∀ val reg nbits d e, A.oncdWrite val reg nbits d = .error e → F e
  oncdRead : ∀ reg nbits d e, A.oncdRead reg nbits d = .error e → F e
  readBlock : ∀ f, A.readBlock = some f → ∀ n addr s e, f n addr s = .error e → F e
  writeNwords : ∀ f, A.writeNwords = some f → ∀ args s e, f args s = .error e → F e

/-- A mandatory method stops for the reasons of the device. -/
theorem stopsFor_lift {f : Method σ α} {event : α → Call} (h : ∀ d e, f d = .error e → F e) :
    StopsFor (Program.request f.lift event : Action σ α) F := by
  refine stopsFor_request fun s e he => ?_
  rw [Method.lift] at he
  cases hf : f s.device with
  | error e' =>
    rw [hf] at he
    obtain rfl := Except.error.inj he
    exact h _ _ hf
  | ok r =>
    rw [hf] at he
    cases he

/-- The variable of the session is looked at without an end of the program. -/
theorem stopsFor_getOscr : StopsFor (getOscr : Action σ Word) F :=
  stopsFor_read.bind fun _ => stopsFor_pure

/-- The variable of the session is set without an end of the program. -/
theorem stopsFor_setOscr (oscr : Word) : StopsFor (setOscr oscr : Action σ Unit) F := stopsFor_update

section Loops

variable (hF : HasTimeouts F)

include hF

/-- A read in blocks ends as its method does, or for the fuel. -/
theorem stopsFor_readBlocks {read : Word → Word → Extension σ (Nat → Word)}
    (h : ∀ n addr s e, read n addr s = .error e → F e) (blockWords : Word) (fuel : Nat)
    (nwords addr : Word) : StopsFor (readBlocks read blockWords fuel nwords addr) F := by
  induction fuel generalizing nwords addr with
  | zero => exact stopsFor_ite (fun _ => stopsFor_stop hF.fuel) fun _ => stopsFor_pure
  | succ fuel ih =>
    exact stopsFor_ite (fun _ => (stopsFor_request (h _ _)).bind fun _ => (ih _ _).bind fun _ =>
      stopsFor_pure) fun _ => stopsFor_pure

/-- A loop over blocks ends as its method does, or for the fuel. -/
theorem stopsFor_blockLoop {method : Word → List Word → Action σ Unit}
    (h : ∀ addr words, StopsFor (method addr words) F) (blockWords : Word) (fuel : Nat)
    (nwords addr : Word) (data : Nat → Word) :
    StopsFor (blockLoop method blockWords fuel nwords addr data) F := by
  induction fuel generalizing nwords addr data with
  | zero => exact stopsFor_ite (fun _ => stopsFor_stop hF.fuel) fun _ => stopsFor_pure
  | succ fuel ih =>
    exact stopsFor_ite (fun _ => (h _ _).bind fun _ => ih _ _ _) fun _ => stopsFor_pure

/-- There may be no flash memory at the address. -/
theorem stopsFor_computeBase (t : Target) (addr : Word) :
    StopsFor (t.computeBase addr : Action σ Word) F := by
  unfold Target.computeBase
  cases t.findRegion (physical addr) with
  | some r => exact stopsFor_pure
  | none => exact stopsFor_stop (hF.region _)

end Loops

namespace Adapter.RegistersStop

variable (hA : A.RegistersStop F) (hF : HasTimeouts F) (t : Target)

include hA

/-- A debug register is written, and the adapter may end the program. -/
theorem write (val : Word) (reg nbits : Nat) : StopsFor (Mcprog.oncdWrite A val reg nbits) F :=
  stopsFor_lift (hA.oncdWrite val reg nbits)

/-- A debug register is read, and the adapter may end the program. -/
theorem read (reg nbits : Nat) : StopsFor (Mcprog.oncdRead A reg nbits) F :=
  stopsFor_lift (hA.oncdRead reg nbits)

/-- The memory may not become ready in time. -/
theorem waitReady {timeout : String} (hF : ∀ values, F (.exit 1 timeout values)) (count : Nat) :
    StopsFor (Mcprog.waitReady A timeout count) F := by
  induction count with
  | zero => exact stopsFor_getOscr.bind fun _ => stopsFor_stop (hF _)
  | succ count ih =>
    refine (hA.read _ _).bind fun oscr => (stopsFor_setOscr oscr).bind fun _ => ?_
    exact stopsFor_ite (fun _ => stopsFor_pure) fun _ => ih

/-- The control register is changed by the adapter alone. -/
theorem allowMemory (f : Word → Word) : StopsFor (Mcprog.allowMemory A f) F :=
  stopsFor_getOscr.bind fun _ => stopsFor_ite
    (fun _ => (stopsFor_setOscr _).bind fun _ => hA.write _ _ _) fun _ => stopsFor_pure

include hF

/-- A word may not be read in time. -/
theorem readNext (addr : Word) : StopsFor (targetReadNext A addr) F :=
  (hA.write _ _ _).bind fun _ => (hA.write _ _ _).bind fun _ =>
    (hA.waitReady hF.reading _).bind fun _ => hA.read _ _

/-- The same of a word that is read by itself. -/
theorem readWord (addr : Word) : StopsFor (targetReadWord A addr) F :=
  (hA.allowMemory _).bind fun _ => hA.readNext hF _

/-- The same of words one after the other, by induction on their number. -/
theorem readNexts (n : Nat) (addr : Word) : StopsFor (Mcprog.readNexts A n addr) F := by
  induction n generalizing addr with
  | zero => exact stopsFor_pure
  | succ n ih => exact (hA.readNext hF _).bind fun _ => (ih _).bind fun _ => stopsFor_pure

/-- A block is read by its method, or word by word. -/
theorem block_read
    (h : ∀ f, A.readBlock = some f → ∀ n addr s e, f n addr s = .error e → F e) (addr nwords : Word) :
    StopsFor (targetReadBlock A addr nwords) F := by
  unfold targetReadBlock
  cases hread : A.readBlock with
  | some read => exact stopsFor_readBlocks hF (h read hread) _ _ _ _
  | none => exact (hA.allowMemory _).bind fun _ => hA.readNexts hF _ _

/-- A word may not be stored in time. -/
theorem writeNext (addr data : Word) : StopsFor (targetWriteNext A t addr data) F :=
  (hA.write _ _ _).bind fun _ => (hA.write _ _ _).bind fun _ => (hA.write _ _ _).bind fun _ =>
    stopsFor_ite (fun _ => hA.waitReady hF.writing _) fun _ => stopsFor_pure

/-- The same of a word that is stored by itself. -/
theorem writeWord (addr data : Word) : StopsFor (targetWriteWord A t addr data) F :=
  (hA.allowMemory _).bind fun _ => hA.writeNext hF t _ _

/-- The same of words one after the other, by induction on them. -/
theorem writeNexts (args : List (Word × Word)) : StopsFor (Mcprog.writeNexts A t args) F := by
  induction args with
  | nil => exact stopsFor_pure
  | cons a args ih => exact (hA.writeNext hF t _ _).bind fun _ => ih

/-- The same of words at consecutive addresses. -/
theorem writeNextWords (words : List Word) (addr : Word) :
    StopsFor (Mcprog.writeNextWords A t words addr) F := by
  induction words generalizing addr with
  | nil => exact stopsFor_pure
  | cons word words ih => exact (hA.writeNext hF t _ _).bind fun _ => ih _

end Adapter.RegistersStop

namespace Adapter.StopsOnly

variable (hA : A.StopsOnly F) (hF : HasTimeouts F) (t : Target)

include hA

/-- All that is needed of an adapter to access the debug registers. -/
theorem registers : A.RegistersStop F := ⟨hA.oncdWrite, hA.oncdRead⟩

include hF

/-- Words are stored by their method, or one after the other. -/
theorem nwords (first : Word × Word) (rest : List (Word × Word)) :
    StopsFor (targetWriteNwords A t first rest) F := by
  unfold targetWriteNwords
  cases hwrite : A.writeNwords with
  | some write => exact stopsFor_request (hA.writeNwords write hwrite _)
  | none =>
    exact (hA.registers.writeWord hF t _ _).bind fun _ => hA.registers.writeNexts hF t _

/-- Two bytes are stored by two words. -/
theorem write2Bytes (addr₁ data₁ addr₂ data₂ : Word) :
    StopsFor (targetWrite2Bytes A t addr₁ data₁ addr₂ data₂) F := by
  have hnext : ∀ addr data, StopsFor (targetWriteNext A t addr data) F :=
    hA.registers.writeNext hF t
  unfold targetWrite2Bytes
  cases A.writeNwords with
  | some write => exact hA.nwords hF t _ _
  | none =>
    exact (hA.registers.writeWord hF t _ _).bind fun _ => (hnext _ _).bind fun _ =>
      (hnext _ _).bind fun _ => hnext _ _

/-- A word is programmed again by the same accesses. -/
theorem flashRewrite (addr bad expected : Word) :
    StopsFor (targetFlashRewrite A t addr bad expected) F := by
  refine StopsFor.bind (stopsFor_computeBase hF t _) fun base => stopsFor_ite (fun _ => ?_) fun _ =>
    stopsFor_ite (fun _ => stopsFor_ite (fun _ => stopsFor_pure) fun _ => ?_) fun _ => stopsFor_pure
  · exact (hA.write2Bytes hF t _ _ _ _).bind fun _ => (hA.write2Bytes hF t _ _ _ _).bind fun _ =>
      stopsFor_pure
  · exact (hA.nwords hF t _ _).bind fun _ => stopsFor_pure

end Adapter.StopsOnly

end Mcprog
