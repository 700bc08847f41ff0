import Mcprog.Adapter.Bitbang
import Mcprog.Adapter.Ft2232
import Mcprog.Library.Caller
import Mcprog.Library.TapUnit

/-!
# The processor behind the port

What the methods of an adapter are for: to scan the instruction register and the debug registers
of the processor, with nothing between the program and the test access port. The serial adapters
come to the same through their chips.
-/

namespace Mcprog

open Interaction Jtag

/-- A processor behind the port. After a reset of the port the identification register is selected,
and a reset of the processor comes to the same however long it lasts. -/
structure DebugPort (τ : Type) extends TapUnit τ where
  idcode_selected : ∀ t, instruction.update (reset t) (lowBits tapIdcode 4) = reset t
  hardReset : τ → τ
  hardReset_hardReset : ∀ t, hardReset (hardReset t) = hardReset t

namespace DebugPort

variable {τ : Type} (P : DebugPort τ)

/-- A scan of the register on a side: what comes out of it, and the processor after it. -/
def scan (side : Side) (bits : List Bool) (t : τ) : List Bool × τ :=
  ((P.register side).outputs t bits, (P.register side).update t bits)

/-- Enter an instruction. What was in the register comes out. -/
def instr (newinst : Word) (t : τ) : Word × τ :=
  (ofBits 32 (P.scan .instruction (lowBits newinst 4) t).1, (P.scan .instruction (lowBits newinst 4) t).2)

/-- The bits of a register read. -/
def readBits (reg : Word) (nbits : Nat) : List Bool :=
  lowBits ((reg ||| BitVec.ofNat 32 irdRead).signExtend 64) (9 + nbits)

/-- The bits of a register write. -/
def writeBits (value reg : Word) (nbits : Nat) : List Bool := lowBits (oncdWriteData value reg nbits) (9 + nbits)

/-- Read the identification code. -/
def getIdcode (t : τ) : Word × τ :=
  (ofBits 32 (P.scan .data (List.replicate 32 false) (P.reset t)).1,
    (P.scan .data (List.replicate 32 false) (P.reset t)).2)

/-- Whether the processor is stopped. -/
def cpuStopped (t : τ) : Bool × τ := ((P.instr tapDebugEnable t).1 &&& 4 ≠ 0, (P.instr tapDebugEnable t).2)

/-- Wait until the processor enters the debug mode. -/
def stopped : Nat → Method τ Unit
  | 0, _ => .error (.exit 1 "Timeout while entering debug mode\n" [])
  | tries + 1, t =>
    if (P.instr tapDebugEnable t).1 = 5 then .ok ((), (P.instr tapDebugEnable t).2)
    else stopped tries (P.instr tapDebugEnable t).2

/-- Bring the processor into the debug mode. -/
def stopCpu : Method τ Unit := fun t => P.stopped 50 (P.instr tapDebugRequest t).2

/-- Read a debug register. -/
def oncdRead (reg : Word) (nbits : Nat) (t : τ) : Word × τ :=
  (ofBits 32 ((P.scan .data (readBits reg nbits) t).1.drop 9), (P.scan .data (readBits reg nbits) t).2)

/-- Write a debug register. -/
def oncdWrite (value reg : Word) (nbits : Nat) (t : τ) : τ := (P.scan .data (writeBits value reg nbits) t).2

/-- A method that is not there is no pair's other half. -/
theorem unprotect_of_lacking (τ : Type) (h : (none : Option (ProgramArgs → Extension τ Unit)).isSome) :
    (none : Option (ProgramArgs → Extension τ Unit)).isSome := h

/-- The adapter that has the mandatory methods only. -/
def adapter : Adapter τ where
  close t := .ok ((), t)
  getIdcode t := .ok (P.getIdcode t)
  cpuStopped t := .ok (P.cpuStopped t)
  stopCpu := P.stopCpu
  resetCpu t := .ok ((), P.hardReset t)
  oncdWrite value reg nbits t := .ok ((), P.oncdWrite value (BitVec.ofNat 32 reg) nbits t)
  oncdRead reg nbits t := .ok (P.oncdRead (BitVec.ofNat 32 reg) nbits t)
  blockWords := 0
  programBlockWords := 0
  stepCpu := none
  runCpu := none
  readBlock := none
  writeBlock := none
  writeNwords := none
  programBlock32 := none
  programBlock32Unprotect := none
  programBlock32Protect := none
  programBlock64 := none
  programBlock32Micron := none
  blockWords_pos h := by simp at h
  programBlockWords_pos h := by simp at h
  unprotect_of_protect := unprotect_of_lacking τ

end DebugPort

/-- A call of a method, with its arguments. The number of a register and its flags have nine bits. -/
inductive AdapterCall
  | close
  | getIdcode
  | cpuStopped
  | stopCpu
  | resetCpu
  | oncdWrite (value : Word) (reg : Fin 512) (nbits : RegLen)
  | oncdRead (reg : Fin 512) (nbits : RegLen)
  | stepCpu
  | runCpu
  | readBlock (nwords addr : Word)
  | writeBlock (addr : Word) (data : List Word)
  | writeNwords (args : List (Word × Word))
  | programBlock32 (args : ProgramArgs)
  | programBlock32Unprotect (args : ProgramArgs)
  | programBlock32Protect (args : ProgramArgs)
  | programBlock64 (args : ProgramArgs)
  | programBlock32Micron (addr : Word) (data : List Word)

/-- What the method replies. -/
def AdapterCall.Reply : AdapterCall → Type
  | .getIdcode => Word
  | .cpuStopped => Bool
  | .oncdRead _ _ => Word
  | .readBlock _ _ => Nat → Word
  | _ => Unit

/-- The methods that every adapter has. -/
def AdapterCall.Mandatory : AdapterCall → Prop
  | .close | .getIdcode | .cpuStopped | .stopCpu | .resetCpu | .oncdWrite _ _ _ | .oncdRead _ _ => True
  | _ => False

variable {σ : Type}

/-- A method that an adapter may not have. -/
def optional {α : Type} (m : Option (Extension σ α)) : Extension σ α := m.getD fun _ => .error .nullMethod

/-- The adapter as its callers see it. -/
def Adapter.device (A : Adapter σ) : Device AdapterCall.Reply (Session σ) Fatal
  | .close => A.close.lift
  | .getIdcode => A.getIdcode.lift
  | .cpuStopped => A.cpuStopped.lift
  | .stopCpu => A.stopCpu.lift
  | .resetCpu => A.resetCpu.lift
  | .oncdWrite value reg nbits => (A.oncdWrite value reg.val nbits.val).lift
  | .oncdRead reg nbits => (A.oncdRead reg.val nbits.val).lift
  | .stepCpu => optional A.stepCpu
  | .runCpu => optional A.runCpu
  | .readBlock nwords addr => optional (A.readBlock.map fun m => m nwords addr)
  | .writeBlock addr data => optional (A.writeBlock.map fun m => m addr data)
  | .writeNwords args => optional (A.writeNwords.map fun m => m args)
  | .programBlock32 args => optional (A.programBlock32.map fun m => m args)
  | .programBlock32Unprotect args => optional (A.programBlock32Unprotect.map fun m => m args)
  | .programBlock32Protect args => optional (A.programBlock32Protect.map fun m => m args)
  | .programBlock64 args => optional (A.programBlock64.map fun m => m args)
  | .programBlock32Micron addr data => optional (A.programBlock32Micron.map fun m => m addr data)

variable {τ α : Type} {R : σ → τ → Prop} {s : Session σ} {m : Session τ}

/-- The cached control registers are the same, and the devices stand for each other. -/
def Session.Pairs (R : σ → τ → Prop) (s : Session σ) (m : Session τ) : Prop :=
  s.oscr = m.oscr ∧ R s.device m.device

/-- Mandatory methods that match on their devices match in a session. -/
theorem Session.Pairs.lift {f : Nat → Method σ α} {g : Method τ α} (hs : Session.Pairs R s m)
    (h : Corresponds R (f · s.device) (g m.device)) :
    Corresponds (Session.Pairs R) (fun fuel => (f fuel).lift s) (g.lift m) := by
  unfold Method.lift
  cases hg : g m.device with
  | error e =>
    rw [hg] at h
    obtain ⟨enough, henough⟩ := h
    refine ⟨enough, fun fuel hfuel => ?_⟩
    have hfuel' : f fuel s.device = .error e := henough fuel hfuel
    dsimp only
    rw [hfuel']
  | ok r =>
    obtain ⟨answer, t⟩ := r
    rw [hg] at h
    obtain ⟨d, hd, enough, henough⟩ := h
    refine ⟨{ s with device := d }, ⟨hs.1, hd⟩, enough, fun fuel hfuel => ?_⟩
    have hfuel' : f fuel s.device = .ok (answer, d) := henough fuel hfuel
    dsimp only
    rw [hfuel']

/-- Two adapters that lack a method end the program alike. -/
theorem corresponds_nullMethod : Corresponds (Session.Pairs R) (fun _ => optional (none : Option (Extension σ α)) s)
    (optional (none : Option (Extension τ α)) m) := ⟨0, fun _ _ => rfl⟩

end Mcprog
