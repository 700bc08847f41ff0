import Mcprog.Library.Program
import Mcprog.Oncd.Registers

/-!
# The generic JTAG adapter

`adapter_t` of `adapter.h`: the mandatory methods work on the private state of the
adapter and of the device behind it, which is left open, and may end the program;
the extended methods are optional and may also touch the cached control register.
Every method that the program calls is recorded with its arguments and its reply,
so a trace is exactly what went out to the adapter and what came back.
-/

namespace Mcprog

open Interaction

/-- Why a run ends before its time. -/
inductive Fatal
  /-- `exit (status)` after the message, given by its format and its values. -/
  | exit (status : Int) (text : String) (values : List Word)
  /-- A method that the adapter does not have was called. -/
  | nullMethod
  /-- The fuel of a loop without a bound is used up: the program is still in it. -/
  | fuel
  /-- An assertion failed. -/
  | assertion (text : String)
  /-- A memory access outside an array. -/
  | overrun
  deriving DecidableEq, Repr

/-- The arguments of the methods that program a block of 32-bit words. A count and a data
pointer are together the list of the words. -/
structure ProgramArgs where
  base : Word
  addr : Word
  data : List Word
  addrOdd : Word
  addrEven : Word
  cmdAA : Word
  cmd55 : Word
  cmdA0 : Word
  deriving DecidableEq, Repr

/-- One call of an adapter method, with its reply where it has one. -/
inductive Call
  | oncdWrite (val : Word) (reg nbits : Nat)
  | oncdRead (reg nbits : Nat) (val : Word)
  | getIdcode (idcode : Word)
  | cpuStopped (stopped : Bool)
  | stopCpu
  | resetCpu
  | stepCpu
  | runCpu
  | close
  | readBlock (addr : Word) (data : List Word)
  | writeBlock (addr : Word) (data : List Word)
  | writeNwords (args : List (Word × Word))
  | programBlock32 (args : ProgramArgs)
  | programBlock32Unprotect (args : ProgramArgs)
  | programBlock32Protect (args : ProgramArgs)
  | programBlock64 (args : ProgramArgs)
  | programBlock32Micron (addr : Word) (data : List Word)
  deriving DecidableEq, Repr

/-- The adapter's `oscr`, its private state and the device behind it. -/
structure Session (σ : Type) where
  /-- The cached debug control register. -/
  oscr : Word
  /-- Whatever else the adapter and the device hold. -/
  device : σ

/-- A program that talks to an adapter. -/
abbrev Action (σ α : Type) : Type := Program Call (Session σ) Fatal α

/-- A mandatory method with a reply. -/
abbrev Method (σ α : Type) : Type := σ → Except Fatal (α × σ)

/-- An extended method with a reply. -/
abbrev Extension (σ α : Type) : Type := Session σ → Except Fatal (α × Session σ)

/-- The methods of one adapter. A block size goes with the methods that work by
blocks, and the two halves of page programming come together. -/
structure Adapter (σ : Type) where
  close : Method σ Unit
  getIdcode : Method σ Word
  cpuStopped : Method σ Bool
  stopCpu : Method σ Unit
  resetCpu : Method σ Unit
  oncdWrite : Word → Nat → Nat → Method σ Unit
  oncdRead : Nat → Nat → Method σ Word
  blockWords : Word
  programBlockWords : Word
  stepCpu : Option (Extension σ Unit)
  runCpu : Option (Extension σ Unit)
  /-- The reply gives the words of the buffer by their index. -/
  readBlock : Option (Word → Word → Extension σ (Nat → Word))
  writeBlock : Option (Word → List Word → Extension σ Unit)
  writeNwords : Option (List (Word × Word) → Extension σ Unit)
  programBlock32 : Option (ProgramArgs → Extension σ Unit)
  programBlock32Unprotect : Option (ProgramArgs → Extension σ Unit)
  programBlock32Protect : Option (ProgramArgs → Extension σ Unit)
  programBlock64 : Option (ProgramArgs → Extension σ Unit)
  programBlock32Micron : Option (Word → List Word → Extension σ Unit)
  blockWords_pos : readBlock.isSome ∨ writeBlock.isSome → 0 < blockWords
  programBlockWords_pos : programBlock32.isSome ∨ programBlock64.isSome → 0 < programBlockWords
  unprotect_of_protect : programBlock32Protect.isSome → programBlock32Unprotect.isSome

variable {σ α : Type}

/-- A mandatory method leaves the cached control register alone. -/
def Method.lift (f : Method σ α) : Extension σ α := fun s =>
  match f s.device with
  | .error e => .error e
  | .ok (a, d) => .ok (a, { s with device := d })

/-- A granted mandatory method changes the device only. -/
theorem Method.lift_ok {f : Method σ α} {s s' : Session σ} {a : α}
    (h : f.lift s = .ok (a, s')) : f s.device = .ok (a, s'.device) ∧ s'.oscr = s.oscr := by
  unfold Method.lift at h
  split at h
  · simp at h
  · rename_i b d hf
    simp only [Except.ok.injEq, Prod.mk.injEq] at h
    rw [hf, ← h.2, h.1]
    exact ⟨rfl, rfl⟩

/-- `adapter->oncd_write (adapter, val, reg, nbits)`. -/
def oncdWrite (A : Adapter σ) (val : Word) (reg nbits : Nat) : Action σ Unit :=
  Program.request (A.oncdWrite val reg nbits).lift fun _ => .oncdWrite val reg nbits

/-- `adapter->oncd_read (adapter, reg, nbits)`. -/
def oncdRead (A : Adapter σ) (reg nbits : Nat) : Action σ Word :=
  Program.request (A.oncdRead reg nbits).lift fun val => .oncdRead reg nbits val

/-- `exit (status)` after a message. -/
def fatal (status : Int) (text : String) (values : List Word) : Action σ α :=
  Program.stop (.exit status text values)

/-- The cached `adapter->oscr`. -/
def getOscr : Action σ Word := do
  return (← Program.read).oscr

/-- Assign `adapter->oscr`. -/
def setOscr (oscr : Word) : Action σ Unit :=
  Program.update fun s => { s with oscr := oscr }

/-- A register write is one call. -/
theorem oncdWrite_trace {A : Adapter σ} {val : Word} {reg nbits : Nat} {s s' : Session σ}
    {u : Unit} {tr : List Call} (h : (oncdWrite A val reg nbits).Returns s u tr s') :
    tr = [.oncdWrite val reg nbits] :=
  (Program.returns_request_iff.mp h).2

/-- A register read is one call. -/
theorem oncdRead_trace {A : Adapter σ} {reg nbits : Nat} {s s' : Session σ}
    {val : Word} {tr : List Call} (h : (oncdRead A reg nbits).Returns s val tr s') :
    tr = [.oncdRead reg nbits val] :=
  (Program.returns_request_iff.mp h).2

end Mcprog
