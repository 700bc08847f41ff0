import Mcprog.Adapter.Mpsse

/-!
# The FT2232 adapter

The extended methods of the FT2232 adapter go through the debug registers as the mandatory
ones do, so the adapter is made from one that has the mandatory methods only.
-/

namespace Mcprog

open Interaction

variable {σ α : Type}

/-- The loads of `mpsse_read_block`. -/
def mpsseReadWords (A : Adapter σ) : Nat → Word → Action σ (List Word)
  | 0, _ => pure []
  | nwords + 1, addr => do
    oncdWrite A addr oncdOmar 32
    oncdWrite A 0 oncdMem 0
    let word ← oncdRead A oncdOmdr 32
    let words ← mpsseReadWords A nwords (addr + 4)
    return word :: words

/-- Load a block of words. -/
def mpsseReadBlock (A : Adapter σ) (nwords addr : Word) : Action σ (Nat → Word) := do
  allowMemory A fun oscr => oscr ||| oscrSlctMem ||| oscrRo
  let words ← mpsseReadWords A nwords.toNat addr
  return fun i => words.getD i 0

/-- Store a block of words. -/
def mpsseWriteBlock (A : Adapter σ) (addr : Word) (data : List Word) : Action σ Unit := do
  allowMemory A fun oscr => (oscr &&& ~~~oscrRo) ||| oscrSlctMem
  mpsseWords A (consecutive addr data)

/-- Program a block of words, each of them after its three unlock stores. -/
def mpsseProgramBlock32 (A : Adapter σ) (args : ProgramArgs) : Action σ Unit := do
  allowMemory A fun oscr => (oscr &&& ~~~oscrRo) ||| oscrSlctMem
  mpsseWords A ((consecutive args.addr args.data).flatMap fun a =>
    [(args.base + args.addrOdd, args.cmdAA), (args.base + args.addrEven, args.cmd55),
      (args.base + args.addrOdd, args.cmdA0), a])

/-- A program as a method. -/
def method (m : Action σ α) : Extension σ α := fun s =>
  match (m s).result with
  | .ok a => .ok (a, (m s).state)
  | .error e => .error e

/-- The adapter with the mandatory methods of another one. -/
def ft2232 (D : Adapter σ) : Adapter σ :=
  { D with
    blockWords := 999999
    programBlockWords := 999999
    stepCpu := none
    runCpu := none
    readBlock := some fun nwords addr => method (mpsseReadBlock D nwords addr)
    writeBlock := some fun addr data => method (mpsseWriteBlock D addr data)
    writeNwords := some fun args => method (mpsseWriteNwords D args)
    programBlock32 := some fun args => method (mpsseProgramBlock32 D args)
    programBlock32Unprotect := none
    programBlock32Protect := none
    programBlock64 := none
    programBlock32Micron := none
    blockWords_pos := fun _ => by decide
    programBlockWords_pos := fun _ => by decide
    unprotect_of_protect := fun h => nomatch h }

end Mcprog
