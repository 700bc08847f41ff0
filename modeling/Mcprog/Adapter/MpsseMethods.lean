import Mcprog.Adapter.MpsseReadBlock
import Mcprog.Adapter.PortAdapter

/-!
# The methods of the MPSSE adapter

The methods of `adapter-mpsse.c`, down to the bytes of the bulk transfers. A register write goes
into the buffer only; whatever has to come back is waited for. The block methods keep the cached
control register, which they take and return.
-/

namespace Mcprog

open Interaction Jtag

variable {σ : Type} (pipe : BulkPipe σ)

namespace Mpsse

/-- The level of the high lines: TRST is active low, and the last one is the light. -/
def highOutput (trst sysrst led : Bool) : Byte :=
  (if trst then 0 else 1) ||| (if sysrst then 2 else 0) ||| (if led then 8 else 0)

/-- `mpsse_reset`: set the data bits of the low byte, and those of the high byte. -/
def reset (trst sysrst led : Bool) : UsbAction MpssePort σ Unit := do
  bulkWrite pipe [0x80, 0x08, 0x1b]
  bulkWrite pipe [0x82, highOutput trst sysrst led, 0x0f]

def close (fuel : Nat) : UsbAction MpssePort σ Unit := do
  mpsseFlushOutput pipe fuel
  reset pipe false false false

/-- Reset the controller, and read 32 bits of the register that is selected then. -/
def getIdcode (fuel : Nat) : UsbAction MpssePort σ Word := do
  mpsseSend pipe fuel 6 31 32 0 true
  let idcode ← mpsseRecv pipe fuel
  return idcode.setWidth 32

/-- Send a scan of the instruction register. -/
def sendInstr (fuel : Nat) (newinst : Word) (readFlag : Bool) : UsbAction MpssePort σ Unit :=
  mpsseSend pipe fuel 1 1 4 (newinst.setWidth 64) readFlag

def cpuStopped (fuel : Nat) : UsbAction MpssePort σ Word := do
  sendInstr pipe fuel tapDebugEnable true
  let ir ← mpsseRecv pipe fuel
  return ir.setWidth 32 &&& 4

def oncdRead (fuel : Nat) (reg : Word) (reglen : Nat) : UsbAction MpssePort σ Word := do
  mpsseSend pipe fuel 0 0 (9 + reglen) ((reg ||| BitVec.ofNat 32 irdRead).signExtend 64) true
  let word ← mpsseRecv pipe fuel
  return (word >>> 9).setWidth 32

/-- Wait until the processor enters the debug mode. -/
def stopped (fuel : Nat) : Nat → UsbAction MpssePort σ Unit
  | 0 => Program.stop (.exit 1 "Timeout while entering debug mode\n" [])
  | tries + 1 => do
    sendInstr pipe fuel tapDebugEnable true
    let oldIr ← mpsseRecv pipe fuel
    if oldIr.setWidth 32 = (5 : Word) then pure () else stopped fuel tries

def stopCpu (fuel : Nat) : UsbAction MpssePort σ Unit := do
  sendInstr pipe fuel tapDebugRequest false
  stopped pipe fuel 50

def resetCpu (fuel : Nat) : UsbAction MpssePort σ Unit := do
  mpsseFlushOutput pipe fuel
  reset pipe false true true
  reset pipe false false true

/-- Allow an access to the memory: the control register is written where it changes. -/
def allow (fuel : Nat) (oscr oscrNew : Word) : UsbAction MpssePort σ Unit := do
  if oscrNew ≠ oscr then
    mpsseOncdWrite pipe fuel oscrNew (BitVec.ofNat 32 oncdOscr) 32

/-- One store. -/
def store (fuel : Nat) (addr data : Word) : UsbAction MpssePort σ Unit := do
  mpsseOncdWrite pipe fuel addr (BitVec.ofNat 32 oncdOmar) 32
  mpsseOncdWrite pipe fuel data (BitVec.ofNat 32 oncdOmdr) 32
  mpsseOncdWrite pipe fuel 0 (BitVec.ofNat 32 oncdMem) 0

/-- The stores of `mpsse_write_block`. -/
def storeWords (fuel : Nat) : Word → List Word → UsbAction MpssePort σ Unit
  | _, [] => pure ()
  | addr, word :: data => do
    store pipe fuel addr word
    storeWords fuel (addr + 4) data

/-- The stores of `mpsse_write_nwords`, as the addresses are given. -/
def storeNwords (fuel : Nat) : List (Word × Word) → UsbAction MpssePort σ Unit
  | [] => pure ()
  | (addr, data) :: args => do
    store pipe fuel addr data
    storeNwords fuel args

/-- The stores of `mpsse_program_block32`: three unlock stores before each word. -/
def programWords (fuel : Nat) (args : ProgramArgs) : Word → List Word → UsbAction MpssePort σ Unit
  | _, [] => pure ()
  | addr, word :: data => do
    store pipe fuel (args.base + args.addrOdd) args.cmdAA
    store pipe fuel (args.base + args.addrEven) args.cmd55
    store pipe fuel (args.base + args.addrOdd) args.cmdA0
    store pipe fuel addr word
    programWords fuel args (addr + 4) data

/-- The control register under which an access to the memory is a write. -/
def writable (oscr : Word) : Word := (oscr &&& ~~~oscrRo) ||| oscrSlctMem

def writeBlock (fuel : Nat) (oscr addr : Word) (data : List Word) : UsbAction MpssePort σ Word := do
  allow pipe fuel oscr (writable oscr)
  storeWords pipe fuel addr data
  return writable oscr

def writeNwords (fuel : Nat) (oscr : Word) (args : List (Word × Word)) : UsbAction MpssePort σ Word := do
  allow pipe fuel oscr (writable oscr)
  storeNwords pipe fuel args
  return writable oscr

def programBlock32 (fuel : Nat) (oscr : Word) (args : ProgramArgs) : UsbAction MpssePort σ Word := do
  allow pipe fuel oscr (writable oscr)
  programWords pipe fuel args args.addr args.data
  return writable oscr

end Mpsse

variable {κ α : Type}

/-- A block method of a serial adapter, which returns the cached control register. -/
def serialExtension (m : Word → UsbAction κ σ (Word × α)) : Extension (Attached κ σ) α := fun s =>
  (m s.oscr).handle s.device >>= fun r => .ok (r.1.2, ⟨r.1.1, r.2⟩)

/-- A block method without a reply. -/
def serialStores (m : Word → UsbAction κ σ Word) : Extension (Attached κ σ) Unit :=
  serialExtension fun oscr => do return (← m oscr, ())

/-- The FT2232 adapter over its bulk endpoints. -/
def mpsseAdapter (fuel : Nat) : Adapter (Attached MpssePort σ) where
  close := (Mpsse.close pipe fuel).handle
  getIdcode := (Mpsse.getIdcode pipe fuel).handle
  cpuStopped := (do return (← Mpsse.cpuStopped pipe fuel) ≠ 0 : UsbAction MpssePort σ Bool).handle
  stopCpu := (Mpsse.stopCpu pipe fuel).handle
  resetCpu := (Mpsse.resetCpu pipe fuel).handle
  oncdWrite value reg nbits := (mpsseOncdWrite pipe fuel value (BitVec.ofNat 32 reg) nbits).handle
  oncdRead reg nbits := (Mpsse.oncdRead pipe fuel (BitVec.ofNat 32 reg) nbits).handle
  blockWords := 999999
  programBlockWords := 999999
  stepCpu := none
  runCpu := none
  readBlock := some fun nwords addr => serialExtension fun oscr => do
    let (oscr, words) ← mpsseBlock pipe fuel oscr nwords addr
    return (oscr, fun i => words.getD i 0)
  writeBlock := some fun addr data => serialStores fun oscr => Mpsse.writeBlock pipe fuel oscr addr data
  writeNwords := some fun args => serialStores fun oscr => Mpsse.writeNwords pipe fuel oscr args
  programBlock32 := some fun args => serialStores fun oscr => Mpsse.programBlock32 pipe fuel oscr args
  programBlock32Unprotect := none
  programBlock32Protect := none
  programBlock64 := none
  programBlock32Micron := none
  blockWords_pos _ := by decide
  programBlockWords_pos _ := by decide
  unprotect_of_protect h := by simp at h

end Mcprog
