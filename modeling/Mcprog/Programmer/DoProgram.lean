import Mcprog.Loader.Readers
import Mcprog.Remote.Methods
import Mcprog.Target.FlashDetect
import Mcprog.Target.FlashErase
import Mcprog.Target.FlashProgram

/-!
# Programming a file

`mcprog` where it is given a file: the file is loaded, the device is opened, stopped and
configured, and the image is programmed or written and read back block by block. What ends
with an exit status other than 0 stops early.
-/

namespace Mcprog

open Interaction Cells Program

variable {σ : Type}

/-- `BLOCKSZ`. -/
def blockSz : Nat := 1024

/-- `DEFAULT_ADDR`. -/
def defaultAddr : Word := 0xBFC00000

/-- `memory_data`, `memory_len` and `memory_base`. -/
structure MemoryImage where
  data : Image
  len : Int
  base : Word

/-- A word of the image, the low byte first. -/
def MemoryImage.word (mem : MemoryImage) (offset : Nat) : Word :=
  setBytes 0 0 [mem.data offset, mem.data (offset + 1), mem.data (offset + 2), mem.data (offset + 3)]

def mc12Rev1Id : Word := 0x30777001
def mc12Rev2Id : Word := 0x40777001

/-- How often the processor is asked for its id code. -/
def resetRetry : Nat := 100

/-- Ask for the id code, and reset the processor where there is no answer. -/
def retryIdcode (A : Adapter σ) : Nat → Word → Action σ Word
  | 0, idcode => pure idcode
  | n + 1, _ => do
    let idcode ← adapterCall A.getIdcode .getIdcode
    if idcode = 0xffffffff ∨ idcode = 0 then do
      adapterCall A.resetCpu fun _ => .resetCpu
      retryIdcode A n idcode
    else pure idcode

/-- Open the device behind an adapter that has been found. -/
def targetOpen (A : Adapter σ) : Action σ Target := do
  let idcode ← retryIdcode A resetRetry 0
  if idcode = mc12Id ∨ idcode = mc12Rev1Id ∨ idcode = mc12Rev2Id then
    return { Target.allocated with idcode, isRunning := true }
  else do
    adapterCall A.close fun _ => .close
    fatal 1 "No response from device -- unknown idcode 0x%08X!\n" [idcode]

/-- What a parameter of the board asks for in the configuration file. -/
inductive Setting
  /-- A word is stored at an address. -/
  | store (addr word : Word)
  /-- The register for the flash memory is set. -/
  | cscon3 (word : Word)
  /-- A region of flash memory is added. -/
  | flash (first last : Word)
  /-- The parameter or its value is not known. -/
  | unknown (text : String)
  deriving DecidableEq, Repr

/-- Carry out one parameter. -/
def configureParameter (A : Adapter σ) (t : Target) : Setting → Action σ Target
  | .store addr word => do
    targetWriteWord A t addr word
    return t
  | .cscon3 word => do
    targetWriteWord A t mcCscon3 word
    return { t with cscon3 := word }
  | .flash first last => t.flashConfigure first last
  | .unknown text => fatal (-1) text []

/-- Set up the registers for the board: its parameters in their order. -/
def configure (A : Adapter σ) : Target → List Setting → Action σ Target
  | t, [] => pure t
  | t, setting :: settings => do
    let t ← configureParameter A t setting
    configure A t settings

/-- Open, stop and configure the device. -/
def openDevice (A : Adapter σ) (settings : List Setting) : Control σ Target := do
  let t ← calls (targetOpen A)
  let t ← targetStop A t
  calls (configure A t settings)

/-- What `verify_block` says of a word that is not as expected. -/
def verifyError {α : Type} (addr expected word : Word) : Action σ α :=
  fatal 1 "\nerror at address %08X: file=%08X, mem=%08X\n" [addr, expected, word]

/-- The body of the loop of `verify_block`: program a word again and read it. -/
def rewriteWord (A : Adapter σ) (t : Target) (verifyOnly : Bool) (addr expected word : Word) :
    Action σ Word :=
  if verifyOnly then verifyError addr expected word
  else do
    if ← targetFlashRewrite A t addr word expected then targetReadWord A addr
    else verifyError addr expected word

/-- `verify_block` at one word: program it again until it is as expected. The fourth time is one
too many, whatever is read then. -/
def verifyWord (A : Adapter σ) (t : Target) (verifyOnly : Bool) (addr expected : Word) :
    Nat → Word → Action σ Unit
  | 0, word =>
    if word = expected then pure ()
    else do
      let word ← rewriteWord A t verifyOnly addr expected word
      verifyError addr expected word
  | tries + 1, word =>
    if word = expected then pure ()
    else do
      let word ← rewriteWord A t verifyOnly addr expected word
      verifyWord A t verifyOnly addr expected tries word

/-- The words of a block, each with its address and what it should be. -/
def verifyWords (A : Adapter σ) (t : Target) (verifyOnly : Bool) (mem : MemoryImage) :
    Nat → List Word → Action σ Unit
  | _, [] => pure ()
  | offset, word :: words => do
    verifyWord A t verifyOnly (mem.base + BitVec.ofNat 32 offset) (mem.word offset) 3 word
    verifyWords A t verifyOnly mem (offset + 4) words

/-- `verify_block`. -/
def verifyBlock (A : Adapter σ) (t : Target) (verifyOnly : Bool) (mem : MemoryImage)
    (addr len : Nat) : Action σ Unit := do
  let block ← targetReadBlock A (mem.base + BitVec.ofNat 32 addr) (BitVec.ofNat 32 ((len + 3) / 4))
  verifyWords A t verifyOnly mem addr block

/-- `program_block`. -/
def programBlock (A : Adapter σ) (t : Target) (mem : MemoryImage) (fuel addr len : Nat) :
    Action σ Unit :=
  targetProgramBlock A t (mem.base + BitVec.ofNat 32 addr) (BitVec.ofNat 32 ((len + 3) / 4))
    (fun i => mem.word (addr + 4 * i)) fuel

/-- `write_block`. -/
def writeBlock (A : Adapter σ) (t : Target) (mem : MemoryImage) (addr len : Nat) : Action σ Unit :=
  targetWriteBlock A t (mem.base + BitVec.ofNat 32 addr) (BitVec.ofNat 32 ((len + 3) / 4))
    fun i => mem.word (addr + 4 * i)

/-- The length of the block at an address of the image. -/
def blockLen (len : Int) (addr : Nat) : Nat := min blockSz (len.toNat - addr)

/-- The loop of `do_program` and of `do_write` over the blocks: store a block unless it is only
to be verified, and read it back. -/
def eachBlock (A : Adapter σ) (t : Target) (verifyOnly : Bool) (mem : MemoryImage)
    (store : Nat → Nat → Action σ Unit) : List Nat → Action σ Unit
  | [] => pure ()
  | k :: ks => do
    let addr := blockSz * k
    let len := blockLen mem.len addr
    (if verifyOnly then pure () else store addr len)
    verifyBlock A t verifyOnly mem addr len
    eachBlock A t verifyOnly mem store ks

/-- The numbers of the blocks of the image. -/
def blocks (len : Int) : List Nat := List.range ((len.toNat + (blockSz - 1)) / blockSz)

/-- A command line with a file. -/
structure Invocation where
  /-- `-e`, or -1 where it is not given. -/
  eraseMode : Int
  /-- `-v`. -/
  verifyOnly : Bool
  /-- `-w`. -/
  memoryWriteMode : Bool
  /-- `-g`, or the default. -/
  startAddr : Word
  /-- What the file contains. -/
  file : List Byte
  /-- The name of the file taken as a number. -/
  fileNumber : Word
  /-- The second argument. -/
  address : Option Word
  /-- The parameters of the board in the configuration file. -/
  settings : List Setting
  /-- What the variables for the codes of the flash memory hold. -/
  codes : FlashId

/-- The file that is the only argument: the formats are tried one after the other. -/
def readFile (file : List Byte) : Load Int := do
  let len ← readSrec file
  if len ≠ 0 then return len
  else do
    let len ← readHex file
    if len ≠ 0 then return len
    else do
      Program.update fun l => { l with memoryBase := defaultAddr }
      readBin file

/-- The file and the address are the arguments. -/
def readBinAt (address : Word) (file : List Byte) : Load Int := do
  Program.update fun l => { l with memoryBase := address }
  readBin file

/-- What is loaded: nothing where the only argument is taken as an address to erase. -/
def Invocation.load (inv : Invocation) : Option (Load Int) :=
  match inv.address with
  | some address => some (readBinAt address inv.file)
  | none => if inv.eraseMode = 1 then none else some (readFile inv.file)

/-- The image that a loader leaves behind, or why there is none. -/
def loaded (m : Load Int) (l : LoadState) : Except Fatal MemoryImage :=
  match (m l).result with
  | .error e => .error e
  | .ok len => .ok ⟨(m l).state.output, len, (m l).state.memoryBase⟩

/-- The mode in which the flash memory is erased. -/
def Invocation.erase (inv : Invocation) : Int := if inv.eraseMode < 0 then 1 else inv.eraseMode

/-- Erase the flash memory before it is programmed. A failure to erase it goes unnoticed. -/
def eraseFlash (A : Adapter σ) (inv : Invocation) (t : Target) (mem : MemoryImage) (fuel : Nat) :
    Action σ Unit :=
  if inv.verifyOnly then pure ()
  else if inv.erase = 1 then do
    let _ ← targetErase A t mem.base fuel
    return ()
  else if inv.erase = 2 then do
    let _ ← targetEraseArea A t mem.base (BitVec.ofInt 32 mem.len) fuel
    return ()
  else pure ()

/-- How `do_program` and `do_erase` start: they look for flash memory. -/
def probeFlash (A : Adapter σ) (inv : Invocation) (base : Word) : Control σ Detection := do
  let t ← openDevice A inv.settings
  calls (targetFlashDetect A t base inv.codes)

/-- `do_program`. Where there is no flash memory it returns. -/
def doProgram (A : Adapter σ) (inv : Invocation) (mem : MemoryImage) (fuel : Nat) :
    Control σ Target := do
  let d ← probeFlash A inv mem.base
  if d.found.isSome then do
    calls (eraseFlash A inv d.target mem fuel)
    calls (eachBlock A d.target inv.verifyOnly mem (programBlock A d.target mem fuel)
      (blocks mem.len))
    return d.target
  else return d.target

/-- `do_write`. -/
def doWrite (A : Adapter σ) (inv : Invocation) (mem : MemoryImage) : Control σ Target := do
  let t ← openDevice A inv.settings
  calls (eachBlock A t inv.verifyOnly mem (writeBlock A t mem) (blocks mem.len))
  return t

/-- `do_erase`. -/
def doErase (A : Adapter σ) (inv : Invocation) (base : Word) (fuel : Nat) : Control σ Target := do
  let d ← probeFlash A inv base
  if d.found.isSome then do
    let _ ← calls (targetErase A d.target base fuel)
    return d.target
  else return d.target

/-- `quit`. -/
def quit (A : Adapter σ) (t : Target) (startAddr : Word) : Control σ Unit := do
  let t ← targetRun A t startAddr
  let _ ← targetClose A t
  return ()

/-- Program or write a loaded file. -/
def programFile (A : Adapter σ) (inv : Invocation) (image : Except Fatal MemoryImage) (fuel : Nat) :
    Control σ MemoryImage :=
  match image with
  | .error e => Program.stop e
  | .ok mem => do
    let t ← (if inv.memoryWriteMode then doWrite A inv mem else doProgram A inv mem fuel)
    quit A t inv.startAddr
    return mem

/-- The part of `main` after the options, for one argument or two. A run that answers ends with
the exit status 0; the answer is the image in memory. -/
def mcprog (A : Adapter σ) (inv : Invocation) (l : LoadState) (fuel : Nat) : Control σ MemoryImage :=
  match inv.load with
  | some m => programFile A inv (loaded m l) fuel
  | none => do
    let t ← doErase A inv inv.fileNumber fuel
    quit A t inv.startAddr
    return ⟨l.output, 0, inv.fileNumber⟩

end Mcprog
