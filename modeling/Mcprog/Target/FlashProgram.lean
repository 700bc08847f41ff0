import Mcprog.Target.FlashErase

/-!
# Programming flash memory

The block operations of `target.c` that store words into flash memory, for each width
of the bus and each set of commands, and the repeated programming of one word.
-/

namespace Mcprog

open Interaction

variable {σ : Type}

/-- The arguments of a method that programs a block. -/
def Target.programArgs (t : Target) (base addr : Word) (data : List Word) : ProgramArgs :=
  { base := base, addr := addr, data := data, addrOdd := t.flashAddrOdd,
    addrEven := t.flashAddrEven, cmdAA := t.flashCmdAA, cmd55 := t.flashCmd55,
    cmdA0 := t.flashCmdA0 }

/-- Program one word: three unlock stores and the word. -/
def programWord (A : Adapter σ) (t : Target) (base addr data : Word) : Action σ Unit :=
  targetWriteNwords A t (base + t.flashAddrOdd, t.flashCmdAA)
    [(base + t.flashAddrEven, t.flashCmd55), (base + t.flashAddrOdd, t.flashCmdA0), (addr, data)]

/-- Program consecutive words one by one. -/
def programWords (A : Adapter σ) (t : Target) (base : Word) : List Word → Word → Action σ Unit
  | [], _ => pure ()
  | word :: words, addr => do
    programWord A t base addr word
    programWords A t base words (addr + 4)

/-- Program the four bytes of each word, with the unlock sequence bypassed. -/
def programBytes (A : Adapter σ) (t : Target) : List Word → Word → Action σ Unit
  | [], _ => pure ()
  | word :: words, addr => do
    targetWrite2Bytes A t addr t.flashCmdA0 addr word
    targetWrite2Bytes A t (addr + 1) t.flashCmdA0 (addr + 1) (word >>> 8)
    targetWrite2Bytes A t (addr + 2) t.flashCmdA0 (addr + 2) (word >>> 16)
    targetWrite2Bytes A t (addr + 3) t.flashCmdA0 (addr + 3) (word >>> 24)
    programBytes A t words (addr + 4)

/-- Program a block over a bus of 8 bits. -/
def targetProgramBlock8 (A : Adapter σ) (t : Target) (addr base nwords : Word)
    (data : Nat → Word) : Action σ Unit := do
  targetWrite2Bytes A t (base + t.flashAddrOdd) t.flashCmdAA (base + t.flashAddrEven) t.flashCmd55
  targetWriteByte A t (base + t.flashAddrOdd) t.flashCmd20
  programBytes A t (wordsOf nwords.toNat data) addr
  targetWrite2Bytes A t base t.flashCmd90 base 0

/-- Program a block over a bus of 32 bits. -/
def targetProgramBlock32 (A : Adapter σ) (t : Target) (addr base nwords : Word)
    (data : Nat → Word) : Action σ Unit :=
  match A.programBlock32 with
  | some program =>
    blockLoop (fun addr words => extension (program (t.programArgs base addr words)) fun _ =>
      .programBlock32 (t.programArgs base addr words))
      A.programBlockWords nwords.toNat nwords addr data
  | none => programWords A t base (wordsOf nwords.toNat data) addr

/-- Send a command and read the status, `timeout` times and once more. -/
def pollCommand (A : Adapter σ) (t : Target) (addr cmd mask : Word) : Nat → Action σ Bool
  | 0 => do
    targetWriteWord A t addr cmd
    let _ ← targetReadWord A addr
    return false
  | timeout + 1 => do
    targetWriteWord A t addr cmd
    let status ← targetReadWord A addr
    if status = mask then pure true else pollCommand A t addr cmd mask timeout

/-- Store consecutive words, each with its own access. -/
def writeWords (A : Adapter σ) (t : Target) : List Word → Word → Action σ Unit
  | [], _ => pure ()
  | word :: words, addr => do
    targetWriteWord A t addr word
    writeWords A t words (addr + 4)

/-- Fill the buffer of a Micron chip with `n + 1` words and let it program them. -/
def programBuffer (A : Adapter σ) (t : Target) (sectorAddr addr : Word) (n : Nat)
    (data : Nat → Word) : Action σ Unit :=
  match A.programBlock32Micron with
  | some program =>
    extension (program addr (wordsOf (n + 1) data)) fun _ =>
      .programBlock32Micron addr (wordsOf (n + 1) data)
  | none => do
    targetWriteWord A t sectorAddr ((BitVec.ofNat 32 n <<< 16) ||| BitVec.ofNat 32 n)
    writeWords A t (wordsOf (n + 1) data) addr
    targetWriteWord A t sectorAddr 0xd0d0d0d0

/-- Program the words by buffers of at most 16. The fuel bounds the number of buffers. -/
def programBuffers (A : Adapter σ) (t : Target) (sectorAddr : Word) :
    Nat → Word → Word → (Nat → Word) → Action σ Bool
  | 0, nwords, _, _ => if nwords > 0 then Program.stop .fuel else pure true
  | fuel + 1, nwords, addr, data =>
    if nwords > 0 then do
      if ← pollCommand A t sectorAddr 0xe8e8e8e8 (statusMask t) 10000 then do
        let n := if nwords < 16 then (nwords - 1).toNat else 15
        programBuffer A t sectorAddr addr n data
        programBuffers A t sectorAddr fuel (nwords - BitVec.ofNat 32 (n + 1))
          (addr + BitVec.ofNat 32 (n + 1) * 4) fun i => data (n + 1 + i)
      else
        pure false
    else
      pure true

/-- Program a block of Micron chips. Every timeout ends in the mode for reading as well. -/
def targetProgramBlock32Micron (A : Adapter σ) (t : Target) (addr nwords : Word)
    (data : Nat → Word) : Action σ Unit := do
  let sectorAddr := addr &&& ~~~(t.sectorSize - 1)
  if ← programBuffers A t sectorAddr nwords.toNat nwords addr data then
    if ← pollStatus A sectorAddr (statusMask t) 10000 then
      let _ ← pollCommand A t sectorAddr 0x70707070 (statusMask t) 10000
  targetWriteWord A t sectorAddr 0xffffffff

/-- The words of a page of Atmel chips. -/
def atmelPage : Nat := 128

/-- Program a page with the methods of the adapter. -/
def programPagePackets (A : Adapter σ) (t : Target) (protect : ProgramArgs → Extension σ Unit)
    (base addr : Word) (data : Nat → Word) : Action σ Unit := do
  let args := t.programArgs base addr (wordsOf atmelPage data)
  match A.programBlock32Unprotect with
  | some unprotect => extension (unprotect args) fun _ => .programBlock32Unprotect args
  | none => Program.stop .nullMethod
  extension (protect args) fun _ => .programBlock32Protect args

/-- Program a page by stores: unlock it without protection, store it, and once more with
protection. -/
def programPageWords (A : Adapter σ) (t : Target) (base addr : Word) (data : Nat → Word) :
    Action σ Unit := do
  targetWriteNwords A t (base + t.flashAddrOdd, t.flashCmdAA)
    [(base + t.flashAddrEven, t.flashCmd55), (base + t.flashAddrOdd, 0x80808080),
      (base + t.flashAddrOdd, t.flashCmdAA), (base + t.flashAddrEven, t.flashCmd55),
      (base + t.flashAddrOdd, 0x20202020)]
  targetWriteBlock A t addr (BitVec.ofNat 32 atmelPage) data
  targetWriteNwords A t (base + t.flashAddrOdd, t.flashCmdAA)
    [(base + t.flashAddrEven, t.flashCmd55), (base + t.flashAddrOdd, t.flashCmdA0)]
  targetWriteBlock A t addr (BitVec.ofNat 32 atmelPage) data

/-- The page loop over the methods of the adapter. It ends with the page in which the
words end. The fuel bounds the number of pages. -/
def pagePacketsLoop (A : Adapter σ) (t : Target) (protect : ProgramArgs → Extension σ Unit)
    (base : Word) : Nat → Word → Word → (Nat → Word) → Action σ Unit
  | 0, nwords, _, _ => if nwords > 0 then Program.stop .fuel else pure ()
  | fuel + 1, nwords, addr, data =>
    if nwords > 0 then do
      programPagePackets A t protect base addr data
      if nwords ≤ 128 then
        pure ()
      else
        pagePacketsLoop A t protect base fuel (nwords - 128) (addr + 128 * 4)
          fun i => data (atmelPage + i)
    else
      pure ()

/-- The page loop by stores. Nothing but a counter of 0 ends it. -/
def pageWordsLoop (A : Adapter σ) (t : Target) (base : Word) :
    Nat → Word → Word → (Nat → Word) → Action σ Unit
  | 0, _, _, _ => Program.stop .fuel
  | fuel + 1, nwords, addr, data =>
    if nwords > 0 then do
      programPageWords A t base addr data
      pageWordsLoop A t base fuel (nwords - 128) (addr + 128 * 4) fun i => data (atmelPage + i)
    else
      pure ()

/-- Program a block of Atmel chips page by page. -/
def targetProgramBlock32Atmel (A : Adapter σ) (t : Target) (addr base nwords : Word)
    (data : Nat → Word) (fuel : Nat) : Action σ Unit :=
  match A.programBlock32Protect with
  | some protect => pagePacketsLoop A t protect base nwords.toNat nwords addr data
  | none => pageWordsLoop A t base fuel nwords addr data

/-- Program a block over a bus of 64 bits. Without a method of the adapter the half of the
bus is that of the first word. -/
def targetProgramBlock64 (A : Adapter σ) (t : Target) (addr base nwords : Word)
    (data : Nat → Word) : Action σ Unit :=
  match A.programBlock64 with
  | some program =>
    blockLoop (fun addr words => extension (program (t.programArgs base addr words)) fun _ =>
      .programBlock64 (t.programArgs base addr words))
      A.programBlockWords nwords.toNat nwords addr data
  | none =>
    let base := if addr &&& 4 ≠ 0 then base + 4 else base
    programWords A t base (wordsOf nwords.toNat data) addr

/-- Program a block of flash memory. -/
def targetProgramBlock (A : Adapter σ) (t : Target) (addr nwords : Word) (data : Nat → Word)
    (fuel : Nat) : Action σ Unit := do
  let base ← t.computeBase addr
  let addr := physical addr
  if t.flashWidth = 8 then
    targetProgramBlock8 A t addr base nwords data
  else if t.flashWidth = 32 then
    if t.micronComSet then
      targetProgramBlock32Micron A t addr nwords data
    else if t.flashDelay ≠ 0 then
      targetProgramBlock32Atmel A t addr base nwords data fuel
    else
      targetProgramBlock32 A t addr base nwords data
  else if t.flashWidth = 64 then
    targetProgramBlock64 A t addr base nwords data
  else
    pure ()

/-- The first byte that is bad: its address and what it should be. A word has four. -/
def badByte : Nat → Word → Word → Word → Word × Word
  | 0, _, expected, addr => (addr, expected &&& 0xFF)
  | n + 1, bad, expected, addr =>
    if bad ≠ 0 ∧ bad &&& 0xFF = 0 then badByte n (bad >>> 8) (expected >>> 8) (addr + 1)
    else (addr, expected &&& 0xFF)

/-- Program one word once more, where the set of commands allows it. -/
def targetFlashRewrite (A : Adapter σ) (t : Target) (addr bad expected : Word) :
    Action σ Bool := do
  let base ← t.computeBase addr
  let addr := physical addr
  if t.flashWidth = 8 then do
    let (addr, byte) := badByte 4 (bad ^^^ expected) expected addr
    targetWrite2Bytes A t (base + t.flashAddrOdd) t.flashCmdAA (base + t.flashAddrEven)
      t.flashCmd55
    targetWrite2Bytes A t (base + t.flashAddrOdd) t.flashCmdA0 addr byte
    return true
  else if t.flashWidth = 32 ∨ t.flashWidth = 64 then
    let base := if t.flashWidth = 64 then base + (addr &&& 4) else base
    if t.flashDelay ≠ 0 then
      pure false
    else do
      programWord A t base addr expected
      return true
  else
    pure true

end Mcprog
