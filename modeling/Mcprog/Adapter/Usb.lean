import Mcprog.Adapter.Interface

/-!
# Packets of the USB-JTAG adapter

The builders of `adapter-usb.c` fill a packet with commands of six bytes, each made by
`fill_pkt`. In a block operation the address is sent once and every further data
command is one memory cycle at the next word; this is what `packetWrites` reads off.
-/

namespace Mcprog

/-- One command of a packet: the code, the register number and the data. -/
structure UsbCommand where
  cmd : Byte
  reg : Nat
  data : Word
  deriving DecidableEq, Repr

/-- The code of a command for a data register. -/
def hdr (bits : Byte) : Byte := 0x7c ^^^ bits

def h32 : Byte := 0x30
def hTrst : Byte := 0x08
def hBlkWr : Byte := 0x01
def hBlkRd : Byte := 0x02
def hBlkEnd : Byte := 0x03
def hSnglWr : Byte := 0x09
def hSnglRd : Byte := 0x0a
def hSnglEnd : Byte := 0x0b

/-- The codes `h_wr`, `h_rd` and `h_end`, which depend on `-d`. -/
structure UsbMode where
  wr : Byte
  rd : Byte
  last : Byte
  deriving DecidableEq, Repr

/-- Block operations. -/
def blockMode : UsbMode := ⟨hBlkWr, hBlkRd, hBlkEnd⟩

/-- Single operations. -/
def singleMode : UsbMode := ⟨hSnglWr, hSnglRd, hSnglEnd⟩

variable (m : UsbMode)

/-- The two commands that write one word: its address and its value. -/
def wordCommands (addr data : Word) : List UsbCommand :=
  [⟨hdr (h32 ||| m.wr), oncdOmar, addr⟩, ⟨hdr (h32 ||| m.last), oncdOmdr, data⟩]

/-- The command that ends a packet: read `OSCR`. -/
def statusCommand : UsbCommand := ⟨hdr h32, oncdOscr ||| irdRead, 0⟩

/-- The packet of `usb_write_block`. -/
def usbWriteBlock (addr : Word) (data : List Word) : List UsbCommand :=
  ⟨hdr (h32 ||| m.wr), oncdOmar, addr⟩ :: (words data ++ [statusCommand])
where
  /-- The data commands. The last one ends the block. -/
  words : List Word → List UsbCommand
    | [] => []
    | [w] => [⟨hdr (h32 ||| m.last), oncdOmdr, w⟩]
    | w :: v :: ws => ⟨hdr (h32 ||| m.wr), oncdOmdr, w⟩ :: words (v :: ws)

/-- The packet of `usb_write_nwords`. -/
def usbWriteNwords (args : List (Word × Word)) : List UsbCommand :=
  (args.flatMap fun a => wordCommands m a.1 a.2) ++ [statusCommand]

/-- The words of a block, each with its own address. -/
def blockCommands : Word → List Word → List UsbCommand
  | _, [] => []
  | addr, w :: ws => wordCommands m addr w ++ blockCommands (addr + 4) ws

/-- The packet of `usb_program_block32`. -/
def usbProgramBlock32 (p : ProgramArgs) : List UsbCommand :=
  words p.addr p.data ++ [statusCommand]
where
  /-- The three unlock writes, the word and a delay. -/
  words : Word → List Word → List UsbCommand
    | _, [] => []
    | addr, w :: ws =>
      wordCommands m (p.base + p.addrOdd) p.cmdAA ++
      wordCommands m (p.base + p.addrEven) p.cmd55 ++
      wordCommands m (p.base + p.addrOdd) p.cmdA0 ++
      wordCommands m addr w ++ [⟨hdr h32, oncdOmdr, 0⟩] ++ words (addr + 4) ws

/-- The two packets of `usb_program_block32_unprotect`. -/
def usbProgramBlock32Unprotect (p : ProgramArgs) : List UsbCommand :=
  wordCommands m (p.base + p.addrOdd) p.cmdAA ++
  wordCommands m (p.base + p.addrEven) p.cmd55 ++
  wordCommands m (p.base + p.addrOdd) 0x80808080 ++
  wordCommands m (p.base + p.addrOdd) p.cmdAA ++
  wordCommands m (p.base + p.addrEven) p.cmd55 ++
  wordCommands m (p.base + p.addrOdd) 0x20202020 ++ [statusCommand] ++
  blockCommands m p.addr p.data ++ [statusCommand]

/-- The two packets of `usb_program_block32_protect`. -/
def usbProgramBlock32Protect (p : ProgramArgs) : List UsbCommand :=
  wordCommands m (p.base + p.addrOdd) p.cmdAA ++
  wordCommands m (p.base + p.addrEven) p.cmd55 ++
  wordCommands m (p.base + p.addrOdd) p.cmdA0 ++ [statusCommand] ++
  blockCommands m p.addr p.data ++ [statusCommand]

/-- The packet of `usb_program_block64`. The half of the bus is taken anew for each word. -/
def usbProgramBlock64 (p : ProgramArgs) : List UsbCommand :=
  words p.addr p.data ++ [statusCommand]
where
  /-- The three unlock writes and the word. -/
  words : Word → List Word → List UsbCommand
    | _, [] => []
    | addr, w :: ws =>
      wordCommands m (p.base + p.addrOdd + (addr &&& 4)) p.cmdAA ++
      wordCommands m (p.base + p.addrEven + (addr &&& 4)) p.cmd55 ++
      wordCommands m (p.base + p.addrOdd + (addr &&& 4)) p.cmdA0 ++
      wordCommands m addr w ++ words (addr + 4) ws

/-- The packet of `usb_program_block32_micron`, for at least one word. -/
def usbProgramBlock32Micron (addr : Word) (data : List Word) : List UsbCommand :=
  wordCommands m (addr &&& 0xFFC00000)
    ((BitVec.ofNat 32 (data.length - 1) <<< 16) ||| BitVec.ofNat 32 (data.length - 1)) ++
  blockCommands m addr data ++
  wordCommands m (addr &&& 0xFFC00000) 0x00d000d0 ++ [statusCommand]

/-- The kind of a command: the low two bits of its code. -/
def UsbCommand.kind (c : UsbCommand) : Byte := c.cmd &&& 3

/-- The writes that a packet makes, from the address latched before it. A block address
latches, and each block datum is written at the latched address and moves it on. -/
def packetWritesFrom : Word → List UsbCommand → List (Word × Word)
  | _, [] => []
  | latch, c :: cs =>
    if c.kind = hBlkWr ∧ c.reg = oncdOmar then packetWritesFrom c.data cs
    else if (c.kind = hBlkWr ∨ c.kind = hBlkEnd) ∧ c.reg = oncdOmdr then
      (latch, c.data) :: packetWritesFrom (latch + 4) cs
    else packetWritesFrom latch cs

/-- The writes that a packet makes. -/
def packetWrites (cs : List UsbCommand) : List (Word × Word) := packetWritesFrom 0 cs

/-- The modes that the program uses. -/
def UsbMode.Valid : Prop := m = blockMode ∨ m = singleMode

/-- The writes of a block at consecutive words. -/
def consecutive : Word → List Word → List (Word × Word)
  | _, [] => []
  | addr, w :: ws => (addr, w) :: consecutive (addr + 4) ws

variable {m} {latch addr data : Word} {cs : List UsbCommand}

/-- A block in two parts. -/
theorem consecutive_append (addr : Word) (ws ws' : List Word) :
    consecutive addr (ws ++ ws') =
      consecutive addr ws ++ consecutive (addr + BitVec.ofNat 32 ws.length * 4) ws' := by
  induction ws generalizing addr with
  | nil => simp [consecutive]
  | cons w ws ih =>
    have hnext : addr + 4 + BitVec.ofNat 32 ws.length * 4 =
        addr + BitVec.ofNat 32 (ws.length + 1) * 4 := by
      have hone : (1 : Word) * 4 = 4 := rfl
      rw [Nat.add_comm, BitVec.ofNat_add, BitVec.add_mul, ← BitVec.add_assoc]
      rfl
    rw [List.cons_append, consecutive, ih, hnext]
    rfl

theorem UsbMode.Valid.kind_wr (hm : m.Valid) : hdr (h32 ||| m.wr) &&& 3 = hBlkWr := by
  rcases hm with rfl | rfl <;> decide

theorem UsbMode.Valid.kind_last (hm : m.Valid) : hdr (h32 ||| m.last) &&& 3 = hBlkEnd := by
  rcases hm with rfl | rfl <;> decide

/-- A block address is latched. -/
theorem packetWritesFrom_omar (hm : m.Valid) :
    packetWritesFrom latch (⟨hdr (h32 ||| m.wr), oncdOmar, addr⟩ :: cs) =
      packetWritesFrom addr cs := by
  rw [packetWritesFrom, if_pos ⟨hm.kind_wr, rfl⟩]

/-- A block datum is written at the latched address. -/
theorem packetWritesFrom_omdr {cmd : Byte} (h : cmd &&& 3 = hBlkWr ∨ cmd &&& 3 = hBlkEnd) :
    packetWritesFrom latch (⟨cmd, oncdOmdr, data⟩ :: cs) =
      (latch, data) :: packetWritesFrom (latch + 4) cs := by
  rw [packetWritesFrom, if_neg (fun hc => absurd hc.2 (show oncdOmdr ≠ oncdOmar by decide)), if_pos ⟨h, rfl⟩]

/-- Reading the status writes nothing. -/
theorem packetWritesFrom_statusCommand :
    packetWritesFrom latch (statusCommand :: cs) = packetWritesFrom latch cs := by
  rw [packetWritesFrom, if_neg (by decide), if_neg (by decide)]

/-- The two commands of a word are one write. -/
theorem packetWritesFrom_wordCommands (hm : m.Valid) :
    packetWritesFrom latch (wordCommands m addr data ++ cs) =
      (addr, data) :: packetWritesFrom (addr + 4) cs := by
  rw [wordCommands, List.cons_append, packetWritesFrom_omar hm, List.cons_append,
    packetWritesFrom_omdr (Or.inr hm.kind_last), List.nil_append]

/-- A packet of separate words writes each of them. -/
theorem packetWrites_usbWriteNwords (hm : m.Valid) (args : List (Word × Word)) :
    packetWrites (usbWriteNwords m args) = args := by
  have h : ∀ latch, packetWritesFrom latch (usbWriteNwords m args) = args := by
    unfold usbWriteNwords
    induction args with
    | nil => exact fun _ => rfl
    | cons a args ih =>
      intro latch
      rw [List.flatMap_cons, List.append_assoc, packetWritesFrom_wordCommands hm, ih]
  exact h 0

/-- The separate words of a block are written at consecutive addresses, before commands that do not
depend on the latch. -/
theorem packetWritesFrom_blockCommands_append (hm : m.Valid) (ws : List Word)
    (hcs : ∀ l, packetWritesFrom l cs = packetWritesFrom 0 cs) :
    packetWritesFrom latch (blockCommands m addr ws ++ cs) =
      consecutive addr ws ++ packetWritesFrom 0 cs := by
  induction ws generalizing latch addr with
  | nil => exact hcs latch
  | cons w ws ih =>
    rw [blockCommands, List.append_assoc, packetWritesFrom_wordCommands hm, ih, consecutive,
      List.cons_append]

/-- The separate words of a block are written at consecutive addresses. -/
theorem packetWritesFrom_blockCommands (hm : m.Valid) (ws : List Word) :
    packetWritesFrom latch (blockCommands m addr ws ++ [statusCommand]) =
      consecutive addr ws :=
  (packetWritesFrom_blockCommands_append hm ws fun _ => rfl).trans (List.append_nil _)

/-- A block operation writes consecutive words. -/
theorem packetWrites_usbWriteBlock (hm : m.Valid) (addr : Word) (ws : List Word) :
    packetWrites (usbWriteBlock m addr ws) = consecutive addr ws := by
  have h : ∀ latch, packetWritesFrom latch (usbWriteBlock.words m ws ++ [statusCommand]) =
      consecutive latch ws := by
    induction ws with
    | nil => exact fun _ => rfl
    | cons w ws ih =>
      intro latch
      cases ws with
      | nil =>
        rw [usbWriteBlock.words, List.singleton_append,
          packetWritesFrom_omdr (Or.inr hm.kind_last)]
        rfl
      | cons v ws =>
        rw [usbWriteBlock.words, List.cons_append, packetWritesFrom_omdr (Or.inl hm.kind_wr), ih]
        rfl
  rw [packetWrites, usbWriteBlock, packetWritesFrom_omar hm, h]

/-- The command that passes the time writes nothing. -/
theorem packetWritesFrom_delay :
    packetWritesFrom latch (⟨hdr h32, oncdOmdr, 0⟩ :: cs) = packetWritesFrom latch cs := by
  rw [packetWritesFrom, if_neg (by decide), if_neg (by decide)]

/-- The four writes that program one word of a 32-bit flash. -/
def program32Writes (p : ProgramArgs) (addr w : Word) : List (Word × Word) :=
  [(p.base + p.addrOdd, p.cmdAA), (p.base + p.addrEven, p.cmd55), (p.base + p.addrOdd, p.cmdA0),
    (addr, w)]

/-- The packet for a 32-bit flash programs its words one after the other. -/
theorem packetWrites_usbProgramBlock32 (hm : m.Valid) (p : ProgramArgs) :
    packetWrites (usbProgramBlock32 m p) =
      (consecutive p.addr p.data).flatMap fun a => program32Writes p a.1 a.2 := by
  have h : ∀ ws addr latch, packetWritesFrom latch
      (usbProgramBlock32.words m p addr ws ++ [statusCommand]) =
        (consecutive addr ws).flatMap fun a => program32Writes p a.1 a.2 := by
    intro ws
    induction ws with
    | nil => exact fun _ _ => rfl
    | cons w ws ih =>
      intro addr latch
      rw [usbProgramBlock32.words]
      simp only [List.append_assoc, packetWritesFrom_wordCommands hm, List.cons_append,
        List.nil_append, packetWritesFrom_delay, ih]
      rfl
  exact h p.data p.addr 0

/-- The four writes that program one word of a 64-bit flash through its own half. -/
def program64Writes (p : ProgramArgs) (addr w : Word) : List (Word × Word) :=
  [(p.base + p.addrOdd + (addr &&& 4), p.cmdAA), (p.base + p.addrEven + (addr &&& 4), p.cmd55),
    (p.base + p.addrOdd + (addr &&& 4), p.cmdA0), (addr, w)]

/-- The packet for a 64-bit flash programs its words one after the other. -/
theorem packetWrites_usbProgramBlock64 (hm : m.Valid) (p : ProgramArgs) :
    packetWrites (usbProgramBlock64 m p) =
      (consecutive p.addr p.data).flatMap fun a => program64Writes p a.1 a.2 := by
  have h : ∀ ws addr latch, packetWritesFrom latch
      (usbProgramBlock64.words m p addr ws ++ [statusCommand]) =
        (consecutive addr ws).flatMap fun a => program64Writes p a.1 a.2 := by
    intro ws
    induction ws with
    | nil => exact fun _ _ => rfl
    | cons w ws ih =>
      intro addr latch
      rw [usbProgramBlock64.words]
      simp only [List.append_assoc, packetWritesFrom_wordCommands hm, ih]
      rfl
  exact h p.data p.addr 0

/-- The unlock writes of an unprotected page, and its words. -/
theorem packetWrites_usbProgramBlock32Unprotect (hm : m.Valid) (p : ProgramArgs) :
    packetWrites (usbProgramBlock32Unprotect m p) =
      [(p.base + p.addrOdd, p.cmdAA), (p.base + p.addrEven, p.cmd55),
        (p.base + p.addrOdd, 0x80808080), (p.base + p.addrOdd, p.cmdAA),
        (p.base + p.addrEven, p.cmd55), (p.base + p.addrOdd, 0x20202020)] ++
      consecutive p.addr p.data := by
  simp only [packetWrites, usbProgramBlock32Unprotect, List.append_assoc,
    packetWritesFrom_wordCommands hm, packetWritesFrom_statusCommand,
    packetWritesFrom_blockCommands hm, List.cons_append, List.nil_append]

/-- The unlock writes of a protected page, and its words. -/
theorem packetWrites_usbProgramBlock32Protect (hm : m.Valid) (p : ProgramArgs) :
    packetWrites (usbProgramBlock32Protect m p) =
      [(p.base + p.addrOdd, p.cmdAA), (p.base + p.addrEven, p.cmd55),
        (p.base + p.addrOdd, p.cmdA0)] ++ consecutive p.addr p.data := by
  simp only [packetWrites, usbProgramBlock32Protect, List.append_assoc,
    packetWritesFrom_wordCommands hm, packetWritesFrom_statusCommand,
    packetWritesFrom_blockCommands hm, List.cons_append, List.nil_append]

/-- A buffer of Micron chips: the count, the words and the command that confirms them. -/
theorem packetWrites_usbProgramBlock32Micron (hm : m.Valid) (addr : Word) (ws : List Word) :
    packetWrites (usbProgramBlock32Micron m addr ws) =
      (addr &&& 0xFFC00000,
        (BitVec.ofNat 32 (ws.length - 1) <<< 16) ||| BitVec.ofNat 32 (ws.length - 1)) ::
      (consecutive addr ws ++ [(addr &&& 0xFFC00000, 0x00d000d0)]) := by
  have hconfirm : ∀ l, packetWritesFrom l
      (wordCommands m (addr &&& 0xFFC00000) 0x00d000d0 ++ [statusCommand]) =
        [(addr &&& 0xFFC00000, 0x00d000d0)] :=
    fun l => packetWritesFrom_wordCommands hm
  rw [packetWrites, usbProgramBlock32Micron, List.append_assoc, List.append_assoc,
    packetWritesFrom_wordCommands hm,
    packetWritesFrom_blockCommands_append hm ws fun l => (hconfirm l).trans (hconfirm 0).symm,
    hconfirm]

end Mcprog
