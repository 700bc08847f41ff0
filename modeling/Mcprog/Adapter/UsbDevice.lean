import Mcprog.Adapter.PacketSizes
import Mcprog.Adapter.PortRam

/-!
# Packets that are carried out

The adapter on the USB carries out the commands of a packet one after the other, as the format of the
packets says, and holds the replies until they are read. The builders of `adapter-usb.c` then do to the
memory what their names say, in whatever order they are called.
-/

namespace Mcprog

open Interaction Program Cells

variable {σ μ : Type} {M : AddressSpace μ} {m : UsbMode} {pipe : BulkPipe σ}

/-- The replies to a command, and what it does. A plain command is for a register. Those of a block operation
keep the address in `OMAR`, which goes on with each word. -/
def AddressSpace.command (M : AddressSpace μ) (c : UsbCommand) (i : MemoryInterface μ) :
    List Byte × MemoryInterface μ :=
  if c.kind = 0 then
    if c.Reads then (leBytes 4 (i.shown (c.reg - irdRead)), i) else ([], i.put c.reg c.data)
  else if c.reg = oncdOmar then ([], { i with omar := c.data })
  else if c.Reads then
    (leBytes 4 (M.load i.omar i.memory).1,
      { i with
        omar := i.omar + 4
        omdr := (M.load i.omar i.memory).1
        memory := (M.load i.omar i.memory).2 })
  else ([], { i with omar := i.omar + 4, omdr := c.data, memory := M.store i.omar c.data i.memory })

/-- The replies to a packet, and what it does. -/
def AddressSpace.packet (M : AddressSpace μ) : List UsbCommand → MemoryInterface μ → List Byte × MemoryInterface μ
  | [], i => ([], i)
  | c :: cs, i =>
    ((M.command c i).1 ++ (M.packet cs (M.command c i).2).1, (M.packet cs (M.command c i).2).2)

/-- The reply to the command that ends a packet: the memory is ready. -/
def readyReply (i : MemoryInterface μ) : List Byte := leBytes 4 (i.oscr ||| oscrRdym)

/-- The command at the end of a packet answers that the memory is ready. -/
theorem packet_statusCommand (i : MemoryInterface μ) : M.packet [statusCommand] i = (readyReply i, i) := by
  have hstatus : M.command statusCommand i = (readyReply i, i) := by
    rw [AddressSpace.command, if_pos (by decide), if_pos (by decide)]
    rfl
  rw [AddressSpace.packet, hstatus, AddressSpace.packet, List.append_nil]

/-- The command latches an address or stores a word, or passes the time. -/
structure UsbCommand.Storing (c : UsbCommand) : Prop where
  wide : c.cmd &&& 0xb0 = 0
  stores : (c.kind = hBlkWr ∧ c.reg = oncdOmar) ∨
    ((c.kind = 0 ∨ c.kind = hBlkWr ∨ c.kind = hBlkEnd) ∧ c.reg = oncdOmdr)

/-- The command loads a word of a block. -/
structure UsbCommand.Loading (c : UsbCommand) : Prop where
  wide : c.cmd &&& 0xb0 = 0
  kind_ne : c.kind ≠ 0
  reg_eq : c.reg = oncdOmdr ||| irdRead

/-- The commands that the builders use, all with 32 bits of data: the address of a block, a word that is written
or read, and the state. -/
structure UsbCommand.Known (c : UsbCommand) : Prop where
  wide : c.cmd &&& 0xb0 = 0
  reg_mem : c.reg ∈ [oncdOmar, oncdOmdr, oncdOmdr ||| irdRead, oncdOscr ||| irdRead]

/-- A command that stores is one of the format. -/
theorem UsbCommand.Storing.known {c : UsbCommand} (h : c.Storing) : c.Known := by
  refine ⟨h.wide, ?_⟩
  rcases h.stores with ⟨-, hreg⟩ | ⟨-, hreg⟩ <;> simp [hreg]

/-- A command that loads is one of the format. -/
theorem UsbCommand.Loading.known {c : UsbCommand} (h : c.Loading) : c.Known := ⟨h.wide, by simp [h.reg_eq]⟩

/-- So is the command at the end. -/
theorem known_statusCommand : statusCommand.Known := ⟨by decide, by decide⟩

/-- What a storing command does to the memory is read off as its write. -/
theorem packet_cons_storing {c : UsbCommand} (h : c.Storing) (cs : List UsbCommand) (i : MemoryInterface μ) :
    ∃ i', M.packet (c :: cs) i = M.packet cs i' ∧ M.storeAll (packetWritesFrom i'.omar cs) i'.memory =
      M.storeAll (packetWritesFrom i.omar (c :: cs)) i.memory := by
  have hkinds : hBlkWr ≠ 0 ∧ hBlkEnd ≠ 0 := by decide
  have hregs : oncdOmdr ≠ oncdOmar := by decide
  rw [AddressSpace.packet, packetWritesFrom]
  rcases h.stores with ⟨hkind, hreg⟩ | ⟨hkind, hreg⟩
  · have hc : M.command c i = ([], { i with omar := c.data }) := by
      rw [AddressSpace.command, if_neg (by rw [hkind]; exact hkinds.1), if_pos hreg]
    rw [if_pos ⟨hkind, hreg⟩, hc]
    exact ⟨_, rfl, rfl⟩
  · have hreads : ¬ c.Reads := by
      rw [UsbCommand.Reads, hreg]
      decide
    rw [if_neg fun hlatch => hregs (hreg.symm.trans hlatch.2)]
    rcases hkind with hkind | hkind
    · -- a delay: the data register is written, and no word of a block
      have hc : M.command c i = ([], { i with omdr := c.data }) := by
        rw [AddressSpace.command, if_pos hkind, if_neg hreads, hreg]
        rfl
      rw [if_neg, hc]
      · exact ⟨_, rfl, rfl⟩
      · rintro ⟨hblock | hblock, -⟩
        · exact hkinds.1 (hblock.symm.trans hkind)
        · exact hkinds.2 (hblock.symm.trans hkind)
    · have hblock : c.kind ≠ 0 := by
        rcases hkind with hkind | hkind
        · rw [hkind]
          exact hkinds.1
        · rw [hkind]
          exact hkinds.2
      have hc : M.command c i =
          ([], { i with omar := i.omar + 4, omdr := c.data, memory := M.store i.omar c.data i.memory }) := by
        rw [AddressSpace.command, if_neg hblock, if_neg fun homar => hregs (hreg.symm.trans homar), if_neg hreads]
      rw [if_pos ⟨hkind, hreg⟩, hc]
      exact ⟨_, rfl, rfl⟩

/-- A packet that stores these words, whatever has been latched before, and asks for the state at its end. -/
structure StoringPacket (cs : List UsbCommand) (args : List (Word × Word)) : Prop where
  split : ∃ front, cs = front ++ [statusCommand] ∧ ∀ c ∈ front, c.Storing
  writes : ∀ latch, packetWritesFrom latch cs = args

/-- Commands that store, and the one for the state behind them: the words that they put on the bus are stored in
their order. -/
theorem packet_storing {cs : List UsbCommand} (h : ∀ c ∈ cs, c.Storing) (i : MemoryInterface μ) :
    ∃ i', M.packet (cs ++ [statusCommand]) i = (readyReply i', i') ∧
      i'.memory = M.storeAll (packetWritesFrom i.omar (cs ++ [statusCommand])) i.memory := by
  induction cs generalizing i with
  | nil => exact ⟨i, packet_statusCommand i, rfl⟩
  | cons c cs ih =>
    obtain ⟨i₁, hpacket, hmem⟩ := packet_cons_storing (M := M) (h c List.mem_cons_self) (cs ++ [statusCommand]) i
    obtain ⟨i', hrest, hmem'⟩ := ih (fun c hc => h c (List.mem_cons_of_mem _ hc)) i₁
    exact ⟨i', hpacket.trans hrest, hmem'.trans hmem⟩

/-- A packet that stores answers with the state alone. -/
theorem StoringPacket.packet {cs : List UsbCommand} {args : List (Word × Word)} (h : StoringPacket cs args)
    (i : MemoryInterface μ) : ∃ i', M.packet cs i = (readyReply i', i') ∧ i'.memory = M.storeAll args i.memory := by
  obtain ⟨front, hcs, hfront⟩ := h.split
  obtain ⟨i', hpacket, hmem⟩ := packet_storing (M := M) hfront i
  rw [← hcs] at hpacket hmem
  exact ⟨i', hpacket, by rw [hmem, h.writes]⟩

/-- All of its commands are of the format. -/
theorem StoringPacket.known {cs : List UsbCommand} {args : List (Word × Word)} (h : StoringPacket cs args) :
    ∀ c ∈ cs, c.Known := by
  obtain ⟨front, rfl, hfront⟩ := h.split
  intro c hc
  rcases List.mem_append.mp hc with hc | hc
  · exact (hfront c hc).known
  · rw [List.mem_singleton.mp hc]
    exact known_statusCommand

/-- The replies of a packet that loads are the words of the block, and the state. -/
theorem packet_loading {cs : List UsbCommand} (h : ∀ c ∈ cs, c.Loading) (i : MemoryInterface μ) :
    ∃ i', M.packet (cs ++ [statusCommand]) i =
        ((M.loadAll (wordSteps cs.length i.omar) i.memory).1.flatMap (leBytes 4) ++ readyReply i', i') ∧
      i'.memory = (M.loadAll (wordSteps cs.length i.omar) i.memory).2 := by
  induction cs generalizing i with
  | nil => exact ⟨i, packet_statusCommand i, rfl⟩
  | cons c cs ih =>
    have hload := h c List.mem_cons_self
    have hreads : c.Reads := by
      rw [UsbCommand.Reads, hload.reg_eq]
      decide
    have homar : c.reg ≠ oncdOmar := by
      rw [hload.reg_eq]
      decide
    have hc : M.command c i = (leBytes 4 (M.load i.omar i.memory).1, { i with
        omar := i.omar + 4
        omdr := (M.load i.omar i.memory).1
        memory := (M.load i.omar i.memory).2 }) := by
      rw [AddressSpace.command, if_neg hload.kind_ne, if_neg homar, if_pos hreads]
    obtain ⟨i', hrest, hmem⟩ := ih (fun c hc => h c (List.mem_cons_of_mem _ hc)) (M.command c i).2
    refine ⟨i', ?_, ?_⟩
    · rw [List.cons_append, AddressSpace.packet, hrest, hc, List.length_cons, wordSteps, AddressSpace.loadAll_cons,
        List.flatMap_cons, List.append_assoc]
    · rw [hmem, hc, List.length_cons, wordSteps, AddressSpace.loadAll_cons]

/-- In either mode an address or a word has the width of 32 bits. -/
theorem UsbMode.Valid.wide_wr (hm : m.Valid) : hdr (h32 ||| m.wr) &&& 0xb0 = 0 := by
  rcases hm with rfl | rfl <;> decide

/-- So has the last word. -/
theorem UsbMode.Valid.wide_last (hm : m.Valid) : hdr (h32 ||| m.last) &&& 0xb0 = 0 := by
  rcases hm with rfl | rfl <;> decide

/-- An address is latched. -/
theorem storing_address (hm : m.Valid) (addr : Word) :
    (⟨hdr (h32 ||| m.wr), oncdOmar, addr⟩ : UsbCommand).Storing :=
  ⟨hm.wide_wr, Or.inl ⟨hm.kind_wr, rfl⟩⟩

/-- A word is stored, and the next one goes behind it. -/
theorem storing_datum (hm : m.Valid) (data : Word) : (⟨hdr (h32 ||| m.wr), oncdOmdr, data⟩ : UsbCommand).Storing :=
  ⟨hm.wide_wr, Or.inr ⟨Or.inr (Or.inl hm.kind_wr), rfl⟩⟩

/-- The last word of a block is stored. -/
theorem storing_lastDatum (hm : m.Valid) (data : Word) :
    (⟨hdr (h32 ||| m.last), oncdOmdr, data⟩ : UsbCommand).Storing :=
  ⟨hm.wide_last, Or.inr ⟨Or.inr (Or.inr hm.kind_last), rfl⟩⟩

/-- A command without a cycle only takes its time. -/
theorem storing_delay : (⟨hdr h32, oncdOmdr, 0⟩ : UsbCommand).Storing := ⟨by decide, Or.inr ⟨Or.inl (by decide), rfl⟩⟩

/-- A word with its address. -/
theorem storing_wordCommands (hm : m.Valid) (addr data : Word) : ∀ c ∈ wordCommands m addr data, c.Storing := by
  rw [wordCommands, List.forall_mem_cons, List.forall_mem_singleton]
  exact ⟨storing_address hm addr, storing_lastDatum hm data⟩

/-- Commands for each word of a list. -/
theorem storing_words (words : Word → List Word → List UsbCommand) {f : Word → Word → List UsbCommand}
    (hnil : ∀ addr, words addr [] = [])
    (hcons : ∀ addr w ws, words addr (w :: ws) = f addr w ++ words (addr + 4) ws)
    (hf : ∀ addr w, ∀ c ∈ f addr w, c.Storing) (addr : Word) (ws : List Word) : ∀ c ∈ words addr ws, c.Storing := by
  induction ws generalizing addr with
  | nil =>
    rw [hnil]
    exact fun c hc => absurd hc List.not_mem_nil
  | cons w ws ih =>
    rw [hcons, List.forall_mem_append]
    exact ⟨hf addr w, ih (addr + 4)⟩

/-- Words at consecutive addresses, by induction on them. -/
theorem storing_blockCommands (hm : m.Valid) (addr : Word) (ws : List Word) :
    ∀ c ∈ blockCommands m addr ws, c.Storing :=
  storing_words (blockCommands m) (fun _ => rfl) (fun _ _ _ => rfl) (storing_wordCommands hm) addr ws

/-- The packet of `usb_write_block` stores the words of the block. -/
theorem storingPacket_usbWriteBlock (hm : m.Valid) (addr : Word) (ws : List Word) :
    StoringPacket (usbWriteBlock m addr ws) (consecutive addr ws) := by
  have hwords : ∀ c ∈ usbWriteBlock.words m ws, c.Storing := by
    induction ws with
    | nil => exact fun c hc => absurd hc List.not_mem_nil
    | cons w ws ih =>
      cases ws with
      | nil =>
        rw [usbWriteBlock.words, List.forall_mem_singleton]
        exact storing_lastDatum hm w
      | cons v ws =>
        rw [usbWriteBlock.words, List.forall_mem_cons]
        exact ⟨storing_datum hm w, ih⟩
  refine ⟨⟨⟨hdr (h32 ||| m.wr), oncdOmar, addr⟩ :: usbWriteBlock.words m ws, rfl, ?_⟩, fun latch => ?_⟩
  · rw [List.forall_mem_cons]
    exact ⟨storing_address hm addr, hwords⟩
  · rw [← packetWrites_usbWriteBlock hm, packetWrites, usbWriteBlock, packetWritesFrom_omar hm,
      packetWritesFrom_omar hm]

/-- What is latched before a word with its own address does not matter. -/
theorem packetWritesFrom_word_latch (hm : m.Valid) (latch addr data : Word) (cs : List UsbCommand) :
    packetWritesFrom latch (wordCommands m addr data ++ cs) = packetWrites (wordCommands m addr data ++ cs) := by
  rw [packetWrites, packetWritesFrom_wordCommands hm, packetWritesFrom_wordCommands hm]

/-- The packet of `usb_write_nwords` stores each word at its address. -/
theorem storingPacket_usbWriteNwords (hm : m.Valid) (args : List (Word × Word)) :
    StoringPacket (usbWriteNwords m args) args := by
  refine ⟨⟨_, rfl, ?_⟩, fun latch => ?_⟩
  · intro c hc
    obtain ⟨a, -, hc⟩ := List.mem_flatMap.mp hc
    exact storing_wordCommands hm a.1 a.2 c hc
  · cases args with
    | nil => rfl
    | cons a args =>
      refine Eq.trans ?_ (packetWrites_usbWriteNwords hm (a :: args))
      rw [usbWriteNwords, List.flatMap_cons, List.append_assoc, packetWritesFrom_word_latch hm]

/-- The packet of `usb_program_block32` stores the command before each word. -/
theorem storingPacket_usbProgramBlock32 (hm : m.Valid) (p : ProgramArgs) :
    StoringPacket (usbProgramBlock32 m p) ((consecutive p.addr p.data).flatMap fun a => program32Writes p a.1 a.2) := by
  refine ⟨⟨_, rfl, ?_⟩, fun latch => ?_⟩
  · refine storing_words (usbProgramBlock32.words m p) (fun _ => rfl) (fun _ _ _ => rfl) (fun addr w => ?_) p.addr
      p.data
    simp only [List.forall_mem_append, List.forall_mem_singleton]
    exact ⟨⟨⟨⟨storing_wordCommands hm _ _, storing_wordCommands hm _ _⟩, storing_wordCommands hm _ _⟩,
      storing_wordCommands hm _ _⟩, storing_delay⟩
  · rw [← packetWrites_usbProgramBlock32 hm, usbProgramBlock32]
    cases p.data with
    | nil => rfl
    | cons w ws =>
      simp only [usbProgramBlock32.words, List.append_assoc]
      exact packetWritesFrom_word_latch hm _ _ _ _

/-- The packet of `usb_program_block64` stores the command before each word. -/
theorem storingPacket_usbProgramBlock64 (hm : m.Valid) (p : ProgramArgs) :
    StoringPacket (usbProgramBlock64 m p) ((consecutive p.addr p.data).flatMap fun a => program64Writes p a.1 a.2) := by
  refine ⟨⟨_, rfl, ?_⟩, fun latch => ?_⟩
  · refine storing_words (usbProgramBlock64.words m p) (fun _ => rfl) (fun _ _ _ => rfl) (fun addr w => ?_) p.addr
      p.data
    simp only [List.forall_mem_append]
    exact ⟨⟨⟨storing_wordCommands hm _ _, storing_wordCommands hm _ _⟩, storing_wordCommands hm _ _⟩,
      storing_wordCommands hm _ _⟩
  · rw [← packetWrites_usbProgramBlock64 hm, usbProgramBlock64]
    cases p.data with
    | nil => rfl
    | cons w ws =>
      simp only [usbProgramBlock64.words, List.append_assoc]
      exact packetWritesFrom_word_latch hm _ _ _ _

/-- The second packet for a page stores its words. -/
theorem storingPacket_pageCommands (hm : m.Valid) (p : ProgramArgs) :
    StoringPacket (pageCommands m p) (consecutive p.addr p.data) :=
  ⟨⟨_, rfl, storing_blockCommands hm p.addr p.data⟩, fun _ => packetWritesFrom_blockCommands hm p.data⟩

/-- The writes that let a page be written without its protection. -/
def unprotectWrites (p : ProgramArgs) : List (Word × Word) :=
  [(p.base + p.addrOdd, p.cmdAA), (p.base + p.addrEven, p.cmd55), (p.base + p.addrOdd, 0x80808080),
    (p.base + p.addrOdd, p.cmdAA), (p.base + p.addrEven, p.cmd55), (p.base + p.addrOdd, 0x20202020)]

/-- The writes that protect the page again. -/
def protectWrites (p : ProgramArgs) : List (Word × Word) :=
  [(p.base + p.addrOdd, p.cmdAA), (p.base + p.addrEven, p.cmd55), (p.base + p.addrOdd, p.cmdA0)]

/-- The first packet for a page removes the protection. -/
theorem storingPacket_unprotectCommands (hm : m.Valid) (p : ProgramArgs) :
    StoringPacket (unprotectCommands m p) (unprotectWrites p) := by
  refine ⟨⟨_, rfl, ?_⟩, fun latch => ?_⟩
  · simp only [List.forall_mem_append]
    exact ⟨⟨⟨⟨⟨storing_wordCommands hm _ _, storing_wordCommands hm _ _⟩, storing_wordCommands hm _ _⟩,
      storing_wordCommands hm _ _⟩, storing_wordCommands hm _ _⟩, storing_wordCommands hm _ _⟩
  · simp only [unprotectCommands, unprotectWrites, List.append_assoc, packetWritesFrom_wordCommands hm]
    rfl

/-- The first packet for a page keeps the protection. -/
theorem storingPacket_protectCommands (hm : m.Valid) (p : ProgramArgs) :
    StoringPacket (protectCommands m p) (protectWrites p) := by
  refine ⟨⟨_, rfl, ?_⟩, fun latch => ?_⟩
  · simp only [List.forall_mem_append]
    exact ⟨⟨storing_wordCommands hm _ _, storing_wordCommands hm _ _⟩, storing_wordCommands hm _ _⟩
  · simp only [protectCommands, protectWrites, List.append_assoc, packetWritesFrom_wordCommands hm]
    rfl

/-- The writes of a buffer of the Micron chips: the count, the words and the command that confirms them. -/
def micronWrites (addr : Word) (ws : List Word) : List (Word × Word) :=
  (addr &&& 0xFFC00000, (BitVec.ofNat 32 (ws.length - 1) <<< 16) ||| BitVec.ofNat 32 (ws.length - 1)) ::
    (consecutive addr ws ++ [(addr &&& 0xFFC00000, 0x00d000d0)])

/-- The packet of `usb_program_block32_micron` stores the count, the words and the end. -/
theorem storingPacket_usbProgramBlock32Micron (hm : m.Valid) (addr : Word) (ws : List Word) :
    StoringPacket (usbProgramBlock32Micron m addr ws) (micronWrites addr ws) := by
  refine ⟨⟨_, rfl, ?_⟩, fun latch => ?_⟩
  · simp only [List.forall_mem_append]
    exact ⟨⟨storing_wordCommands hm _ _, storing_blockCommands hm addr ws⟩, storing_wordCommands hm _ _⟩
  · rw [micronWrites, ← packetWrites_usbProgramBlock32Micron hm, usbProgramBlock32Micron]
    simp only [List.append_assoc]
    exact packetWritesFrom_word_latch hm _ _ _ _

/-- The code of the commands that read a block. -/
theorem UsbMode.Valid.block_rd (hm : m.Valid) : hdr (h32 ||| usbReadBlock.trst m ||| m.rd) &&& 0xb0 = 0 ∧
    hdr (h32 ||| usbReadBlock.trst m ||| m.rd) &&& 3 ≠ 0 := by
  rcases hm with rfl | rfl <;> decide

/-- The code of the last one. -/
theorem UsbMode.Valid.block_last (hm : m.Valid) : hdr (h32 ||| usbReadBlock.trst m ||| m.last) &&& 0xb0 = 0 ∧
    hdr (h32 ||| usbReadBlock.trst m ||| m.last) &&& 3 ≠ 0 := by
  rcases hm with rfl | rfl <;> decide

/-- The packet that reads a block latches its address, and has a command for each of its words. -/
theorem usbReadBlock_split (hm : m.Valid) (addr : Word) {n : Nat} (hn : 1 ≤ n) : ∃ words : List UsbCommand,
    usbReadBlock m addr n =
        ⟨hdr (h32 ||| usbReadBlock.trst m ||| m.rd), oncdOmar, addr⟩ :: (words ++ [statusCommand]) ∧
      words.length = n ∧ ∀ c ∈ words, c.Loading := by
  refine ⟨((List.range' 0 (n - 1)).flatMap fun _ => [⟨hdr (h32 ||| usbReadBlock.trst m ||| m.rd),
    oncdOmdr ||| irdRead, 0⟩]) ++ [⟨hdr (h32 ||| usbReadBlock.trst m ||| m.last), oncdOmdr ||| irdRead, 0⟩],
    ?_, ?_, ?_⟩
  · rw [usbReadBlock, List.append_assoc]
    rfl
  · simp only [List.length_append, List.length_flatMap, List.length_singleton, List.map_const', List.length_range',
      List.sum_replicate, smul_eq_mul, Nat.mul_one]
    omega
  · rw [List.forall_mem_append, List.forall_mem_singleton]
    constructor
    · intro c hc
      obtain ⟨-, -, hc⟩ := List.mem_flatMap.mp hc
      rw [List.mem_singleton.mp hc]
      exact ⟨hm.block_rd.1, hm.block_rd.2, rfl⟩
    · exact ⟨hm.block_last.1, hm.block_last.2, rfl⟩

/-- Its replies are the words of the block, and behind them the state. -/
theorem packet_usbReadBlock (hm : m.Valid) (addr : Word) {n : Nat} (hn : 1 ≤ n) (i : MemoryInterface μ) :
    (∀ c ∈ usbReadBlock m addr n, c.Known) ∧ ∃ i', M.packet (usbReadBlock m addr n) i =
        ((M.loadAll (wordSteps n addr) i.memory).1.flatMap (leBytes 4) ++ readyReply i', i') ∧
      i'.memory = (M.loadAll (wordSteps n addr) i.memory).2 := by
  obtain ⟨words, hpacket, hlen, hwords⟩ := usbReadBlock_split hm addr hn
  rw [hpacket]
  constructor
  · rw [List.forall_mem_cons, List.forall_mem_append, List.forall_mem_singleton]
    exact ⟨⟨hm.block_rd.1, List.mem_cons_self⟩, fun c hc => (hwords c hc).known, known_statusCommand⟩
  · have hlatch : M.command ⟨hdr (h32 ||| usbReadBlock.trst m ||| m.rd), oncdOmar, addr⟩ i =
        ([], { i with omar := addr }) := (if_neg hm.block_rd.2).trans (if_pos rfl)
    obtain ⟨i', hrest, hmem⟩ := packet_loading (M := M) hwords { i with omar := addr }
    rw [hlen] at hrest hmem
    refine ⟨i', ?_, hmem⟩
    rw [AddressSpace.packet, hlatch, hrest, List.nil_append]

end Mcprog
