import Mcprog.Adapter.BulkPipe
import Mcprog.Adapter.Usb
import Mcprog.Library.Buffers

/-!
# The packet arrays of the USB-JTAG adapter

The builders of `adapter-usb.c` again, with the array that each of them declares, the pointer that
`fill_pkt` moves on and the transfers that follow. The size of the array is computed with 32 bits.
A store outside the array is recorded, and the builder goes on.
-/

namespace Mcprog

open Interaction Program Cells

/-- The array `pkt` of a builder: the size that it is declared with, and its cells. -/
structure Pkt where
  size : Nat
  cells : Buffer Byte

/-- What a builder does: it puts a command into its array, or makes a bulk transfer. -/
inductive PktEvent
  | fill (size ptr : Nat) (c : UsbCommand)
  | transfer (t : Transfer)
  deriving DecidableEq, Repr

/-- The program of a builder. -/
abbrev PktAction (σ α : Type) : Type := Program PktEvent (Attached Pkt σ) Fatal α

variable {σ : Type} (m : UsbMode) (pipe : BulkPipe σ)

/-- The six bytes of a command. -/
def UsbCommand.bytes (c : UsbCommand) : List Byte := c.cmd :: BitVec.ofNat 8 c.reg :: leBytes 4 c.data

/-- `unsigned char pkt [size]`. The array holds what is left there. -/
def declarePkt (size : Word) : PktAction σ Unit :=
  Program.update fun a => { a with own := ⟨size.toNat, a.own.cells⟩ }

/-- `fill_pkt`. -/
def fillPkt (ptr : Nat) (cmd : Byte) (reg : Nat) (data : Word) : PktAction σ Nat := do
  let a ← Program.read
  emit (.fill a.own.size ptr ⟨cmd, reg, data⟩)
  Program.update fun a =>
    { a with own := ⟨a.own.size, a.own.cells.setAll ptr (UsbCommand.bytes ⟨cmd, reg, data⟩)⟩ }
  return ptr + 6

/-- `for (i = start; i < start + count; i++) ptr = body`. -/
def forEach (body : Nat → Nat → PktAction σ Nat) : Nat → Nat → Nat → PktAction σ Nat
  | 0, _, ptr => pure ptr
  | count + 1, i, ptr => do
    let ptr ← body i ptr
    forEach body count (i + 1) ptr

/-- The two commands that write one word. -/
def fillWord (ptr : Nat) (addr data : Word) : PktAction σ Nat := do
  let ptr ← fillPkt ptr (hdr (h32 ||| m.wr)) oncdOmar addr
  fillPkt ptr (hdr (h32 ||| m.last)) oncdOmdr data

def bulkWriteEndpoint : Word := 2
def bulkReadEndpoint : Word := 0x86

/-- Wait for `rlen` bytes, and leave the program if others come. -/
def bulkReply (text : String) (rlen : Word) : PktAction σ (List Byte) := do
  let reply ← mapEvents .transfer (usbBulkRead pipe rlen.toNat)
  match reply with
  | none => Program.stop (.exit (-1) text [-1, rlen, bulkReadEndpoint])
  | some reply =>
    if reply.length ≠ rlen.toNat then
      Program.stop (.exit (-1) text [BitVec.ofNat 32 reply.length, rlen, bulkReadEndpoint])
    else return reply

/-- `bulk_read`. -/
def bulkRead (rlen : Word) : PktAction σ (List Byte) :=
  bulkReply pipe "Bulk read failed: %d/%d bytes from endpoint %#x.\n" rlen

/-- `bulk_write_read`, which sends the first `wlen` bytes of the array. -/
def bulkWriteRead (wlen rlen : Word) : PktAction σ (List Byte) := do
  let a ← Program.read
  let transferred ← mapEvents .transfer (usbBulkWrite pipe (a.own.cells.slice 0 wlen.toNat))
  if transferred ≠ some wlen.toNat then
    Program.stop (.exit (-1) "Bulk write(-read) failed: %d bytes to endpoint %#x.\n" [wlen, bulkWriteEndpoint])
  else bulkReply pipe "Bulk (write-)read failed: %d/%d bytes from endpoint %#x.\n" rlen

/-- A word in memory, the low byte first. -/
def wordOfBytes (bytes : List Byte) : Word := bytes.foldr (fun b w => (w <<< 8) ||| b.setWidth 32) 0

/-- Leave the program with the message `text` unless the memory is ready. -/
def checkReady (text : String) (values : List Word) (oscr : Word) : PktAction σ Unit :=
  if oscr &&& oscrRdym = 0 then Program.stop (.exit 1 text (values ++ [oscr])) else pure ()

/-- The end of most builders: send the packet, and look at the state that comes back. -/
def sendPkt (ptr : Nat) (failed timeout : String) (values : List Word) : PktAction σ Unit := do
  let reply ← bulkWriteRead pipe (BitVec.ofNat 32 ptr) 4
  if reply.length ≠ 4 then Program.stop (.exit (-1) failed values)
  else checkReady timeout values (wordOfBytes reply)

/-- `usb_write_block`. -/
def rawUsbWriteBlock (nwords addr : Word) (data : Nat → Word) : PktAction σ Unit := do
  declarePkt (6 + 6 * nwords + 6)
  let ptr ← fillPkt 0 (hdr (h32 ||| m.wr)) oncdOmar addr
  let ptr ← forEach (fun i ptr => fillPkt ptr (hdr (h32 ||| m.wr)) oncdOmdr (data i)) (nwords.toNat - 1) 0 ptr
  let ptr ← fillPkt ptr (hdr (h32 ||| m.last)) oncdOmdr (data (nwords.toNat - 1))
  let ptr ← fillPkt ptr (hdr h32) (oncdOscr ||| irdRead) 0
  sendPkt pipe ptr "Failed to write 4 words.\n" "Timeout writing N words, aborted. OSCR=%#x\n" []

/-- `usb_write_nwords`. The list `args` holds the addresses and the words by turns. -/
def rawUsbWriteNwords (nwords : Word) (args : Nat → Word) : PktAction σ Unit := do
  declarePkt (6 * 2 * nwords + 6)
  let ptr ← forEach (fun i ptr => fillWord m ptr (args (2 * i)) (args (2 * i + 1))) nwords.toNat 0 0
  let ptr ← fillPkt ptr (hdr h32) (oncdOscr ||| irdRead) 0
  sendPkt pipe ptr "Failed to write %d words.\n" "Timeout writing %d words, aborted. OSCR=%#x\n" [nwords]

/-- What `usb_read_block` does with its packet. -/
def receiveBlock (nwords : Word) (ptr : Nat) : PktAction σ (List Byte) := do
  let data ← bulkWriteRead pipe (BitVec.ofNat 32 ptr) (4 * nwords)
  if data.length ≠ (4 * nwords).toNat then
    Program.stop (.exit 1 "Empty data reading memory, aborted.\n" [])
  else
    let reply ← bulkRead pipe 4
    if reply.length ≠ 4 then Program.stop (.exit (-1) "Failed to read N words.\n" [])
    else
      checkReady "Timeout reading memory, aborted. OSCR=%#x\n" [] (wordOfBytes reply)
      return data

/-- `usb_read_block`, with the bytes that it stores at `data`. -/
def rawUsbReadBlock (nwords addr : Word) : PktAction σ (List Byte) := do
  declarePkt (6 + 6 * nwords + 6)
  let ptr ←
    if m.rd = hBlkRd then do
      let ptr ← fillPkt 0 (hdr (h32 ||| m.rd)) oncdOmar addr
      let ptr ← forEach (fun _ ptr => fillPkt ptr (hdr (h32 ||| m.rd)) (oncdOmdr ||| irdRead) 0)
        (nwords.toNat - 1) 0 ptr
      fillPkt ptr (hdr (h32 ||| m.last)) (oncdOmdr ||| irdRead) 0
    else do
      let ptr ← fillPkt 0 (hdr (h32 ||| hTrst ||| m.rd)) oncdOmar addr
      let ptr ← forEach (fun _ ptr => fillPkt ptr (hdr (h32 ||| hTrst ||| m.rd)) (oncdOmdr ||| irdRead) 0)
        (nwords.toNat - 1) 0 ptr
      fillPkt ptr (hdr (h32 ||| hTrst ||| m.last)) (oncdOmdr ||| irdRead) 0
  let ptr ← fillPkt ptr (hdr h32) (oncdOscr ||| irdRead) 0
  receiveBlock pipe nwords ptr

/-- The arguments of the methods that program a block: the count, the data pointer and the commands. -/
structure BlockArgs where
  nwords : Word
  base : Word
  addr : Word
  data : Nat → Word
  addrOdd : Word
  addrEven : Word
  cmdAA : Word
  cmd55 : Word
  cmdA0 : Word

/-- Where the address is after `i` words. -/
def BlockArgs.addrAt (p : BlockArgs) (i : Nat) : Word := p.addr + 4 * BitVec.ofNat 32 i

/-- `usb_program_block32`. -/
def rawUsbProgramBlock32 (p : BlockArgs) : PktAction σ Unit := do
  declarePkt (6 * (8 + 1) * p.nwords + 6)
  let ptr ← forEach (fun i ptr => do
    let ptr ← fillWord m ptr (p.base + p.addrOdd) p.cmdAA
    let ptr ← fillWord m ptr (p.base + p.addrEven) p.cmd55
    let ptr ← fillWord m ptr (p.base + p.addrOdd) p.cmdA0
    let ptr ← fillWord m ptr (p.addrAt i) (p.data i)
    fillPkt ptr (hdr h32) oncdOmdr 0) p.nwords.toNat 0 0
  let ptr ← fillPkt ptr (hdr h32) (oncdOscr ||| irdRead) 0
  sendPkt pipe ptr "Failed to program block32.\n" "Timeout programming block32, aborted. OSCR=%#x\n" []

/-- The second packet of a page: its words, from the start of the array. -/
def rawUsbPage (p : BlockArgs) : PktAction σ Unit := do
  let ptr ← forEach (fun i ptr => fillWord m ptr (p.addrAt i) (p.data i)) p.nwords.toNat 0 0
  let ptr ← fillPkt ptr (hdr h32) (oncdOscr ||| irdRead) 0
  sendPkt pipe ptr "Failed to program block32 Atmel.\n" "Timeout programming block32 Atmel, aborted. OSCR=%#x\n" []

/-- `usb_program_block32_unprotect`, without the delays between its packets. -/
def rawUsbProgramBlock32Unprotect (p : BlockArgs) : PktAction σ Unit := do
  declarePkt (6 * 18 + 6 * 2 * p.nwords + 6)
  let ptr ← fillWord m 0 (p.base + p.addrOdd) p.cmdAA
  let ptr ← fillWord m ptr (p.base + p.addrEven) p.cmd55
  let ptr ← fillWord m ptr (p.base + p.addrOdd) 0x80808080
  let ptr ← fillWord m ptr (p.base + p.addrOdd) p.cmdAA
  let ptr ← fillWord m ptr (p.base + p.addrEven) p.cmd55
  let ptr ← fillWord m ptr (p.base + p.addrOdd) 0x20202020
  let ptr ← fillPkt ptr (hdr h32) (oncdOscr ||| irdRead) 0
  sendPkt pipe ptr "Failed to program block32 Atmel.\n" "Timeout programming block32 Atmel, aborted. OSCR=%#x\n" []
  rawUsbPage m pipe p

/-- `usb_program_block32_protect`, without the delays between its packets. -/
def rawUsbProgramBlock32Protect (p : BlockArgs) : PktAction σ Unit := do
  declarePkt (6 * 18 + 6 * 2 * p.nwords + 6)
  let ptr ← fillWord m 0 (p.base + p.addrOdd) p.cmdAA
  let ptr ← fillWord m ptr (p.base + p.addrEven) p.cmd55
  let ptr ← fillWord m ptr (p.base + p.addrOdd) p.cmdA0
  let ptr ← fillPkt ptr (hdr h32) (oncdOscr ||| irdRead) 0
  sendPkt pipe ptr "Failed to program block32 Atmel.\n" "Timeout programming block32 Atmel, aborted. OSCR=%#x\n" []
  rawUsbPage m pipe p

/-- `usb_program_block64`. -/
def rawUsbProgramBlock64 (p : BlockArgs) : PktAction σ Unit := do
  declarePkt (6 * 8 * p.nwords + 6)
  let ptr ← forEach (fun i ptr => do
    let ptr ← fillWord m ptr (p.base + p.addrOdd + (p.addrAt i &&& 4)) p.cmdAA
    let ptr ← fillWord m ptr (p.base + p.addrEven + (p.addrAt i &&& 4)) p.cmd55
    let ptr ← fillWord m ptr (p.base + p.addrOdd + (p.addrAt i &&& 4)) p.cmdA0
    fillWord m ptr (p.addrAt i) (p.data i)) p.nwords.toNat 0 0
  let ptr ← fillPkt ptr (hdr h32) (oncdOscr ||| irdRead) 0
  sendPkt pipe ptr "Failed to program block32.\n" "Timeout programming block32, aborted. OSCR=%#x\n" []

/-- The loop of `usb_program_block32_micron`, which comes to no end where every count is at most
`nMinus1`. -/
def micronWords (nMinus1 addr : Word) (data : Nat → Word) : Nat → Word → Nat → PktAction σ Nat
  | 0, _, _ => Program.stop .fuel
  | fuel + 1, i, ptr =>
    if i ≤ nMinus1 then do
      let ptr ← fillWord m ptr (addr + 4 * i) (data i.toNat)
      micronWords nMinus1 addr data fuel (i + 1) ptr
    else pure ptr

/-- `usb_program_block32_micron`. -/
def rawUsbProgramBlock32Micron (fuel : Nat) (nMinus1 addr : Word) (data : Nat → Word) : PktAction σ Unit := do
  declarePkt (6 * (8 + 1) * (nMinus1 + 2) + 6)
  let ptr ← fillWord m 0 (addr &&& 0xFFC00000) ((nMinus1 <<< 16) ||| nMinus1)
  let ptr ← micronWords m nMinus1 addr data fuel 0 ptr
  let ptr ← fillWord m ptr (addr &&& 0xFFC00000) 0x00d000d0
  let ptr ← fillPkt ptr (hdr h32) (oncdOscr ||| irdRead) 0
  sendPkt pipe ptr "Failed to program block32.\n" "Timeout programming block32, aborted. OSCR=%#x\n" []

variable {m} {a : Attached Pkt σ}

/-- Commands are put in one behind the other. -/
def fillAll : Nat → List UsbCommand → PktAction σ Nat
  | ptr, [] => pure ptr
  | ptr, c :: cs => do
    let ptr ← fillPkt ptr c.cmd c.reg c.data
    fillAll ptr cs

/-- Commands are put in one after the other. -/
theorem fillAll_append (ptr : Nat) (cs cs' : List UsbCommand) :
    (fillAll ptr (cs ++ cs') : PktAction σ Nat) = fillAll ptr cs >>= fun ptr => fillAll ptr cs' := by
  induction cs generalizing ptr with
  | nil => rw [fillAll, pure_bind, List.nil_append]
  | cons c cs ih => simp only [List.cons_append, fillAll, ih, bind_assoc]

/-- The same where more is done behind them. -/
theorem fillAll_bind {α : Type} (ptr : Nat) (cs cs' : List UsbCommand) (f : Nat → PktAction σ α) :
    (fillAll ptr cs >>= fun ptr => fillAll ptr cs' >>= f) = fillAll ptr (cs ++ cs') >>= f := by
  rw [fillAll_append, bind_assoc]

theorem fillPkt_eq (ptr : Nat) (cmd : Byte) (reg : Nat) (data : Word) :
    (fillPkt ptr cmd reg data : PktAction σ Nat) = fillAll ptr [⟨cmd, reg, data⟩] := by
  simp only [fillAll, bind_pure]

theorem fillWord_eq (ptr : Nat) (addr data : Word) :
    (fillWord m ptr addr data : PktAction σ Nat) = fillAll ptr (wordCommands m addr data) := by
  simp only [fillWord, wordCommands, fillAll, bind_pure]

/-- A loop puts in the commands of its bodies. -/
theorem forEach_fillAll (f : Nat → List UsbCommand) (count i ptr : Nat) :
    (forEach (fun i ptr => fillAll ptr (f i)) count i ptr : PktAction σ Nat) =
      fillAll ptr ((List.range' i count).flatMap f) := by
  induction count generalizing i ptr with
  | zero => rw [forEach, List.range'_zero, List.flatMap_nil, fillAll]
  | succ count ih => rw [forEach, List.range'_succ, List.flatMap_cons, fillAll_append, funext fun ptr => ih (i + 1) ptr]

/-- The words that a builder takes from its data pointer. -/
def dataWords (data : Nat → Word) (n : Nat) : List Word := (List.range' 0 n).map data

/-- The commands of a block, with a loop over all but the last of its words. -/
theorem usbWriteBlock_words (data : Nat → Word) (n i : Nat) :
    usbWriteBlock.words m ((List.range' i (n + 1)).map data) =
      ((List.range' i n).flatMap fun j => [⟨hdr (h32 ||| m.wr), oncdOmdr, data j⟩]) ++
        [⟨hdr (h32 ||| m.last), oncdOmdr, data (i + n)⟩] := by
  induction n generalizing i with
  | zero => rfl
  | succ n ih =>
    have hnext : (List.range' i (n + 1 + 1)).map data =
        data i :: data (i + 1) :: (List.range' (i + 1 + 1) n).map data := rfl
    have htail : (List.range' (i + 1) (n + 1)).map data =
        data (i + 1) :: (List.range' (i + 1 + 1) n).map data := rfl
    rw [hnext, usbWriteBlock.words, ← htail, ih, List.range'_succ, List.flatMap_cons, List.append_assoc,
      List.singleton_append, Nat.add_right_comm]
    rfl

/-- Words at consecutive addresses, with a loop over them. -/
theorem words_eq_flatMap {words : Word → List Word → List UsbCommand} {f : Word → Word → List UsbCommand}
    (hnil : ∀ addr, words addr [] = [])
    (hcons : ∀ addr w ws, words addr (w :: ws) = f addr w ++ words (addr + 4) ws)
    (addr : Word) (data : Nat → Word) (n i : Nat) :
    words (addr + 4 * BitVec.ofNat 32 i) ((List.range' i n).map data) =
      (List.range' i n).flatMap fun j => f (addr + 4 * BitVec.ofNat 32 j) (data j) := by
  induction n generalizing i with
  | zero => exact hnil _
  | succ n ih =>
    have hnext : addr + 4 * BitVec.ofNat 32 i + 4 = addr + 4 * BitVec.ofNat 32 (i + 1) := by
      rw [BitVec.ofNat_add, BitVec.mul_add, BitVec.add_assoc]
      rfl
    rw [List.range'_succ, List.map_cons, hcons, hnext, ih, List.flatMap_cons]

/-- The loop of a builder over its data, which starts at the address itself. -/
theorem words_dataWords {words : Word → List Word → List UsbCommand} {f : Word → Word → List UsbCommand}
    (hnil : ∀ addr, words addr [] = [])
    (hcons : ∀ addr w ws, words addr (w :: ws) = f addr w ++ words (addr + 4) ws)
    (addr : Word) (data : Nat → Word) (n : Nat) : words addr (dataWords data n) =
      (List.range' 0 n).flatMap fun j => f (addr + 4 * BitVec.ofNat 32 j) (data j) := by
  have h := words_eq_flatMap hnil hcons addr data n 0
  rwa [show addr + 4 * BitVec.ofNat 32 0 = addr from BitVec.add_zero addr] at h

/-- The array is declared, the commands are put into it, and the rest gets the pointer behind them. -/
def onePacket {α : Type} (size : Word) (cs : List UsbCommand) (rest : Nat → PktAction σ α) : PktAction σ α := do
  declarePkt size
  let ptr ← fillAll 0 cs
  rest ptr

/-- What is done after the packet may as well be part of what is done with it. -/
theorem onePacket_bind {α β : Type} (size : Word) (cs : List UsbCommand) (rest : Nat → PktAction σ α)
    (f : α → PktAction σ β) : onePacket size cs rest >>= f = onePacket size cs fun ptr => rest ptr >>= f := by
  simp only [onePacket, bind_assoc]

/-- `usb_write_block` puts together one packet, and sends it. -/
theorem rawUsbWriteBlock_eq {nwords : Word} (h : 1 ≤ nwords.toNat) (addr : Word) (data : Nat → Word) :
    rawUsbWriteBlock m pipe nwords addr data =
      onePacket (6 + 6 * nwords + 6) (usbWriteBlock m addr (dataWords data nwords.toNat)) fun ptr =>
        sendPkt pipe ptr "Failed to write 4 words.\n" "Timeout writing N words, aborted. OSCR=%#x\n" [] := by
  obtain ⟨n, hn⟩ : ∃ n, nwords.toNat = n + 1 := ⟨nwords.toNat - 1, by omega⟩
  simp only [rawUsbWriteBlock, fillPkt_eq, forEach_fillAll, fillAll_bind]
  rw [usbWriteBlock, dataWords, hn, usbWriteBlock_words, Nat.zero_add, Nat.add_sub_cancel, List.append_assoc]
  rfl

/-- The arguments of a list of words. -/
def nwordsPairs (args : Nat → Word) (n : Nat) : List (Word × Word) :=
  (List.range' 0 n).map fun i => (args (2 * i), args (2 * i + 1))

/-- `usb_write_nwords` puts together one packet, and sends it. -/
theorem rawUsbWriteNwords_eq (nwords : Word) (args : Nat → Word) :
    rawUsbWriteNwords m pipe nwords args =
      onePacket (6 * 2 * nwords + 6) (usbWriteNwords m (nwordsPairs args nwords.toNat)) fun ptr =>
        sendPkt pipe ptr "Failed to write %d words.\n" "Timeout writing %d words, aborted. OSCR=%#x\n" [nwords] := by
  simp only [rawUsbWriteNwords, fillPkt_eq, fillWord_eq, forEach_fillAll, fillAll_bind]
  rw [usbWriteNwords, nwordsPairs, List.flatMap_map]
  rfl

/-- The packet of `usb_read_block`. Outside of the block mode `TRST` is active. -/
def usbReadBlock (m : UsbMode) (addr : Word) (nwords : Nat) : List UsbCommand :=
  ⟨hdr (h32 ||| trst ||| m.rd), oncdOmar, addr⟩ ::
    (((List.range' 0 (nwords - 1)).flatMap fun _ => [⟨hdr (h32 ||| trst ||| m.rd), oncdOmdr ||| irdRead, 0⟩]) ++
      [⟨hdr (h32 ||| trst ||| m.last), oncdOmdr ||| irdRead, 0⟩, statusCommand])
where
  /-- The bit that tells the modes apart. -/
  trst : Byte := if m.rd = hBlkRd then 0 else hTrst

/-- `usb_read_block` puts together one packet, and waits for the words. -/
theorem rawUsbReadBlock_eq (nwords addr : Word) :
    rawUsbReadBlock m pipe nwords addr =
      onePacket (6 + 6 * nwords + 6) (usbReadBlock m addr nwords.toNat) (receiveBlock pipe nwords) := by
  by_cases hmode : m.rd = hBlkRd
  · have htrst : h32 ||| usbReadBlock.trst m = h32 := by
      rw [usbReadBlock.trst, if_pos hmode]
      rfl
    rw [rawUsbReadBlock, usbReadBlock, htrst, if_pos hmode]
    simp only [fillPkt_eq, forEach_fillAll, fillAll_bind]
    rfl
  · rw [rawUsbReadBlock, usbReadBlock, usbReadBlock.trst, if_neg hmode, if_neg hmode]
    simp only [fillPkt_eq, forEach_fillAll, fillAll_bind]
    rfl

/-- The arguments with the words instead of the count and the pointer. -/
def BlockArgs.program (p : BlockArgs) : ProgramArgs :=
  ⟨p.base, p.addr, dataWords p.data p.nwords.toNat, p.addrOdd, p.addrEven, p.cmdAA, p.cmd55, p.cmdA0⟩

/-- The commands for the words of a block, by the place of each. -/
theorem usbProgramBlock32_words (p : BlockArgs) :
    usbProgramBlock32.words m p.program p.addr (dataWords p.data p.nwords.toNat) =
      (List.range' 0 p.nwords.toNat).flatMap fun i =>
        wordCommands m (p.base + p.addrOdd) p.cmdAA ++ wordCommands m (p.base + p.addrEven) p.cmd55 ++
        wordCommands m (p.base + p.addrOdd) p.cmdA0 ++ wordCommands m (p.addrAt i) (p.data i) ++
        [⟨hdr h32, oncdOmdr, 0⟩] := by
  have hcons : ∀ addr w ws, usbProgramBlock32.words m p.program addr (w :: ws) =
      (wordCommands m (p.base + p.addrOdd) p.cmdAA ++ wordCommands m (p.base + p.addrEven) p.cmd55 ++
        wordCommands m (p.base + p.addrOdd) p.cmdA0 ++ wordCommands m addr w ++ [⟨hdr h32, oncdOmdr, 0⟩]) ++
        usbProgramBlock32.words m p.program (addr + 4) ws := fun _ _ _ => rfl
  exact words_dataWords (fun _ => rfl) hcons p.addr p.data p.nwords.toNat

/-- `usb_program_block32` puts together one packet, and sends it. -/
theorem rawUsbProgramBlock32_eq (p : BlockArgs) :
    rawUsbProgramBlock32 m pipe p =
      onePacket (6 * (8 + 1) * p.nwords + 6) (usbProgramBlock32 m p.program) fun ptr =>
        sendPkt pipe ptr "Failed to program block32.\n" "Timeout programming block32, aborted. OSCR=%#x\n" [] := by
  have hwords : (usbProgramBlock32 m p.program) = _ ++ [statusCommand] :=
    congrArg (· ++ [statusCommand]) (usbProgramBlock32_words p)
  rw [hwords]
  simp only [rawUsbProgramBlock32, fillPkt_eq, fillWord_eq, ← fillAll_append, fillAll_bind, forEach_fillAll,
    List.append_assoc]
  rfl

/-- The commands for the words of a block, by the place of each. -/
theorem usbProgramBlock64_words (p : BlockArgs) :
    usbProgramBlock64.words m p.program p.addr (dataWords p.data p.nwords.toNat) =
      (List.range' 0 p.nwords.toNat).flatMap fun i =>
        wordCommands m (p.base + p.addrOdd + (p.addrAt i &&& 4)) p.cmdAA ++
        wordCommands m (p.base + p.addrEven + (p.addrAt i &&& 4)) p.cmd55 ++
        wordCommands m (p.base + p.addrOdd + (p.addrAt i &&& 4)) p.cmdA0 ++
        wordCommands m (p.addrAt i) (p.data i) := by
  have hcons : ∀ addr w ws, usbProgramBlock64.words m p.program addr (w :: ws) =
      (wordCommands m (p.base + p.addrOdd + (addr &&& 4)) p.cmdAA ++
        wordCommands m (p.base + p.addrEven + (addr &&& 4)) p.cmd55 ++
        wordCommands m (p.base + p.addrOdd + (addr &&& 4)) p.cmdA0 ++ wordCommands m addr w) ++
        usbProgramBlock64.words m p.program (addr + 4) ws := fun _ _ _ => rfl
  exact words_dataWords (fun _ => rfl) hcons p.addr p.data p.nwords.toNat

/-- `usb_program_block64` puts together one packet, and sends it. -/
theorem rawUsbProgramBlock64_eq (p : BlockArgs) :
    rawUsbProgramBlock64 m pipe p =
      onePacket (6 * 8 * p.nwords + 6) (usbProgramBlock64 m p.program) fun ptr =>
        sendPkt pipe ptr "Failed to program block32.\n" "Timeout programming block32, aborted. OSCR=%#x\n" [] := by
  have hwords : (usbProgramBlock64 m p.program) = _ ++ [statusCommand] :=
    congrArg (· ++ [statusCommand]) (usbProgramBlock64_words p)
  rw [hwords]
  simp only [rawUsbProgramBlock64, fillPkt_eq, fillWord_eq, ← fillAll_append, fillAll_bind, forEach_fillAll,
    List.append_assoc]
  rfl

/-- Where the words of a block have their own addresses. -/
theorem blockCommands_dataWords (addr : Word) (data : Nat → Word) (n : Nat) :
    blockCommands m addr (dataWords data n) =
      (List.range' 0 n).flatMap fun i => wordCommands m (addr + 4 * BitVec.ofNat 32 i) (data i) :=
  words_dataWords (fun _ => rfl) (fun _ _ _ => rfl) addr data n

/-- The commands of the second packet of a page. -/
def pageCommands (m : UsbMode) (p : ProgramArgs) : List UsbCommand := blockCommands m p.addr p.data ++ [statusCommand]

/-- The commands that let a page be written without its protection. -/
def unprotectCommands (m : UsbMode) (p : ProgramArgs) : List UsbCommand :=
  wordCommands m (p.base + p.addrOdd) p.cmdAA ++ wordCommands m (p.base + p.addrEven) p.cmd55 ++
  wordCommands m (p.base + p.addrOdd) 0x80808080 ++ wordCommands m (p.base + p.addrOdd) p.cmdAA ++
  wordCommands m (p.base + p.addrEven) p.cmd55 ++ wordCommands m (p.base + p.addrOdd) 0x20202020 ++ [statusCommand]

/-- The commands that protect the page again. -/
def protectCommands (m : UsbMode) (p : ProgramArgs) : List UsbCommand :=
  wordCommands m (p.base + p.addrOdd) p.cmdAA ++ wordCommands m (p.base + p.addrEven) p.cmd55 ++
  wordCommands m (p.base + p.addrOdd) p.cmdA0 ++ [statusCommand]

/-- What is done with the packets for the pages of the Atmel chips. -/
def sendAtmel (ptr : Nat) : PktAction σ Unit :=
  sendPkt pipe ptr "Failed to program block32 Atmel.\n" "Timeout programming block32 Atmel, aborted. OSCR=%#x\n" []

/-- The first packet is sent, and then the one with the words of the page. -/
def sendTwo (m : UsbMode) (p : ProgramArgs) (ptr : Nat) : PktAction σ Unit :=
  sendAtmel pipe ptr >>= fun _ => fillAll 0 (pageCommands m p) >>= sendAtmel pipe

/-- The words of a page are put in from the start of the array. -/
theorem rawUsbPage_eq (p : BlockArgs) :
    rawUsbPage m pipe p = fillAll 0 (pageCommands m p.program) >>= sendAtmel pipe := by
  rw [pageCommands, BlockArgs.program, blockCommands_dataWords]
  simp only [rawUsbPage, fillPkt_eq, fillWord_eq, fillAll_bind, forEach_fillAll]
  rfl

/-- `usb_program_block32_unprotect` sends two packets from one array. -/
theorem rawUsbProgramBlock32Unprotect_eq (p : BlockArgs) :
    rawUsbProgramBlock32Unprotect m pipe p =
      onePacket (6 * 18 + 6 * 2 * p.nwords + 6) (unprotectCommands m p.program) (sendTwo pipe m p.program) := by
  simp only [rawUsbProgramBlock32Unprotect, rawUsbPage_eq, fillPkt_eq, fillWord_eq, fillAll_bind,
    unprotectCommands, List.append_assoc]
  rfl

/-- `usb_program_block32_protect` sends two packets from one array. -/
theorem rawUsbProgramBlock32Protect_eq (p : BlockArgs) :
    rawUsbProgramBlock32Protect m pipe p =
      onePacket (6 * 18 + 6 * 2 * p.nwords + 6) (protectCommands m p.program) (sendTwo pipe m p.program) := by
  simp only [rawUsbProgramBlock32Protect, rawUsbPage_eq, fillPkt_eq, fillWord_eq, fillAll_bind,
    protectCommands, List.append_assoc]
  rfl

/-- The loop of the Micron builder, with `k` words to go: it puts in their commands, as far as its fuel
lets it. -/
theorem micronWords_eq {nMinus1 : Word} (addr : Word) (data : Nat → Word) (fuel : Nat) {i : Word} {k : Nat}
    (hk : i.toNat + k = nMinus1.toNat + 1) (hsteps : i.toNat + min fuel k < 2 ^ 32) (ptr : Nat) :
    (micronWords m nMinus1 addr data fuel i ptr : PktAction σ Nat) =
      fillAll ptr ((List.range' i.toNat (min fuel k)).flatMap fun j =>
        wordCommands m (addr + 4 * BitVec.ofNat 32 j) (data j)) >>= fun ptr =>
      if k < fuel then pure ptr else Program.stop .fuel := by
  induction fuel generalizing i k ptr with
  | zero =>
    rw [micronWords, Nat.zero_min, List.range'_zero, List.flatMap_nil, fillAll, pure_bind,
      if_neg (Nat.not_lt_zero k)]
  | succ fuel ih =>
    rw [micronWords]
    cases k with
    | zero =>
      have hdone : ¬ i ≤ nMinus1 := by
        rw [BitVec.le_def]
        omega
      rw [if_neg hdone, Nat.min_zero, List.range'_zero, List.flatMap_nil, fillAll, pure_bind,
        if_pos (Nat.zero_lt_succ fuel)]
    | succ k =>
      have hmore : i ≤ nMinus1 := by
        rw [BitVec.le_def]
        omega
      have hnext : (i + 1).toNat = i.toNat + 1 := by
        rw [BitVec.toNat_add]
        exact Nat.mod_eq_of_lt (by change i.toNat + 1 < 2 ^ 32; omega)
      have hi : BitVec.ofNat 32 i.toNat = i := by rw [BitVec.ofNat_toNat, BitVec.setWidth_eq]
      have htail : ∀ ptr, (micronWords m nMinus1 addr data fuel (i + 1) ptr : PktAction σ Nat) = _ :=
        fun ptr => ih (k := k) (by omega) (by omega) ptr
      rw [if_pos hmore, Nat.succ_min_succ, List.range'_succ, List.flatMap_cons, hi, fillWord_eq]
      simp only [htail, hnext, fillAll_bind, Nat.succ_lt_succ_iff]

/-- The loop over the words, from its start and for as long as the fuel lasts. -/
theorem micronWords_start {nMinus1 : Word} {fuel : Nat} (hsteps : min fuel (nMinus1.toNat + 1) < 2 ^ 32)
    (addr : Word) (data : Nat → Word) (ptr : Nat) :
    (micronWords m nMinus1 addr data fuel 0 ptr : PktAction σ Nat) =
      fillAll ptr (blockCommands m addr (dataWords data (min fuel (nMinus1.toNat + 1)))) >>= fun ptr =>
      if nMinus1.toNat + 1 < fuel then pure ptr else Program.stop .fuel := by
  rw [blockCommands_dataWords]
  exact micronWords_eq addr data fuel (Nat.zero_add (nMinus1.toNat + 1)) ((Nat.zero_add _).trans_lt hsteps) ptr

/-- The first commands of the Micron builder: the number of the words. -/
def countCommands (m : UsbMode) (nMinus1 addr : Word) : List UsbCommand :=
  wordCommands m (addr &&& 0xFFC00000) ((nMinus1 <<< 16) ||| nMinus1)

/-- With enough fuel `usb_program_block32_micron` puts together one packet, and sends it. -/
theorem rawUsbProgramBlock32Micron_eq {fuel : Nat} {nMinus1 : Word} (hlast : nMinus1.toNat + 1 < 2 ^ 32)
    (hfuel : nMinus1.toNat + 1 < fuel) (addr : Word) (data : Nat → Word) :
    rawUsbProgramBlock32Micron m pipe fuel nMinus1 addr data =
      onePacket (6 * (8 + 1) * (nMinus1 + 2) + 6)
        (usbProgramBlock32Micron m addr (dataWords data (nMinus1.toNat + 1))) fun ptr =>
        sendPkt pipe ptr "Failed to program block32.\n" "Timeout programming block32, aborted. OSCR=%#x\n" [] := by
  have hlen : (dataWords data (nMinus1.toNat + 1)).length - 1 = nMinus1.toNat := by
    rw [dataWords, List.length_map, List.length_range', Nat.add_sub_cancel]
  have hcount : BitVec.ofNat 32 nMinus1.toNat = nMinus1 := by rw [BitVec.ofNat_toNat, BitVec.setWidth_eq]
  rw [rawUsbProgramBlock32Micron, usbProgramBlock32Micron, hlen, hcount]
  have hsteps : min fuel (nMinus1.toNat + 1) < 2 ^ 32 := (Nat.min_le_right _ _).trans_lt hlast
  simp only [micronWords_start hsteps, if_pos hfuel, Nat.min_eq_right hfuel.le, bind_pure, fillPkt_eq, fillWord_eq,
    fillAll_bind, List.append_assoc]
  rfl

/-- With too little fuel the Micron builder stops in its loop. -/
theorem rawUsbProgramBlock32Micron_fuel {fuel : Nat} {nMinus1 : Word} (hsteps : fuel < 2 ^ 32)
    (hfuel : fuel ≤ nMinus1.toNat + 1) (addr : Word) (data : Nat → Word) :
    rawUsbProgramBlock32Micron m pipe fuel nMinus1 addr data =
      onePacket (6 * (8 + 1) * (nMinus1 + 2) + 6)
        (countCommands m nMinus1 addr ++ (blockCommands m addr (dataWords data fuel))) fun _ =>
        Program.stop .fuel := by
  have hmin : min fuel (nMinus1.toNat + 1) < 2 ^ 32 := (Nat.min_le_left _ _).trans_lt hsteps
  rw [rawUsbProgramBlock32Micron, countCommands]
  simp only [micronWords_start hmin, if_neg (Nat.not_lt.mpr hfuel), Nat.min_eq_left hfuel, fillWord_eq,
    bind_assoc, fillAll_bind]
  rfl

end Mcprog
