import Mcprog.Adapter.UsbDevice
import Mcprog.Library.Abstraction

/-!
# Rounds of the USB-JTAG adapter

A device behind the pipe that carries out the packets. The builders, called one after the other, then store
and load words of the memory: every one of them ends with no reply left over, from where the next one starts.
-/

namespace Mcprog

open Interaction Program Cells

variable {σ μ : Type} {M : AddressSpace μ} {m : UsbMode} {pipe : BulkPipe σ} {limit fuel : Nat}
  {view : σ → MemoryInterface μ × List Byte}

/-- A device behind the pipe that carries out packets of at most so many commands, forty by the format of the
packets. It holds the replies until they are read. -/
structure BulkPipe.Executes (pipe : BulkPipe σ) (M : AddressSpace μ) (limit : Nat)
    (view : σ → MemoryInterface μ × List Byte) : Prop where
  write : ∀ cs : List UsbCommand, cs.length ≤ limit → (∀ c ∈ cs, c.Known) → ∀ s, ∃ s',
    pipe.write (cs.flatMap UsbCommand.bytes) s = (some (cs.flatMap UsbCommand.bytes).length, s') ∧
      view s' = ((M.packet cs (view s).1).2, (view s).2 ++ (M.packet cs (view s).1).1)
  read : ∀ n s, n ≤ (view s).2.length → ∃ s', pipe.read n s = (some ((view s).2.take n), s') ∧
    view s' = ((view s).1, (view s).2.drop n)

/-- The commands in the array, and what the device is with its replies. -/
structure UsbRound (μ : Type) where
  commands : List UsbCommand
  device : MemoryInterface μ
  replies : List Byte

/-- The array starts with the commands, and the device is behind the pipe. -/
structure ShowsRound (view : σ → MemoryInterface μ × List Byte) (r : UsbRound μ) (a : Attached Pkt σ) : Prop where
  held : a.own.cells.slice 0 (6 * r.commands.length) = r.commands.flatMap UsbCommand.bytes
  view_eq : view a.usb = (r.device, r.replies)

theorem length_flatMap_bytes (cs : List UsbCommand) : (cs.flatMap UsbCommand.bytes).length = 6 * cs.length := by
  rw [List.length_flatMap]
  simp [Nat.mul_comm]

/-- The array is filled from a place on, and nothing else happens. -/
theorem reaches_fillAll (ptr : Nat) (cs : List UsbCommand) (a : Attached Pkt σ) :
    (fillAll ptr cs).Reaches a (ptr + 6 * cs.length)
      { a with own := ⟨a.own.size, a.own.cells.setAll ptr (cs.flatMap UsbCommand.bytes)⟩ } := by
  induction cs generalizing ptr a with
  | nil => exact reaches_pure _ _
  | cons c cs ih =>
    have hrest := ih (ptr + 6) { a with own := ⟨a.own.size, a.own.cells.setAll ptr c.bytes⟩ }
    have hptr : ptr + 6 + 6 * cs.length = ptr + 6 * (c :: cs).length := by
      rw [List.length_cons]
      omega
    have hcells : (a.own.cells.setAll ptr c.bytes).setAll (ptr + 6) (cs.flatMap UsbCommand.bytes) =
        a.own.cells.setAll ptr ((c :: cs).flatMap UsbCommand.bytes) := by
      rw [List.flatMap_cons, ← Buffer.setAll_append, UsbCommand.length_bytes]
    rw [hptr] at hrest
    dsimp only at hrest
    rw [hcells] at hrest
    exact Reaches.bind (Returns.reaches (fillPkt_apply ptr c)) hrest

/-- The commands of the array are those that were put in. -/
theorem performs_fillAll (cs : List UsbCommand) (r : UsbRound μ) :
    Performs (ShowsRound view) (fillAll 0 cs) r (6 * cs.length) { r with commands := cs } := by
  intro a h
  have hfill := reaches_fillAll 0 cs a
  rw [Nat.zero_add] at hfill
  refine ⟨_, hfill, ?_, h.view_eq⟩
  dsimp only
  rw [← length_flatMap_bytes]
  exact Buffer.slice_setAll _ _ _

/-- The array is declared anew, with nothing put in. -/
theorem performs_declarePkt (size : Word) (r : UsbRound μ) :
    Performs (ShowsRound view) (declarePkt size) r () { r with commands := [] } := by
  intro a h
  exact ⟨_, reaches_update _ _, rfl, h.view_eq⟩

/-- Replies that are there are read. -/
theorem performs_bulkReply (h : pipe.Executes M limit view) (text : String) {rlen : Word} {r : UsbRound μ}
    (hlen : rlen.toNat ≤ r.replies.length) : Performs (ShowsRound view) (bulkReply pipe text rlen) r
      (r.replies.take rlen.toNat) { r with replies := r.replies.drop rlen.toNat } := by
  intro a ha
  have hreplies : (view a.usb).2 = r.replies := by rw [ha.view_eq]
  obtain ⟨s', hread, hview⟩ := h.read rlen.toNat a.usb (by rwa [hreplies])
  rw [hreplies] at hread hview
  have hreach : (usbBulkRead pipe rlen.toNat : UsbAction Pkt σ _).Reaches a (some (r.replies.take rlen.toNat))
      { a with usb := s' } := reaches_request (by rw [hread])
  have htake : (r.replies.take rlen.toNat).length = rlen.toNat := List.length_take_of_le hlen
  refine ⟨{ a with usb := s' }, (hreach.mapEvents PktEvent.transfer).bind ?_, ha.held, ?_⟩
  · dsimp only
    rw [if_neg fun hne => hne htake]
    exact reaches_pure _ _
  · rw [hview, ha.view_eq]

/-- The packet in the array is sent, and the first of its replies are read. -/
theorem performs_bulkWriteRead (h : pipe.Executes M limit view) {cs : List UsbCommand} {i i' : MemoryInterface μ}
    {replies : List Byte} (hlimit : cs.length ≤ limit) (hsize : 6 * cs.length < 2 ^ 32) (hknown : ∀ c ∈ cs, c.Known)
    (hpacket : M.packet cs i = (replies, i')) {rlen : Word} (hlen : rlen.toNat ≤ replies.length) :
    Performs (ShowsRound view) (bulkWriteRead pipe (BitVec.ofNat 32 (6 * cs.length)) rlen) ⟨cs, i, []⟩
      (replies.take rlen.toNat) ⟨cs, i', replies.drop rlen.toNat⟩ := by
  have hwlen : (BitVec.ofNat 32 (6 * cs.length)).toNat = 6 * cs.length := by
    rw [BitVec.toNat_ofNat, Nat.mod_eq_of_lt hsize]
  intro a ha
  obtain ⟨s', hwrite, hview⟩ := h.write cs hlimit hknown a.usb
  have hslice : a.own.cells.slice 0 (BitVec.ofNat 32 (6 * cs.length)).toNat = cs.flatMap UsbCommand.bytes := by
    rw [hwlen]
    exact ha.held
  have hreach : (usbBulkWrite pipe (a.own.cells.slice 0 (BitVec.ofNat 32 (6 * cs.length)).toNat) :
      UsbAction Pkt σ _).Reaches a (some (6 * cs.length)) { a with usb := s' } := by
    refine reaches_request ?_
    rw [hslice, hwrite, length_flatMap_bytes]
  have hsent : ShowsRound view ⟨cs, i', replies⟩ { a with usb := s' } := by
    refine ⟨ha.held, ?_⟩
    rw [hview, ha.view_eq, hpacket]
    rfl
  obtain ⟨a', hrest, ha'⟩ := performs_bulkReply h
    "Bulk (write-)read failed: %d/%d bytes from endpoint %#x.\n" (r := ⟨cs, i', replies⟩) hlen _ hsent
  refine ⟨a', (reaches_read a).bind ((hreach.mapEvents PktEvent.transfer).bind ?_), ha'⟩
  rw [if_neg fun hne => hne (by rw [hwlen])]
  exact hrest

/-- A word is put together from its own bytes. -/
theorem wordOfBytes_leBytes (w : Word) : wordOfBytes (leBytes 4 w) = w := by
  have hbytes : wordOfBytes (leBytes 4 w) =
      ((((((0 <<< 8 ||| ((w >>> 24).setWidth 8).setWidth 32) <<< 8) ||| ((w >>> 16).setWidth 8).setWidth 32) <<< 8) |||
        ((w >>> 8).setWidth 8).setWidth 32) <<< 8) ||| (w.setWidth 8).setWidth 32 := rfl
  rw [hbytes]
  apply BitVec.eq_of_getLsbD_eq
  intro k hk
  simp only [BitVec.getLsbD_or, BitVec.getLsbD_shiftLeft, BitVec.getLsbD_setWidth, BitVec.getLsbD_ushiftRight]
  interval_cases k <;> simp

/-- The reply at the end of a packet says that the memory is ready. -/
theorem performs_checkReady (text : String) (values : List Word) (i : MemoryInterface μ) (r : UsbRound μ) :
    Performs (ShowsRound view) (checkReady text values (wordOfBytes (readyReply i)) : PktAction σ Unit) r () r := by
  have hready : (i.oscr ||| oscrRdym) &&& oscrRdym ≠ 0 := (shown_oscr_agrees i).2
  rw [readyReply, wordOfBytes_leBytes, checkReady, if_neg hready]
  exact performs_pure _ _

/-- A packet that stores is sent, and its reply read. -/
theorem performs_sendPkt (h : pipe.Executes M limit view) {cs : List UsbCommand} {args : List (Word × Word)}
    (hcs : StoringPacket cs args) (hlimit : cs.length ≤ limit) (hsize : 6 * cs.length < 2 ^ 32)
    (failed timeout : String) (values : List Word) (i : MemoryInterface μ) :
    ∃ i', i'.memory = M.storeAll args i.memory ∧
      Performs (ShowsRound view) (sendPkt pipe (6 * cs.length) failed timeout values) ⟨cs, i, []⟩ () ⟨cs, i', []⟩ := by
  obtain ⟨i', hpacket, hmem⟩ := hcs.packet (M := M) i
  have hlen : (readyReply i').length = (4 : Word).toNat := length_leBytes 4 _
  have hsend := performs_bulkWriteRead h hlimit hsize hcs.known hpacket hlen.ge
  rw [← hlen, List.take_length, List.drop_length] at hsend
  refine ⟨i', hmem, hsend.bind ?_⟩
  rw [if_neg fun hne => hne hlen]
  exact performs_checkReady timeout values i' _

/-- The device has this memory, and no reply left. -/
structure UsbIdle (view : σ → MemoryInterface μ × List Byte) (mem : μ) (a : Attached Pkt σ) : Prop where
  replies_eq : (view a.usb).2 = []
  memory_eq : (view a.usb).1.memory = mem

/-- A packet is put in from the start of the array, whatever is there. -/
theorem performs_onePacket {α : Type} (size : Word) (cs : List UsbCommand) {rest : Nat → PktAction σ α} {answer : α}
    {mem mem' : μ} (hrest : ∀ i : MemoryInterface μ, i.memory = mem → ∃ cs' i', i'.memory = mem' ∧
      Performs (ShowsRound view) (rest (6 * cs.length)) ⟨cs, i, []⟩ answer ⟨cs', i', []⟩) :
    Performs (UsbIdle view) (onePacket size cs rest) mem answer mem' := by
  intro a ha
  obtain ⟨cs', i', hmem, hperforms⟩ := hrest (view a.usb).1 ha.memory_eq
  have hstart : ShowsRound view ⟨[], (view a.usb).1, []⟩ a := ⟨rfl, Prod.ext rfl ha.replies_eq⟩
  have hdeclare : Performs (ShowsRound view) (declarePkt size) ⟨[], (view a.usb).1, []⟩ ()
      ⟨[], (view a.usb).1, []⟩ := performs_declarePkt size _
  have hfill : Performs (ShowsRound view) (fillAll 0 cs) ⟨[], (view a.usb).1, []⟩ (6 * cs.length)
      ⟨cs, (view a.usb).1, []⟩ := performs_fillAll cs _
  have hpacket : Performs (ShowsRound view) (onePacket size cs rest) ⟨[], (view a.usb).1, []⟩ answer ⟨cs', i', []⟩ := by
    rw [onePacket]
    exact hdeclare.bind (hfill.bind hperforms)
  obtain ⟨a', hreach, ha'⟩ := hpacket a hstart
  exact ⟨a', hreach, by rw [ha'.view_eq], by rw [ha'.view_eq, hmem]⟩

/-- One packet that stores. -/
theorem performs_storingPacket (h : pipe.Executes M limit view) {cs : List UsbCommand} {args : List (Word × Word)}
    (hcs : StoringPacket cs args) (hlimit : cs.length ≤ limit) (hsize : 6 * cs.length < 2 ^ 32) (size : Word)
    (failed timeout : String) (values : List Word) (mem : μ) :
    Performs (UsbIdle view) (onePacket size cs fun ptr => sendPkt pipe ptr failed timeout values) mem ()
      (M.storeAll args mem) := by
  refine performs_onePacket size cs fun i hi => ?_
  obtain ⟨i', hmem, hsend⟩ := performs_sendPkt h hcs hlimit hsize failed timeout values i
  exact ⟨cs, i', by rw [hmem, hi], hsend⟩

/-- Two packets that store, the second one with the words of a page. -/
theorem performs_page (h : pipe.Executes M limit view) (hm : m.Valid) {cs : List UsbCommand}
    {args : List (Word × Word)} (hcs : StoringPacket cs args) (hlimit : cs.length ≤ limit)
    (hsize : 6 * cs.length < 2 ^ 32) (p : ProgramArgs) (hlimit' : 2 * p.data.length + 1 ≤ limit)
    (hsize' : 6 * (2 * p.data.length + 1) < 2 ^ 32) (size : Word) (mem : μ) :
    Performs (UsbIdle view) (onePacket size cs (sendTwo pipe m p)) mem ()
      (M.storeAll (args ++ consecutive p.addr p.data) mem) := by
  have hpage := storingPacket_pageCommands hm p
  rw [← (counted_pageCommands (m := m) p).length_eq] at hlimit' hsize'
  refine performs_onePacket size cs fun i hi => ?_
  obtain ⟨i₁, hmem₁, hfirst⟩ := performs_sendPkt h hcs hlimit hsize "Failed to program block32 Atmel.\n"
    "Timeout programming block32 Atmel, aborted. OSCR=%#x\n" [] i
  obtain ⟨i', hmem, hsecond⟩ := performs_sendPkt h hpage hlimit' hsize' "Failed to program block32 Atmel.\n"
    "Timeout programming block32 Atmel, aborted. OSCR=%#x\n" [] i₁
  refine ⟨pageCommands m p, i', ?_, hfirst.bind ((performs_fillAll (pageCommands m p) _).bind hsecond)⟩
  rw [AddressSpace.storeAll_append, hmem, hmem₁, hi]

/-- The words of a block are read as the replies of its packet, and then the state. -/
theorem performs_receiveBlock (h : pipe.Executes M limit view) {cs : List UsbCommand} {i i' : MemoryInterface μ}
    {block : List Byte} {nwords : Word} (hlimit : cs.length ≤ limit) (hsize : 6 * cs.length < 2 ^ 32)
    (hknown : ∀ c ∈ cs, c.Known) (hpacket : M.packet cs i = (block ++ readyReply i', i'))
    (hlen : block.length = (4 * nwords).toNat) : Performs (ShowsRound view) (receiveBlock pipe nwords (6 * cs.length))
      ⟨cs, i, []⟩ block ⟨cs, i', []⟩ := by
  have hstate : (readyReply i').length = (4 : Word).toNat := length_leBytes 4 _
  have hle : (4 * nwords).toNat ≤ (block ++ readyReply i').length := by
    rw [List.length_append, hlen]
    exact Nat.le_add_right _ _
  have hdata := performs_bulkWriteRead h hlimit hsize hknown hpacket hle
  rw [← hlen, List.take_left, List.drop_left] at hdata
  have hreply : Performs (ShowsRound view) (bulkRead pipe 4) ⟨cs, i', readyReply i'⟩
      ((readyReply i').take (4 : Word).toNat) ⟨cs, i', (readyReply i').drop (4 : Word).toNat⟩ :=
    performs_bulkReply h _ hstate.ge
  rw [← hstate, List.take_length, List.drop_length] at hreply
  refine hdata.bind ?_
  rw [if_neg fun hne => hne hlen]
  refine hreply.bind ?_
  rw [if_neg fun hne => hne hstate]
  exact (performs_checkReady _ [] i' _).bind (performs_pure block _)

/-- `usb_read_block` answers the words of the block. -/
theorem performs_rawUsbReadBlock (h : pipe.Executes M limit view) (hm : m.Valid) {nwords : Word}
    (hwords : 1 ≤ nwords.toNat) (hlimit : nwords.toNat + 2 ≤ limit) (hsize : 6 * (nwords.toNat + 2) < 2 ^ 32)
    (addr : Word) (mem : μ) : Performs (UsbIdle view) (rawUsbReadBlock m pipe nwords addr) mem
      ((M.loadAll (wordSteps nwords.toNat addr) mem).1.flatMap (leBytes 4))
      (M.loadAll (wordSteps nwords.toNat addr) mem).2 := by
  have hlen : ((M.loadAll (wordSteps nwords.toNat addr) mem).1.flatMap (leBytes 4)).length = (4 * nwords).toNat := by
    have hmod : (4 * nwords).toNat = 4 * nwords.toNat := by
      rw [BitVec.toNat_mul]
      exact Nat.mod_eq_of_lt (show 4 * nwords.toNat < 2 ^ 32 by omega)
    rw [List.length_flatMap, hmod]
    simp [AddressSpace.length_loadAll, Nat.mul_comm]
  rw [← (counted_usbReadBlock (m := m) addr hwords).length_eq] at hlimit hsize
  rw [rawUsbReadBlock_eq]
  refine performs_onePacket _ _ fun i hi => ?_
  obtain ⟨hknown, i', hpacket, hmem⟩ := packet_usbReadBlock (M := M) hm addr hwords i
  rw [hi] at hpacket hmem
  exact ⟨_, i', hmem, performs_receiveBlock h hlimit hsize hknown hpacket hlen⟩

namespace UsbBuilder

/-- The words that the call stores, in their order. -/
def writes : UsbBuilder → List (Word × Word)
  | writeBlock nwords addr data => consecutive addr (dataWords data nwords.toNat)
  | writeNwords nwords args => nwordsPairs args nwords.toNat
  | readBlock _ _ => []
  | programBlock32 p => (consecutive p.addr p.program.data).flatMap fun a => program32Writes p.program a.1 a.2
  | programBlock32Unprotect p => unprotectWrites p.program ++ consecutive p.addr p.program.data
  | programBlock32Protect p => protectWrites p.program ++ consecutive p.addr p.program.data
  | programBlock64 p => (consecutive p.addr p.program.data).flatMap fun a => program64Writes p.program a.1 a.2
  | programBlock32Micron nMinus1 addr data => micronWrites addr (dataWords data (nMinus1.toNat + 1))

/-- The places that the call loads. -/
def loads : UsbBuilder → List Word
  | readBlock nwords addr => wordSteps nwords.toNat addr
  | _ => []

/-- What the call does to the memory. -/
def effect (M : AddressSpace μ) (b : UsbBuilder) (mem : μ) : μ := M.storeAll b.writes (M.loadAll b.loads mem).2

/-- The number of commands in the packet of the call, in the longer one where there are two. -/
def commands : UsbBuilder → Nat
  | writeBlock nwords _ _ => nwords.toNat + 2
  | writeNwords nwords _ => 2 * nwords.toNat + 1
  | readBlock nwords _ => nwords.toNat + 2
  | programBlock32 p => 9 * p.nwords.toNat + 1
  | programBlock32Unprotect p => max 13 (2 * p.nwords.toNat + 1)
  | programBlock32Protect p => max 7 (2 * p.nwords.toNat + 1)
  | programBlock64 p => 8 * p.nwords.toNat + 1
  | programBlock32Micron nMinus1 _ _ => 2 * nMinus1.toNat + 7

/-- The call is for some words, its array has room for its packets, the device takes that many commands in one
packet, and its fuel lasts. -/
structure Admissible (limit fuel : Nat) (b : UsbBuilder) : Prop where
  words : b.HasWords
  fits : b.Fits
  taken : b.commands ≤ limit
  lasts : b.steps ≤ fuel

/-- A call does to the memory what it is for, and leaves no reply behind. -/
theorem run_performs (h : pipe.Executes M limit view) (hm : m.Valid) {b : UsbBuilder} (hb : b.Admissible limit fuel)
    (mem : μ) : Performs (UsbIdle view) (b.run m pipe fuel) mem () (b.effect M mem) := by
  have hfits := hb.fits
  have htaken := hb.taken
  cases b with
  | writeBlock nwords addr data =>
    have hlen := (counted_dataBlock (m := m) hb.words addr data).length_eq
    dsimp only [Fits, formula, commands] at hfits htaken
    rw [run, rawUsbWriteBlock_eq pipe hb.words]
    exact performs_storingPacket h (storingPacket_usbWriteBlock hm addr _) (by omega) (by omega) _ _ _ _ mem
  | writeNwords nwords args =>
    have hlen := (counted_usbWriteNwords (m := m) (nwordsPairs args nwords.toNat)).length_eq
    rw [nwordsPairs, List.length_map, List.length_range', ← nwordsPairs] at hlen
    dsimp only [Fits, formula, commands] at hfits htaken
    rw [run, rawUsbWriteNwords_eq]
    exact performs_storingPacket h (storingPacket_usbWriteNwords hm _) (by omega) (by omega) _ _ _ _ mem
  | readBlock nwords addr =>
    dsimp only [Fits, formula, commands] at hfits htaken
    exact (performs_rawUsbReadBlock h hm hb.words htaken (by omega) addr mem).bind (performs_pure () _)
  | programBlock32 p =>
    have hlen := (counted_usbProgramBlock32 (m := m) p.program).length_eq
    rw [show p.program.data.length = p.nwords.toNat from length_dataWords p.data _] at hlen
    dsimp only [Fits, formula, commands] at hfits htaken
    rw [run, rawUsbProgramBlock32_eq]
    exact performs_storingPacket h (storingPacket_usbProgramBlock32 hm _) (by omega) (by omega) _ _ _ _ mem
  | programBlock32Unprotect p =>
    have hlen := (counted_unprotectCommands (m := m) p.program).length_eq
    have hdata : p.program.data.length = p.nwords.toNat := length_dataWords p.data _
    dsimp only [Fits, formula, commands] at hfits htaken
    obtain ⟨hfirst, hpage⟩ := max_le_iff.mp htaken
    rw [run, rawUsbProgramBlock32Unprotect_eq]
    exact performs_page h hm (storingPacket_unprotectCommands hm _) (by omega) (by omega) _ (by omega) (by omega) _ mem
  | programBlock32Protect p =>
    have hlen := (counted_protectCommands (m := m) p.program).length_eq
    have hdata : p.program.data.length = p.nwords.toNat := length_dataWords p.data _
    dsimp only [Fits, formula, commands] at hfits htaken
    obtain ⟨hfirst, hpage⟩ := max_le_iff.mp htaken
    rw [run, rawUsbProgramBlock32Protect_eq]
    exact performs_page h hm (storingPacket_protectCommands hm _) (by omega) (by omega) _ (by omega) (by omega) _ mem
  | programBlock64 p =>
    have hlen := (counted_usbProgramBlock64 (m := m) p.program).length_eq
    rw [show p.program.data.length = p.nwords.toNat from length_dataWords p.data _] at hlen
    dsimp only [Fits, formula, commands] at hfits htaken
    rw [run, rawUsbProgramBlock64_eq]
    exact performs_storingPacket h (storingPacket_usbProgramBlock64 hm _) (by omega) (by omega) _ _ _ _ mem
  | programBlock32Micron nMinus1 addr data =>
    have hlen := (counted_usbProgramBlock32Micron (m := m) addr (dataWords data (nMinus1.toNat + 1))).length_eq
    rw [length_dataWords] at hlen
    have hlasts := hb.lasts
    dsimp only [Fits, commands, steps] at hfits htaken hlasts
    have hroom := hfits.trans_lt (declared _).isLt
    rw [run, rawUsbProgramBlock32Micron_eq pipe (by omega) (by omega)]
    exact performs_storingPacket h (storingPacket_usbProgramBlock32Micron hm addr _) (by omega) (by omega) _ _ _ _ mem

/-- Calls one after the other. -/
def runAll (m : UsbMode) (pipe : BulkPipe σ) (fuel : Nat) : List UsbBuilder → PktAction σ Unit
  | [] => pure ()
  | b :: bs => do
    b.run m pipe fuel
    runAll m pipe fuel bs

/-- What calls do to the memory, one after the other. -/
def effects (M : AddressSpace μ) (bs : List UsbBuilder) (mem : μ) : μ := bs.foldl (fun mem b => b.effect M mem) mem

/-- Calls one after the other, by induction on them. -/
theorem runAll_performs (h : pipe.Executes M limit view) (hm : m.Valid) {bs : List UsbBuilder}
    (hbs : ∀ b ∈ bs, b.Admissible limit fuel) (mem : μ) :
    Performs (UsbIdle view) (runAll m pipe fuel bs) mem () (effects M bs mem) := by
  induction bs generalizing mem with
  | nil => exact performs_pure () mem
  | cons b bs ih =>
    refine (run_performs h hm (hbs b List.mem_cons_self) mem).bind ?_
    exact ih (fun b hb => hbs b (List.mem_cons_of_mem _ hb)) (b.effect M mem)

end UsbBuilder

/-- The builders in any order, and then a block that is read: its words are those that the calls before have left
in the memory. The mode is in no part of the answer. -/
theorem usbBuilders_readBlock (h : pipe.Executes M limit view) (hm : m.Valid) {bs : List UsbBuilder}
    (hbs : ∀ b ∈ bs, b.Admissible limit fuel) {nwords addr : Word}
    (hread : (UsbBuilder.readBlock nwords addr).Admissible limit fuel) {a : Attached Pkt σ} {mem : μ}
    (ha : UsbIdle view mem a) :
    ∃ a', (UsbBuilder.runAll m pipe fuel bs >>= fun _ => rawUsbReadBlock m pipe nwords addr).Reaches a
        ((M.loadAll (wordSteps nwords.toNat addr) (UsbBuilder.effects M bs mem)).1.flatMap (leBytes 4)) a' ∧
      UsbIdle view (M.loadAll (wordSteps nwords.toNat addr) (UsbBuilder.effects M bs mem)).2 a' := by
  have hfits := hread.fits
  have htaken := hread.taken
  dsimp only [UsbBuilder.Fits, UsbBuilder.formula, UsbBuilder.commands] at hfits htaken
  have hblock := performs_rawUsbReadBlock h hm hread.words htaken (by omega) addr (UsbBuilder.effects M bs mem)
  exact ((UsbBuilder.runAll_performs h hm hbs mem).bind hblock) a ha

/-- The commands in the bytes of a packet. -/
def usbCommandsOf : List Byte → List UsbCommand
  | cmd :: reg :: b₀ :: b₁ :: b₂ :: b₃ :: bytes =>
    ⟨cmd, reg.toNat, wordOfBytes [b₀, b₁, b₂, b₃]⟩ :: usbCommandsOf bytes
  | _ => []

/-- A device finds the commands in the bytes of a packet. -/
theorem usbCommandsOf_flatMap {cs : List UsbCommand} (h : ∀ c ∈ cs, c.Known) :
    usbCommandsOf (cs.flatMap UsbCommand.bytes) = cs := by
  induction cs with
  | nil => rfl
  | cons c cs ih =>
    have hreg : (BitVec.ofNat 8 c.reg).toNat = c.reg := by
      have hmem := (h c List.mem_cons_self).reg_mem
      rw [BitVec.toNat_ofNat]
      refine Nat.mod_eq_of_lt ?_
      simp only [List.mem_cons, List.not_mem_nil, or_false] at hmem
      rcases hmem with hreg | hreg | hreg | hreg <;> rw [hreg] <;> decide
    have hfirst : usbCommandsOf (c.bytes ++ cs.flatMap UsbCommand.bytes) =
        ⟨c.cmd, (BitVec.ofNat 8 c.reg).toNat, wordOfBytes (leBytes 4 c.data)⟩ ::
          usbCommandsOf (cs.flatMap UsbCommand.bytes) := rfl
    rw [List.flatMap_cons, hfirst, hreg, wordOfBytes_leBytes, ih fun c hc => h c (List.mem_cons_of_mem _ hc)]

/-- A device takes no more than it is given. -/
theorem written_le_length {bytes : List Byte} {n : Nat} (h : some bytes.length = some n) : n ≤ bytes.length :=
  (Option.some.inj h).symm.le

/-- A device gives no more than is asked for. -/
theorem taken_le_size {bytes reply : List Byte} {size : Nat} (h : some (bytes.take size) = some reply) :
    reply.length ≤ size := by
  rw [← Option.some.inj h]
  exact List.length_take_le _ _

/-- The device carries out each packet at once. -/
def usbMemory (M : AddressSpace μ) : BulkPipe (MemoryInterface μ × List Byte) where
  write bytes s :=
    (some bytes.length,
      (M.packet (usbCommandsOf bytes) s.1).2, s.2 ++ (M.packet (usbCommandsOf bytes) s.1).1)
  read size s := (some (s.2.take size), s.1, s.2.drop size)
  write_le := written_le_length
  read_le := taken_le_size

/-- The device of the example carries out packets of any length. -/
theorem usbMemory_executes (M : AddressSpace μ) (limit : Nat) : (usbMemory M).Executes M limit id where
  write cs _ hknown s := by
    refine ⟨_, rfl, ?_⟩
    rw [usbCommandsOf_flatMap hknown]
    rfl
  read _ _ _ := ⟨_, rfl, rfl⟩

/-- Words that stay where they are stored. -/
def wordCells : AddressSpace (Word → Word) where
  store addr val mem := Function.update mem addr val
  load addr mem := (mem addr, mem)

/-- Three words, one of which is replaced before they are read, and the longest packet for the Micron chips. -/
def usbCalls : List UsbBuilder :=
  [.writeBlock 3 0x100 fun i => BitVec.ofNat 32 (i + 5), .writeNwords 1 fun i => if i = 0 then 0x104 else 0x20304,
    .programBlock32Micron 15 0x200 fun i => BitVec.ofNat 32 i]

theorem usbCalls_admissible : ∀ b ∈ usbCalls, b.Admissible 40 17 := by
  rw [usbCalls, List.forall_mem_cons, List.forall_mem_cons, List.forall_mem_singleton]
  have hthree : 1 ≤ (3 : Word).toNat := by decide
  have hone : 1 ≤ (1 : Word).toNat := by decide
  have hblock : 6 + 6 * (3 : Word).toNat + 6 < 2 ^ 32 := by decide
  have hnwords : 6 * 2 * (1 : Word).toNat + 6 < 2 ^ 32 := by decide
  have hmicron : 6 * (2 * (15 : Word).toNat + 7) ≤ (6 * (8 + 1) * (15 + 2) + 6 : Word).toNat := by decide
  exact ⟨⟨hthree, hblock, by decide, by decide⟩, ⟨hone, hnwords, by decide, by decide⟩,
    ⟨trivial, hmicron, by decide, by decide⟩⟩

/-- The words that are read are those of the block and of the list, the packet for a Micron chip between them
and the read. -/
theorem usbBuilders_readBlock_three :
    (∀ b ∈ usbCalls, b.Admissible 40 17) ∧ ∃ a', (UsbBuilder.runAll blockMode (usbMemory wordCells) 17 usbCalls >>=
      fun _ => rawUsbReadBlock blockMode (usbMemory wordCells) 3 0x100).Reaches
        ⟨⟨0, ⟨fun _ => 0, []⟩⟩, ⟨0, 0, 0, fun _ => 0⟩, []⟩ [5, 0, 0, 0, 4, 3, 2, 0, 7, 0, 0, 0] a' := by
  refine ⟨usbCalls_admissible, ?_⟩
  have hthree : 1 ≤ (3 : Word).toNat := by decide
  have hblock : 6 + 6 * (3 : Word).toNat + 6 < 2 ^ 32 := by decide
  have hread : (UsbBuilder.readBlock 3 0x100).Admissible 40 17 := ⟨hthree, hblock, by decide, by decide⟩
  have hidle : UsbIdle id (fun _ => 0) (⟨⟨0, ⟨fun _ => 0, []⟩⟩, ⟨0, 0, 0, fun _ => 0⟩, []⟩ :
      Attached Pkt (MemoryInterface (Word → Word) × List Byte)) := ⟨rfl, rfl⟩
  obtain ⟨a', hreach, -⟩ := usbBuilders_readBlock (usbMemory_executes wordCells 40) (Or.inl rfl : blockMode.Valid)
    usbCalls_admissible hread hidle
  exact ⟨a', hreach⟩

end Mcprog
