import Mcprog.Adapter.PacketBounds

/-!
# The sizes of the packet arrays

Each formula for the size of a packet array against the commands that its builder puts in, and the replies
that are waited for against those that the commands ask for.
-/

namespace Mcprog

open Interaction Program

variable {σ : Type} {m : UsbMode} {pipe : BulkPipe σ}

/-- A list of commands with its length and the number of the replies. -/
structure Counted (cs : List UsbCommand) (len replies : Nat) : Prop where
  length_eq : cs.length = len
  reads_eq : readCount cs = replies

/-- Two lists are counted one after the other. -/
theorem Counted.append {cs cs' : List UsbCommand} {n n' k k' : Nat} (h : Counted cs n k) (h' : Counted cs' n' k') :
    Counted (cs ++ cs') (n + n') (k + k') where
  length_eq := by rw [List.length_append, h.length_eq, h'.length_eq]
  reads_eq := by rw [readCount, List.countP_append, ← readCount, ← readCount, h.reads_eq, h'.reads_eq]

/-- The same numbers in other words. -/
theorem Counted.of_eq {cs : List UsbCommand} {n n' k k' : Nat} (h : Counted cs n k) (hn : n = n') (hk : k = k') :
    Counted cs n' k' := hn ▸ hk ▸ h

theorem counted_nil : Counted [] 0 0 := ⟨rfl, rfl⟩

/-- A command that writes a register has no reply. -/
theorem counted_write {cmd : Byte} {reg : Nat} {data : Word} (h : reg &&& irdRead = 0) :
    Counted [⟨cmd, reg, data⟩] 1 0 :=
  ⟨rfl, List.countP_cons_of_neg fun hreads => of_decide_eq_true hreads h⟩

/-- A command that reads a register has one. -/
theorem counted_read {cmd : Byte} {reg : Nat} {data : Word} (h : reg &&& irdRead ≠ 0) :
    Counted [⟨cmd, reg, data⟩] 1 1 :=
  ⟨rfl, List.countP_cons_of_pos (decide_eq_true h)⟩

theorem counted_wordCommands (addr data : Word) : Counted (wordCommands m addr data) 2 0 :=
  (counted_write (by decide)).append (counted_write (by decide))

/-- The command for the state has a reply. -/
theorem counted_statusCommand : Counted [statusCommand] 1 1 := counted_read (by decide)

/-- Commands for each word of a list. -/
theorem counted_words (words : Word → List Word → List UsbCommand) {f : Word → Word → List UsbCommand} {n : Nat}
    (hnil : ∀ addr, words addr [] = [])
    (hcons : ∀ addr w ws, words addr (w :: ws) = f addr w ++ words (addr + 4) ws)
    (hf : ∀ addr w, Counted (f addr w) n 0) (addr : Word) (ws : List Word) :
    Counted (words addr ws) (n * ws.length) 0 := by
  induction ws generalizing addr with
  | nil =>
    rw [hnil]
    exact counted_nil
  | cons w ws ih =>
    rw [hcons]
    exact ((hf addr w).append (ih (addr + 4))).of_eq (by rw [List.length_cons, Nat.mul_succ, Nat.add_comm]) rfl

/-- Two commands for each word of a block. -/
theorem counted_blockCommands (addr : Word) (ws : List Word) : Counted (blockCommands m addr ws) (2 * ws.length) 0 :=
  counted_words (blockCommands m) (fun _ => rfl) (fun _ _ _ => rfl) counted_wordCommands addr ws

/-- One command for each word, and two more. -/
theorem counted_usbWriteBlock (addr : Word) {ws : List Word} (hws : ws ≠ []) :
    Counted (usbWriteBlock m addr ws) (ws.length + 2) 1 := by
  have hwords : ∀ ws, ws ≠ [] → Counted (usbWriteBlock.words m ws) ws.length 0 := by
    intro ws hws
    induction ws with
    | nil => exact absurd rfl hws
    | cons w ws ih =>
      cases ws with
      | nil => exact counted_write (by decide)
      | cons v ws =>
        have hw : Counted [⟨hdr (h32 ||| m.wr), oncdOmdr, w⟩] 1 0 := counted_write (by decide)
        exact (hw.append (ih (List.cons_ne_nil v ws))).of_eq (Nat.add_comm 1 _) rfl
  have haddr : Counted [⟨hdr (h32 ||| m.wr), oncdOmar, addr⟩] 1 0 := counted_write (by decide)
  exact (haddr.append ((hwords ws hws).append counted_statusCommand)).of_eq (by omega) rfl

/-- Two commands for each word, and one more. -/
theorem counted_usbWriteNwords (args : List (Word × Word)) :
    Counted (usbWriteNwords m args) (2 * args.length + 1) 1 := by
  have hwords : Counted (args.flatMap fun a => wordCommands m a.1 a.2) (2 * args.length) 0 := by
    induction args with
    | nil => exact counted_nil
    | cons a args ih =>
      exact ((counted_wordCommands a.1 a.2).append ih).of_eq (by rw [List.length_cons]; omega) rfl
  exact hwords.append counted_statusCommand

/-- One command for each word, and two more: all but the first have replies. -/
theorem counted_usbReadBlock (addr : Word) {n : Nat} (hn : 1 ≤ n) :
    Counted (usbReadBlock m addr n) (n + 2) (n + 1) := by
  have hread : ∀ cmd : Byte, Counted [⟨cmd, oncdOmdr ||| irdRead, 0⟩] 1 1 := fun _ => counted_read (by decide)
  have hwords : ∀ (cmd : Byte) (n i : Nat),
      Counted ((List.range' i n).flatMap fun _ => [⟨cmd, oncdOmdr ||| irdRead, 0⟩]) n n := by
    intro cmd n
    induction n with
    | zero => exact fun _ => counted_nil
    | succ n ih =>
      intro i
      rw [List.range'_succ, List.flatMap_cons]
      exact ((hread cmd).append (ih (i + 1))).of_eq (Nat.add_comm 1 n) (Nat.add_comm 1 n)
  have haddr : ∀ cmd : Byte, Counted [⟨cmd, oncdOmar, addr⟩] 1 0 := fun _ => counted_write (by decide)
  exact ((haddr _).append ((hwords _ (n - 1) 0).append ((hread _).append counted_statusCommand))).of_eq
    (by omega) (by omega)

/-- Nine commands for each word, and one more. -/
theorem counted_usbProgramBlock32 (p : ProgramArgs) :
    Counted (usbProgramBlock32 m p) (9 * p.data.length + 1) 1 := by
  have hdelay : Counted [⟨hdr h32, oncdOmdr, 0⟩] 1 0 := counted_write (by decide)
  have hwords := counted_words (usbProgramBlock32.words m p) (fun _ => rfl) (fun _ _ _ => rfl)
    (fun addr w => ((((counted_wordCommands (m := m) (p.base + p.addrOdd) p.cmdAA).append
      (counted_wordCommands (p.base + p.addrEven) p.cmd55)).append
      (counted_wordCommands (p.base + p.addrOdd) p.cmdA0)).append (counted_wordCommands addr w)).append hdelay)
    p.addr p.data
  exact hwords.append counted_statusCommand

/-- Eight commands for each word, and one more. -/
theorem counted_usbProgramBlock64 (p : ProgramArgs) :
    Counted (usbProgramBlock64 m p) (8 * p.data.length + 1) 1 := by
  have hwords := counted_words (usbProgramBlock64.words m p) (fun _ => rfl) (fun _ _ _ => rfl)
    (fun addr w => (((counted_wordCommands (m := m) (p.base + p.addrOdd + (addr &&& 4)) p.cmdAA).append
      (counted_wordCommands (p.base + p.addrEven + (addr &&& 4)) p.cmd55)).append
      (counted_wordCommands (p.base + p.addrOdd + (addr &&& 4)) p.cmdA0)).append (counted_wordCommands addr w))
    p.addr p.data
  exact hwords.append counted_statusCommand

theorem counted_pageCommands (p : ProgramArgs) : Counted (pageCommands m p) (2 * p.data.length + 1) 1 :=
  (counted_blockCommands p.addr p.data).append counted_statusCommand

/-- The first packet for a page that stays protected. -/
theorem counted_protectCommands (p : ProgramArgs) : Counted (protectCommands m p) 7 1 :=
  (((counted_wordCommands _ _).append (counted_wordCommands _ _)).append (counted_wordCommands _ _)).append
    counted_statusCommand

/-- The first packet for a page that is not. -/
theorem counted_unprotectCommands (p : ProgramArgs) : Counted (unprotectCommands m p) 13 1 :=
  ((((((counted_wordCommands _ _).append (counted_wordCommands _ _)).append (counted_wordCommands _ _)).append
    (counted_wordCommands _ _)).append (counted_wordCommands _ _)).append (counted_wordCommands _ _)).append
    counted_statusCommand

theorem length_dataWords (data : Nat → Word) (n : Nat) : (dataWords data n).length = n := by
  rw [dataWords, List.length_map, List.length_range']

/-- The commands before the builder for the Micron chips runs out of fuel. -/
theorem counted_shortMicron (nMinus1 addr : Word) (data : Nat → Word) (n : Nat) :
    Counted (countCommands m nMinus1 addr ++ blockCommands m addr (dataWords data n)) (2 * n + 2) 0 := by
  have hlen : (dataWords data n).length = n := length_dataWords data n
  exact ((counted_wordCommands _ _).append (counted_blockCommands addr _)).of_eq (by rw [hlen, Nat.add_comm]) rfl

/-- Two commands for each word, and five more. -/
theorem counted_usbProgramBlock32Micron (addr : Word) (ws : List Word) :
    Counted (usbProgramBlock32Micron m addr ws) (2 * ws.length + 5) 1 :=
  ((((counted_wordCommands _ _).append (counted_blockCommands addr ws)).append (counted_wordCommands _ _)).append
    counted_statusCommand).of_eq (by omega) rfl

/-- A call of one of the builders, with its arguments. -/
inductive UsbBuilder
  | writeBlock (nwords addr : Word) (data : Nat → Word)
  | writeNwords (nwords : Word) (args : Nat → Word)
  | readBlock (nwords addr : Word)
  | programBlock32 (p : BlockArgs)
  | programBlock32Unprotect (p : BlockArgs)
  | programBlock32Protect (p : BlockArgs)
  | programBlock64 (p : BlockArgs)
  | programBlock32Micron (nMinus1 addr : Word) (data : Nat → Word)

namespace UsbBuilder

/-- The run of the builder. Only the one for the Micron chips needs fuel. -/
def run (m : UsbMode) (pipe : BulkPipe σ) (fuel : Nat) : UsbBuilder → PktAction σ Unit
  | writeBlock nwords addr data => rawUsbWriteBlock m pipe nwords addr data
  | writeNwords nwords args => rawUsbWriteNwords m pipe nwords args
  | readBlock nwords addr => do
    let _ ← rawUsbReadBlock m pipe nwords addr
    return ()
  | programBlock32 p => rawUsbProgramBlock32 m pipe p
  | programBlock32Unprotect p => rawUsbProgramBlock32Unprotect m pipe p
  | programBlock32Protect p => rawUsbProgramBlock32Protect m pipe p
  | programBlock64 p => rawUsbProgramBlock64 m pipe p
  | programBlock32Micron nMinus1 addr data => rawUsbProgramBlock32Micron m pipe fuel nMinus1 addr data

/-- The builder is called for one word at least. The one for the Micron chips has no other call. -/
def HasWords : UsbBuilder → Prop
  | writeBlock nwords _ _ => 1 ≤ nwords.toNat
  | writeNwords nwords _ => 1 ≤ nwords.toNat
  | readBlock nwords _ => 1 ≤ nwords.toNat
  | programBlock32 p => 1 ≤ p.nwords.toNat
  | programBlock32Unprotect p => 1 ≤ p.nwords.toNat
  | programBlock32Protect p => 1 ≤ p.nwords.toNat
  | programBlock64 p => 1 ≤ p.nwords.toNat
  | programBlock32Micron _ _ _ => True

/-- The fuel that the builder needs for its loop. -/
def steps : UsbBuilder → Nat
  | programBlock32Micron nMinus1 _ _ => nMinus1.toNat + 2
  | _ => 0

/-- The value of the formula for the size of the array, as a number without an end. -/
def formula : UsbBuilder → Nat
  | writeBlock nwords _ _ => 6 + 6 * nwords.toNat + 6
  | writeNwords nwords _ => 6 * 2 * nwords.toNat + 6
  | readBlock nwords _ => 6 + 6 * nwords.toNat + 6
  | programBlock32 p => 6 * (8 + 1) * p.nwords.toNat + 6
  | programBlock32Unprotect p => 6 * 18 + 6 * 2 * p.nwords.toNat + 6
  | programBlock32Protect p => 6 * 18 + 6 * 2 * p.nwords.toNat + 6
  | programBlock64 p => 6 * 8 * p.nwords.toNat + 6
  | programBlock32Micron nMinus1 _ _ => 6 * (8 + 1) * (nMinus1.toNat + 2) + 6

/-- The size that the array is declared with. -/
def declared : UsbBuilder → Word
  | writeBlock nwords _ _ => 6 + 6 * nwords + 6
  | writeNwords nwords _ => 6 * 2 * nwords + 6
  | readBlock nwords _ => 6 + 6 * nwords + 6
  | programBlock32 p => 6 * (8 + 1) * p.nwords + 6
  | programBlock32Unprotect p => 6 * 18 + 6 * 2 * p.nwords + 6
  | programBlock32Protect p => 6 * 18 + 6 * 2 * p.nwords + 6
  | programBlock64 p => 6 * 8 * p.nwords + 6
  | programBlock32Micron nMinus1 _ _ => 6 * (8 + 1) * (nMinus1 + 2) + 6

/-- The array is declared with the low 32 bits of the formula. -/
theorem declared_eq (b : UsbBuilder) : b.declared = BitVec.ofNat 32 b.formula := by
  have hword : ∀ n : Word, BitVec.ofNat 32 n.toNat = n := fun n => by rw [BitVec.ofNat_toNat, BitVec.setWidth_eq]
  cases b <;> simp only [declared, formula, BitVec.ofNat_add, BitVec.ofNat_mul, hword] <;> rfl

/-- A formula that does not wrap around is the size. -/
theorem toNat_declared {b : UsbBuilder} (hsize : b.formula < 2 ^ 32) : b.declared.toNat = b.formula := by
  rw [declared_eq, BitVec.toNat_ofNat, Nat.mod_eq_of_lt hsize]

/-- The formula does not wrap around. The array of the Micron builder is declared with more room than the
commands take, so that its formula may wrap around as long as there is room for them. -/
def Fits : UsbBuilder → Prop
  | programBlock32Micron nMinus1 addr data =>
    6 * (2 * nMinus1.toNat + 7) ≤ (programBlock32Micron nMinus1 addr data).declared.toNat
  | b => b.formula < 2 ^ 32

end UsbBuilder

/-- A device that takes everything, and delivers bytes of which all bits are set. -/
def readyPipe : BulkPipe Unit :=
  { zeroPipe with
    read := fun size _ => (some (List.replicate size 0xFF), ())
    read_le := fun h => by rw [← Option.some.inj h, List.length_replicate] }

/-- Such a device takes a packet, and the state that it delivers is that of a memory that is ready. -/
theorem reaches_sendPkt (ptr : Nat) (failed timeout : String) (values : List Word) (a : Attached Pkt Unit) :
    (sendPkt readyPipe ptr failed timeout values).Reaches a () a := by
  have hslice : ∀ n, (a.own.cells.slice 0 n).length = n := fun n => by
    rw [Cells.Buffer.slice, List.length_map, List.length_range]
  have hreply : ∀ text, (bulkReply readyPipe text 4).Reaches a (List.replicate 4 0xFF) a := fun text => ⟨_, rfl⟩
  have hwrite : ∀ wlen : Word, (bulkWriteRead readyPipe wlen 4).Reaches a (List.replicate 4 0xFF) a := by
    intro wlen
    have hsent : (mapEvents PktEvent.transfer (usbBulkWrite readyPipe (a.own.cells.slice 0 wlen.toNat))).Reaches a
        (some (a.own.cells.slice 0 wlen.toNat).length) a := ⟨_, rfl⟩
    refine (reaches_read a).bind (hsent.bind ?_)
    rw [hslice, if_neg (fun hne => hne rfl)]
    exact hreply _
  exact (hwrite (BitVec.ofNat 32 ptr)).bind ⟨_, rfl⟩

/-- A packet with one reply is served exactly if there is room for it. -/
theorem served_sendPkt_iff {size : Word} {cs : List UsbCommand} {n : Nat} (hcs : Counted cs n 1)
    (failed timeout : String) (values : List Word) (a : Attached Pkt σ) :
    PktServed (onePacket size cs (fun ptr => sendPkt pipe ptr failed timeout values) a).trace ↔
      6 * n ≤ size.toNat := by
  rw [← hcs.length_eq]
  refine ⟨fun h => (room_of_onePacket h.inside).1, fun hroom => ?_⟩
  have hsend : Triple (Stage size.toNat cs []) (sendPkt pipe (6 * cs.length) failed timeout values)
      (fun _ => Sent size.toNat cs) fun tr _ => PktServed tr :=
    triple_sendPkt failed timeout values (hroom.trans_lt size.isLt) hcs.reads_eq
  exact trace_onePacket hroom (hsend.post fun _ _ _ h => h.served) a

/-- The packet of a block that is read is served exactly if there is room for it. -/
theorem served_receiveBlock_iff {size nwords : Word} {cs : List UsbCommand}
    (hcs : Counted cs (nwords.toNat + 2) (nwords.toNat + 1)) {α : Type} (r : α) (a : Attached Pkt σ) :
    PktServed (onePacket size cs (fun ptr => receiveBlock pipe nwords ptr >>= fun _ => pure r) a).trace ↔
      6 * (nwords.toNat + 2) ≤ size.toNat := by
  rw [← hcs.length_eq]
  refine ⟨fun h => (room_of_onePacket h.inside).1, fun hroom => ?_⟩
  have hlt := hroom.trans_lt size.isLt
  have hwords : 4 * nwords.toNat < 2 ^ 32 := by
    rw [hcs.length_eq] at hlt
    omega
  exact trace_onePacket hroom
    ((triple_receiveBlock hlt hwords hcs.reads_eq).bind fun _ => triple_pure fun tr a h => h.served) a

/-- Two packets with one reply each, the second one over the first, are served with every device exactly if
there is room for both. -/
theorem served_page_iff {size : Word} {cs : List UsbCommand} {p : ProgramArgs} {n : Nat} (hcs : Counted cs n 1)
    (a₀ : Attached Pkt Unit) : (∀ (σ : Type) (pipe : BulkPipe σ) (a : Attached Pkt σ),
      PktServed (onePacket size cs (sendTwo pipe m p) a).trace) ↔
      6 * n ≤ size.toNat ∧ 6 * (2 * p.data.length + 1) ≤ size.toNat := by
  have hpage := counted_pageCommands (m := m) p
  rw [← hcs.length_eq, ← hpage.length_eq]
  constructor
  · intro h
    obtain ⟨hroom, a', hsize, hinside⟩ := room_of_onePacket (h Unit readyPipe a₀).inside
    obtain ⟨tr, hr⟩ : (sendAtmel readyPipe (6 * cs.length)).Reaches a' () a' := reaches_sendPkt _ _ _ [] a'
    obtain ⟨tr', a'', hr', -⟩ := returns_fillAll 0 (pageCommands m p) a'
    refine ⟨hroom, hsize ▸ room_of_inside hr' fun e he => hinside e ?_⟩
    rw [sendTwo, (result_bind_of_returns hr).2, (result_bind_of_returns hr').2]
    exact List.mem_append_right _ (List.mem_append_left _ he)
  · rintro ⟨hroom, hsecond⟩ σ pipe a
    refine trace_onePacket hroom ?_ a
    rw [sendTwo]
    refine (triple_sendPkt _ _ [] (hroom.trans_lt size.isLt) hcs.reads_eq).bind fun _ => ?_
    obtain ⟨c, cs', hpc⟩ : ∃ c cs', pageCommands m p = c :: cs' :=
      List.exists_cons_of_ne_nil (by simp [pageCommands])
    rw [hpc] at hsecond hpage ⊢
    refine (triple_nextPacket c cs' hsecond).bind fun ptr => triple_of_imp ?_
    rintro rfl
    exact (triple_sendPkt _ _ [] (hsecond.trans_lt size.isLt) hpage.reads_eq).post fun _ _ _ h => h.served

namespace UsbBuilder

/-- The builder is safe with every device and from every state, and serves each packet where its fuel lasts. -/
def SafeAlways (m : UsbMode) (b : UsbBuilder) : Prop :=
  ∀ (σ : Type) (pipe : BulkPipe σ) (fuel : Nat) (a : Attached Pkt σ),
    PktSafe (b.run m pipe fuel a).trace ∧ (b.steps ≤ fuel → PktServed (b.run m pipe fuel a).trace)

/-- What is in the array, and what is behind it, before it is declared. -/
def freshPkt : Attached Pkt Unit := ⟨⟨0, ⟨fun _ => 0, []⟩⟩, ()⟩

/-- A builder without fuel is safe exactly if it serves its packets with every device. -/
theorem safeAlways_iff {b : UsbBuilder} {P : Prop} (hsteps : b.steps = 0)
    (h : ∀ {σ : Type} (pipe : BulkPipe σ) (fuel : Nat) (a : Attached Pkt σ),
      PktServed (b.run m pipe fuel a).trace ↔ P) : b.SafeAlways m ↔ P := by
  constructor
  · intro hsafe
    exact (h readyPipe 0 freshPkt).mp ((hsafe Unit readyPipe 0 freshPkt).2 hsteps.le)
  · intro hP σ pipe fuel a
    have hserved := (h pipe fuel a).mpr hP
    exact ⟨hserved.safe, fun _ => hserved⟩

/-- Where the formula is what the packet needs, it has room exactly if the formula does not wrap around. -/
theorem room_iff {b : UsbBuilder} {n : Nat} (hn : 6 * n = b.formula) :
    6 * n ≤ b.declared.toNat ↔ b.formula < 2 ^ 32 := by
  rw [declared_eq, BitVec.toNat_ofNat]
  omega

/-- The words of a block, where there are some. -/
theorem counted_dataBlock {nwords : Word} (hwords : 1 ≤ nwords.toNat) (addr : Word) (data : Nat → Word) :
    Counted (usbWriteBlock m addr (dataWords data nwords.toNat)) (nwords.toNat + 2) 1 := by
  have hlen := length_dataWords data nwords.toNat
  have hne : dataWords data nwords.toNat ≠ [] := List.ne_nil_of_length_pos (by rwa [hlen])
  exact (counted_usbWriteBlock addr hne).of_eq (by rw [hlen]) rfl

/-- The builders of two packets have room for the first one, and for the second one exactly if the formula does
not wrap around. -/
theorem safeAlways_page_iff {b : UsbBuilder} {p : BlockArgs} {cs : List UsbCommand} {n : Nat} (hcs : Counted cs n 1)
    (hn : n ≤ 18) (hsteps : b.steps = 0) (hrun : ∀ {σ : Type} (pipe : BulkPipe σ) (fuel : Nat),
      b.run m pipe fuel = onePacket b.declared cs (sendTwo pipe m p.program))
    (hformula : b.formula = 6 * 18 + 6 * 2 * p.nwords.toNat + 6) : b.SafeAlways m ↔ b.formula < 2 ^ 32 := by
  have hlen : p.program.data.length = p.nwords.toNat := length_dataWords p.data p.nwords.toNat
  have hpage : b.SafeAlways m ↔ 6 * n ≤ b.declared.toNat ∧ 6 * (2 * p.nwords.toNat + 1) ≤ b.declared.toNat := by
    rw [← hlen, ← served_page_iff hcs freshPkt]
    constructor
    · intro h σ pipe a
      rw [← hrun pipe 0]
      exact (h σ pipe 0 a).2 hsteps.le
    · intro h σ pipe fuel a
      rw [hrun pipe fuel]
      exact ⟨(h σ pipe a).safe, fun _ => h σ pipe a⟩
  rw [hpage]
  clear hpage
  by_cases hwrap : b.formula < 2 ^ 32
  · rw [toNat_declared hwrap]
    exact iff_of_true ⟨by omega, by omega⟩ hwrap
  · have hless : b.declared.toNat + 2 ^ 32 ≤ b.formula := by
      rw [declared_eq, BitVec.toNat_ofNat]
      omega
    exact iff_of_false (fun hroom => absurd hroom.2 (by omega)) hwrap

/-- The Micron builder needs fuel for its words, and makes no transfer where it has too little. -/
theorem safeAlways_micron_iff (nMinus1 addr : Word) (data : Nat → Word) :
    (programBlock32Micron nMinus1 addr data).SafeAlways m ↔ (programBlock32Micron nMinus1 addr data).Fits := by
  have hlt := (programBlock32Micron nMinus1 addr data).declared.isLt
  have hcount : Counted (usbProgramBlock32Micron m addr (dataWords data (nMinus1.toNat + 1)))
      (2 * nMinus1.toNat + 7) 1 :=
    (counted_usbProgramBlock32Micron addr _).of_eq (by rw [length_dataWords]; omega) rfl
  constructor
  · intro h
    by_cases hlast : nMinus1.toNat + 1 < 2 ^ 32
    · have hsafe := (h Unit readyPipe (nMinus1.toNat + 2) freshPkt).2 (Nat.le_refl _)
      rw [run, rawUsbProgramBlock32Micron_eq readyPipe hlast (Nat.lt_succ_self _)] at hsafe
      exact (served_sendPkt_iff hcount _ _ _ _).mp hsafe
    · -- the loop has no end, and leaves an array of sixty bytes with its fifth word
      have hsafe := (h Unit readyPipe 5 freshPkt).1
      rw [run, rawUsbProgramBlock32Micron_fuel readyPipe (by decide) (by omega)] at hsafe
      have hroom := (room_of_onePacket hsafe.inside).1
      rw [(counted_shortMicron nMinus1 addr data 5).length_eq] at hroom
      have hdeclared := congrArg BitVec.toNat (programBlock32Micron nMinus1 addr data).declared_eq
      rw [BitVec.toNat_ofNat] at hdeclared
      dsimp only [declared, formula] at hdeclared
      have hmax := nMinus1.isLt
      omega
  · intro hfits σ pipe fuel a
    have hroom : 6 * (2 * nMinus1.toNat + 7) ≤ (programBlock32Micron nMinus1 addr data).declared.toNat := hfits
    by_cases hfuel : nMinus1.toNat + 1 < fuel
    · have hserved : PktServed ((programBlock32Micron nMinus1 addr data).run m pipe fuel a).trace := by
        rw [run, rawUsbProgramBlock32Micron_eq pipe (by omega) hfuel]
        exact (served_sendPkt_iff hcount _ _ _ a).mpr hroom
      exact ⟨hserved.safe, fun _ => hserved⟩
    · refine ⟨?_, fun hsteps => absurd hsteps hfuel⟩
      rw [run, rawUsbProgramBlock32Micron_fuel pipe (by omega) (Nat.not_lt.mp hfuel)]
      refine trace_onePacket ?_ (triple_stop fun tr a h => h.safe) a
      rw [(counted_shortMicron nMinus1 addr data fuel).length_eq]
      exact le_trans (by omega) hroom

/-- A builder that is called for some words stores only inside of its array, sends its packets and waits for
the replies that they ask for, if and only if the size of the array fits. -/
theorem safeAlways_iff_fits {b : UsbBuilder} (hwords : b.HasWords) (m : UsbMode) : b.SafeAlways m ↔ b.Fits := by
  cases b with
  | writeBlock nwords addr data =>
    refine (safeAlways_iff rfl fun pipe fuel a => ?_).trans (room_iff (n := nwords.toNat + 2) ?_)
    · rw [run, rawUsbWriteBlock_eq pipe hwords]
      exact served_sendPkt_iff (counted_dataBlock hwords addr data) _ _ _ a
    · dsimp only [formula]
      omega
  | writeNwords nwords args =>
    have hlen : (nwordsPairs args nwords.toNat).length = nwords.toNat := by
      rw [nwordsPairs, List.length_map, List.length_range']
    refine (safeAlways_iff rfl fun pipe fuel a => ?_).trans (room_iff (n := 2 * nwords.toNat + 1) ?_)
    · rw [run, rawUsbWriteNwords_eq]
      exact served_sendPkt_iff ((counted_usbWriteNwords _).of_eq (by rw [hlen]) rfl) _ _ _ a
    · dsimp only [formula]
      omega
  | readBlock nwords addr =>
    refine (safeAlways_iff rfl fun pipe fuel a => ?_).trans (room_iff (n := nwords.toNat + 2) ?_)
    · rw [run, rawUsbReadBlock_eq, onePacket_bind]
      exact served_receiveBlock_iff (counted_usbReadBlock addr hwords) () a
    · dsimp only [formula]
      omega
  | programBlock32 p =>
    have hlen := length_dataWords p.data p.nwords.toNat
    refine (safeAlways_iff rfl fun pipe fuel a => ?_).trans (room_iff (n := 9 * p.nwords.toNat + 1) ?_)
    · rw [run, rawUsbProgramBlock32_eq]
      exact served_sendPkt_iff ((counted_usbProgramBlock32 _).of_eq (by rw [BlockArgs.program, hlen]) rfl) _ _ _ a
    · dsimp only [formula]
      omega
  | programBlock32Unprotect p =>
    exact safeAlways_page_iff (counted_unprotectCommands _) (by decide) rfl
      (fun pipe _ => rawUsbProgramBlock32Unprotect_eq pipe p) rfl
  | programBlock32Protect p =>
    exact safeAlways_page_iff (counted_protectCommands _) (by decide) rfl
      (fun pipe _ => rawUsbProgramBlock32Protect_eq pipe p) rfl
  | programBlock64 p =>
    have hlen := length_dataWords p.data p.nwords.toNat
    refine (safeAlways_iff rfl fun pipe fuel a => ?_).trans (room_iff (n := 8 * p.nwords.toNat + 1) ?_)
    · rw [run, rawUsbProgramBlock64_eq]
      exact served_sendPkt_iff ((counted_usbProgramBlock64 _).of_eq (by rw [BlockArgs.program, hlen]) rfl) _ _ _ a
    · dsimp only [formula]
      omega
  | programBlock32Micron nMinus1 addr data => exact safeAlways_micron_iff nMinus1 addr data

/-- Blocks of as many words as the adapter takes at once. -/
theorem safeAlways_block : (writeBlock 64 0 fun _ => 0).SafeAlways blockMode := by
  have hwords : (writeBlock 64 0 fun _ => 0).HasWords := show 1 ≤ (64 : Word).toNat by decide
  have hfits : (writeBlock 64 0 fun _ => 0).Fits := show 6 + 6 * (64 : Word).toNat + 6 < 2 ^ 32 by decide
  exact (safeAlways_iff_fits hwords blockMode).mpr hfits

/-- The array for so many words is declared with two bytes. -/
theorem writeBlock_leaves_array : (writeBlock 715827881 0 fun _ => 0).HasWords ∧
    ¬ ∀ e ∈ ((writeBlock 715827881 0 fun _ => 0).run blockMode readyPipe 0 freshPkt).trace, e.Inside := by
  have hwords : 1 ≤ (715827881 : Word).toNat := by decide
  refine ⟨hwords, fun h => ?_⟩
  rw [run, rawUsbWriteBlock_eq readyPipe hwords] at h
  have hroom := (room_of_onePacket h).1
  rw [(counted_dataBlock hwords 0 fun _ => 0).length_eq] at hroom
  exact absurd hroom (by decide)

end UsbBuilder

end Mcprog
