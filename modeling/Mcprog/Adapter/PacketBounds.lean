import Mcprog.Adapter.UsbPackets
import Mcprog.Library.Triple

/-!
# The bounds of the packet arrays

What a run of a builder puts into its array is read off its events, packet by packet, with the transfers
that are made for each packet. The formula for the size of an array is matched with the commands that the
loop puts in, and the replies that are waited for with the commands that ask for one.
-/

namespace Mcprog

open Interaction Program Cells

variable {σ : Type} {m : UsbMode} {pipe : BulkPipe σ} {a : Attached Pkt σ}

/-- The command asks for a reply. -/
def UsbCommand.Reads (c : UsbCommand) : Prop := c.reg &&& irdRead ≠ 0

instance decidableReads (c : UsbCommand) : Decidable c.Reads := inferInstanceAs (Decidable (_ ≠ _))

/-- The number of the commands that ask for a reply. -/
def readCount (cs : List UsbCommand) : Nat := cs.countP fun c => decide c.Reads

/-- The bytes that are waited for. -/
def Transfer.awaited : Transfer → Nat
  | .write _ _ => 0
  | .read size _ => size

/-- The library takes all that it is given, and delivers all that it is asked for. -/
def Transfer.Complete : Transfer → Prop
  | .write bytes written => written = some bytes.length
  | .read size reply => reply.map List.length = some size

/-- A packet: the commands that are put into the array, and the transfers that are made with them. -/
structure Exchanged where
  commands : List UsbCommand
  transfers : List Transfer

/-- What is sent is what has been put in. No more bytes are waited for than the four of each command that
asks for a reply, and exactly these unless a transfer fails. -/
structure Exchanged.Answered (x : Exchanged) : Prop where
  sends : x.transfers.flatMap Transfer.given = x.commands.flatMap UsbCommand.bytes
  awaited_le : (x.transfers.map Transfer.awaited).sum ≤ 4 * readCount x.commands
  awaited_eq : (∀ t ∈ x.transfers, t.Complete) → (x.transfers.map Transfer.awaited).sum = 4 * readCount x.commands

/-- The packets that have been dealt with, and the one that is. -/
structure PacketLog where
  earlier : List Exchanged
  current : Exchanged

/-- A command that is put in after a transfer is the first one of the next packet. -/
def PacketLog.step (l : PacketLog) : PktEvent → PacketLog
  | .fill _ _ c =>
    if l.current.transfers = [] then ⟨l.earlier, ⟨l.current.commands ++ [c], []⟩⟩
    else ⟨l.earlier ++ [l.current], ⟨[c], []⟩⟩
  | .transfer t => ⟨l.earlier, ⟨l.current.commands, l.current.transfers ++ [t]⟩⟩

/-- The packets of a run. -/
def packetLog (tr : List PktEvent) : PacketLog := tr.foldl PacketLog.step ⟨[], ⟨[], []⟩⟩

/-- The command is stored inside the array as it is declared. -/
def PktEvent.Inside : PktEvent → Prop
  | .fill size ptr c => ptr + c.bytes.length ≤ size
  | .transfer _ => True

/-- Every packet of the run, the last one too. -/
def packets (tr : List PktEvent) : List Exchanged := (packetLog tr).earlier ++ [(packetLog tr).current]

/-- Every store of the run is inside the array, and the replies that are waited for are those of the packet
for each packet with which a transfer is made. -/
structure PktSafe (tr : List PktEvent) : Prop where
  inside : ∀ e ∈ tr, e.Inside
  answered : ∀ x ∈ packets tr, x.transfers ≠ [] → x.Answered

/-- The same, where each packet is sent. -/
structure PktServed (tr : List PktEvent) : Prop where
  inside : ∀ e ∈ tr, e.Inside
  answered : ∀ x ∈ packets tr, x.Answered

theorem PktServed.safe {tr : List PktEvent} (h : PktServed tr) : PktSafe tr :=
  ⟨h.inside, fun x hx _ => h.answered x hx⟩

@[simp] theorem UsbCommand.length_bytes (c : UsbCommand) : c.bytes.length = 6 := by
  simp [UsbCommand.bytes]

theorem packetLog_append (tr : List PktEvent) (e : PktEvent) :
    packetLog (tr ++ [e]) = (packetLog tr).step e := by
  rw [packetLog, List.foldl_append]
  rfl

/-- A packet with the commands `cs`, for which the transfers `ts` have been made. -/
structure Stage (size : Nat) (cs : List UsbCommand) (ts : List Transfer) (tr : List PktEvent)
    (a : Attached Pkt σ) : Prop where
  inside : ∀ e ∈ tr, e.Inside
  earlier : ∀ x ∈ (packetLog tr).earlier, x.Answered
  current : (packetLog tr).current = ⟨cs, ts⟩
  size_eq : a.own.size = size
  held : a.own.cells.slice 0 (6 * cs.length) = cs.flatMap UsbCommand.bytes

namespace Stage

variable {size : Nat} {cs : List UsbCommand} {ts : List Transfer} {tr : List PktEvent}

/-- With a packet that has not been sent, the run may still be left. -/
theorem safe (h : Stage size cs [] tr a) : PktSafe tr where
  inside := h.inside
  answered x hx hne := by
    rw [packets, h.current, List.mem_append, List.mem_singleton] at hx
    rcases hx with hx | rfl
    · exact h.earlier x hx
    · exact absurd rfl hne

/-- A packet that has been answered is served. -/
theorem served (h : Stage size cs ts tr a) (hlast : Exchanged.Answered ⟨cs, ts⟩) : PktServed tr where
  inside := h.inside
  answered x hx := by
    rw [packets, h.current, List.mem_append, List.mem_singleton] at hx
    rcases hx with hx | rfl
    · exact h.earlier x hx
    · exact hlast

/-- One store more is inside of the array. -/
theorem mem_append_inside (h : Stage size cs ts tr a) {e : PktEvent} (he : e.Inside) :
    ∀ e' ∈ tr ++ [e], e'.Inside := by
  intro e' he'
  rcases List.mem_append.mp he' with hmem | hmem
  · exact h.inside e' hmem
  · rwa [List.mem_singleton.mp hmem]

/-- A command is put in behind the others. -/
theorem fill (h : Stage size cs [] tr a) (c : UsbCommand) (hroom : 6 * cs.length + 6 ≤ size) :
    Stage size (cs ++ [c]) [] (tr ++ [.fill a.own.size (6 * cs.length) c])
      { a with own := ⟨a.own.size, a.own.cells.setAll (6 * cs.length) c.bytes⟩ } where
  inside := h.mem_append_inside (by
    rw [PktEvent.Inside, UsbCommand.length_bytes, h.size_eq]
    exact hroom)
  earlier := by
    rw [packetLog_append, PacketLog.step, h.current, if_pos rfl]
    exact h.earlier
  current := by
    rw [packetLog_append, PacketLog.step, h.current, if_pos rfl]
  size_eq := h.size_eq
  held := by
    have hfirst : (a.own.cells.setAll (6 * cs.length) c.bytes).slice 0 (6 * cs.length) =
        a.own.cells.slice 0 (6 * cs.length) :=
      Buffer.slice_congr fun j _ hj => Buffer.get_setAll_of_lt _ (by omega) _
    have hlast : (a.own.cells.setAll (6 * cs.length) c.bytes).slice (0 + 6 * cs.length) 6 = c.bytes := by
      rw [Nat.zero_add, ← c.length_bytes, Buffer.slice_setAll]
    rw [List.length_append, List.length_singleton, Nat.mul_succ, Buffer.slice_add, hfirst, hlast, h.held,
      List.flatMap_append, List.flatMap_singleton]

/-- A command begins the next packet. -/
theorem start (h : Stage size cs ts tr a) (hts : ts ≠ []) (hx : Exchanged.Answered ⟨cs, ts⟩) (c : UsbCommand)
    (hroom : 6 ≤ size) : Stage size [c] [] (tr ++ [.fill a.own.size 0 c])
      { a with own := ⟨a.own.size, a.own.cells.setAll 0 c.bytes⟩ } where
  inside := h.mem_append_inside (by
    rw [PktEvent.Inside, UsbCommand.length_bytes, h.size_eq, Nat.zero_add]
    exact hroom)
  earlier x hmem := by
    rw [packetLog_append, PacketLog.step, h.current, if_neg hts, List.mem_append, List.mem_singleton] at hmem
    rcases hmem with hmem | rfl
    · exact h.earlier x hmem
    · exact hx
  current := by
    rw [packetLog_append, PacketLog.step, h.current, if_neg hts]
  size_eq := h.size_eq
  held := by
    rw [List.length_singleton, Nat.mul_one, List.flatMap_singleton, ← c.length_bytes, Buffer.slice_setAll]

/-- A transfer is made with the packet. -/
theorem transfer (h : Stage size cs ts tr a) (t : Transfer) {a' : Attached Pkt σ} (ha : a'.own = a.own) :
    Stage size cs (ts ++ [t]) (tr ++ [.transfer t]) a' where
  inside := h.mem_append_inside trivial
  earlier := by
    rw [packetLog_append, PacketLog.step]
    exact h.earlier
  current := by
    rw [packetLog_append, PacketLog.step, h.current]
  size_eq := by rw [ha, h.size_eq]
  held := by rw [ha, h.held]

end Stage

/-- The packet has been sent and its replies have come. -/
def Sent (size : Nat) (cs : List UsbCommand) (tr : List PktEvent) (a : Attached Pkt σ) : Prop :=
  ∃ ts, ts ≠ [] ∧ Exchanged.Answered ⟨cs, ts⟩ ∧ Stage size cs ts tr a

/-- What has been sent has been answered. -/
theorem Sent.served {size : Nat} {cs : List UsbCommand} {tr : List PktEvent} (h : Sent size cs tr a) :
    PktServed tr := by
  obtain ⟨ts, -, hx, hstage⟩ := h
  exact hstage.served hx

variable {size : Nat} {cs : List UsbCommand} {P : Assertion PktEvent (Attached Pkt σ)}

/-- `fill_pkt` stores the command and answers with the place behind it. -/
theorem fillPkt_apply (ptr : Nat) (c : UsbCommand) : (fillPkt ptr c.cmd c.reg c.data : PktAction σ Nat) a =
    ⟨[.fill a.own.size ptr c], { a with own := ⟨a.own.size, a.own.cells.setAll ptr c.bytes⟩ }, .ok (ptr + 6)⟩ :=
  rfl

/-- A packet goes on with more commands, as long as there is room for them. -/
theorem triple_fillAll (cs cs' : List UsbCommand) (hroom : 6 * (cs ++ cs').length ≤ size) :
    Triple (Stage size cs []) (fillAll (6 * cs.length) cs' : PktAction σ Nat)
      (fun ptr tr a => ptr = 6 * (cs ++ cs').length ∧ Stage size (cs ++ cs') [] tr a) P := by
  induction cs' generalizing cs with
  | nil =>
    refine triple_pure fun tr a h => ?_
    rw [List.append_nil]
    exact ⟨rfl, h⟩
  | cons c cs' ih =>
    have hlen : (cs ++ [c]).length = cs.length + 1 := by rw [List.length_append, List.length_singleton]
    have hcs : cs ++ c :: cs' = (cs ++ [c]) ++ cs' := by rw [List.append_assoc, List.singleton_append]
    rw [hcs] at hroom ⊢
    have hfits : 6 * cs.length + 6 ≤ size := by
      rw [List.length_append, hlen] at hroom
      omega
    have hfirst : Triple (Stage size cs []) (fillPkt (6 * cs.length) c.cmd c.reg c.data : PktAction σ Nat)
        (fun ptr tr a => ptr = 6 * (cs ++ [c]).length ∧ Stage size (cs ++ [c]) [] tr a) P := by
      intro tr a h
      rw [fillPkt_apply]
      exact ⟨by rw [hlen, Nat.mul_succ], h.fill c hfits⟩
    refine hfirst.bind fun ptr => triple_of_imp ?_
    rintro rfl
    exact ih (cs ++ [c]) hroom

/-- The first commands of a run. -/
theorem triple_firstPacket (cs : List UsbCommand) (hroom : 6 * cs.length ≤ size) :
    Triple (Stage size [] []) (fillAll 0 cs : PktAction σ Nat)
      (fun ptr tr a => ptr = 6 * cs.length ∧ Stage size cs [] tr a) P :=
  triple_fillAll [] cs hroom

/-- The commands of the next packet, which starts where the one before has started. -/
theorem triple_nextPacket {cs : List UsbCommand} (c : UsbCommand) (cs' : List UsbCommand)
    (hroom : 6 * (c :: cs').length ≤ size) : Triple (Sent size cs) (fillAll 0 (c :: cs') : PktAction σ Nat)
      (fun ptr tr a => ptr = 6 * (c :: cs').length ∧ Stage size (c :: cs') [] tr a) P := by
  have hfits : 6 ≤ size := by
    rw [List.length_cons] at hroom
    omega
  have hfirst : Triple (Sent size cs) (fillPkt 0 c.cmd c.reg c.data : PktAction σ Nat)
      (fun ptr tr a => ptr = 6 * [c].length ∧ Stage size [c] [] tr a) P := by
    rintro tr a ⟨ts, hts, hx, h⟩
    rw [fillPkt_apply]
    exact ⟨rfl, h.start hts hx c hfits⟩
  refine hfirst.bind fun ptr => triple_of_imp ?_
  rintro rfl
  exact triple_fillAll [c] cs' hroom

/-- The array is declared before anything is put into it. -/
theorem triple_declarePkt (size : Word) : Triple (fun tr _ => tr = []) (declarePkt size : PktAction σ Unit)
    (fun _ => Stage size.toNat [] []) P := by
  refine triple_update fun tr a htr => ?_
  rw [htr]
  exact ⟨fun _ he => absurd he List.not_mem_nil, fun _ hx => absurd hx List.not_mem_nil, rfl, rfl, rfl⟩

/-- One transfer, whatever comes of it. -/
theorem triple_usbBulkWrite (bytes : List Byte) {ts : List Transfer} :
    Triple (Stage size cs ts) (mapEvents .transfer (usbBulkWrite pipe bytes))
      (fun written => Stage size cs (ts ++ [.write bytes written])) P := by
  intro tr a h
  exact h.transfer (.write bytes (pipe.write bytes a.usb).1) rfl

/-- Bytes are read of the replies that are to come. -/
theorem triple_usbBulkRead (n : Nat) {ts : List Transfer} :
    Triple (Stage size cs ts) (mapEvents .transfer (usbBulkRead pipe n))
      (fun reply => Stage size cs (ts ++ [.read n reply])) P := by
  intro tr a h
  exact h.transfer (.read n (pipe.read n a.usb).1) rfl

/-- Where a transfer fails, no more than the replies are waited for. -/
theorem answered_of_incomplete {ts : List Transfer} (hsends : ts.flatMap Transfer.given = cs.flatMap UsbCommand.bytes)
    (hle : (ts.map Transfer.awaited).sum ≤ 4 * readCount cs) {t : Transfer} (ht : t ∈ ts) (hnot : ¬ t.Complete) :
    Exchanged.Answered ⟨cs, ts⟩ :=
  ⟨hsends, hle, fun hall => absurd (hall t ht) hnot⟩

/-- Where exactly the replies are waited for, it does not matter which transfers fail. -/
theorem answered_of_eq {ts : List Transfer} (hsends : ts.flatMap Transfer.given = cs.flatMap UsbCommand.bytes)
    (heq : (ts.map Transfer.awaited).sum = 4 * readCount cs) : Exchanged.Answered ⟨cs, ts⟩ :=
  ⟨hsends, heq.le, fun _ => heq⟩

/-- Waiting for some of the replies. -/
theorem triple_bulkReply (text : String) (rlen : Word) {ts : List Transfer}
    (hsends : ts.flatMap Transfer.given = cs.flatMap UsbCommand.bytes)
    (hle : (ts.map Transfer.awaited).sum + rlen.toNat ≤ 4 * readCount cs) :
    Triple (Stage size cs ts) (bulkReply pipe text rlen)
      (fun reply tr a => reply.length = rlen.toNat ∧ Stage size cs (ts ++ [.read rlen.toNat (some reply)]) tr a)
      fun tr _ => PktServed tr := by
  have hsends' : ∀ reply, (ts ++ [Transfer.read rlen.toNat reply]).flatMap Transfer.given =
      cs.flatMap UsbCommand.bytes := by
    intro reply
    rw [List.flatMap_append, hsends]
    exact List.append_nil _
  have hle' : ∀ reply, ((ts ++ [Transfer.read rlen.toNat reply]).map Transfer.awaited).sum ≤ 4 * readCount cs := by
    intro reply
    rw [List.map_append, List.sum_append]
    exact hle
  have hmem : ∀ reply, Transfer.read rlen.toNat reply ∈ ts ++ [.read rlen.toNat reply] := fun reply =>
    List.mem_append_right ts List.mem_cons_self
  refine (triple_usbBulkRead rlen.toNat).bind fun reply => ?_
  cases reply with
  | none =>
    refine triple_stop fun tr a h => h.served ?_
    exact answered_of_incomplete (hsends' none) (hle' none) (hmem none) (by simp [Transfer.Complete])
  | some reply =>
    dsimp only
    by_cases hlen : reply.length = rlen.toNat
    · rw [if_neg (fun hne => hne hlen)]
      exact triple_pure fun tr a h => ⟨hlen, h⟩
    · rw [if_pos hlen]
      refine triple_stop fun tr a h => h.served ?_
      exact answered_of_incomplete (hsends' _) (hle' _) (hmem _) (by simpa [Transfer.Complete] using hlen)

/-- The packet is sent as it is, and some of its replies are waited for. -/
theorem triple_bulkWriteRead {wlen rlen : Word} (hwlen : wlen.toNat = 6 * cs.length)
    (hrlen : rlen.toNat ≤ 4 * readCount cs) : Triple (Stage size cs []) (bulkWriteRead pipe wlen rlen)
      (fun reply tr a => reply.length = rlen.toNat ∧
        Stage size cs [.write (cs.flatMap UsbCommand.bytes) (some wlen.toNat), .read rlen.toNat (some reply)] tr a)
      fun tr _ => PktServed tr := by
  have hlen : (cs.flatMap UsbCommand.bytes).length = wlen.toNat := by
    rw [hwlen, List.length_flatMap]
    simp [Nat.mul_comm]
  have hsends : ∀ w, [Transfer.write (cs.flatMap UsbCommand.bytes) w].flatMap Transfer.given =
      cs.flatMap UsbCommand.bytes := fun w => List.flatMap_singleton _ _
  have hrest : Triple (Stage size cs [])
      (mapEvents PktEvent.transfer (usbBulkWrite pipe (cs.flatMap UsbCommand.bytes)) >>= fun transferred =>
        if transferred ≠ some wlen.toNat then
          Program.stop (.exit (-1) "Bulk write(-read) failed: %d bytes to endpoint %#x.\n" [wlen, bulkWriteEndpoint])
        else bulkReply pipe "Bulk (write-)read failed: %d/%d bytes from endpoint %#x.\n" rlen)
      (fun reply tr a => reply.length = rlen.toNat ∧
        Stage size cs [.write (cs.flatMap UsbCommand.bytes) (some wlen.toNat), .read rlen.toNat (some reply)] tr a)
      fun tr _ => PktServed tr := by
    refine (triple_usbBulkWrite (cs.flatMap UsbCommand.bytes)).bind fun transferred => ?_
    by_cases hall : transferred = some wlen.toNat
    · rw [if_neg (fun hne => hne hall), hall]
      exact triple_bulkReply _ rlen (hsends _) ((Nat.zero_add _).trans_le hrlen)
    · rw [if_pos hall]
      refine triple_stop fun tr a h => h.served ?_
      refine answered_of_incomplete (hsends _) (Nat.zero_le _) List.mem_cons_self fun hcomplete => hall ?_
      rw [← hlen]
      exact hcomplete
  intro tr a h
  have hcells : a.own.cells.slice 0 wlen.toNat = cs.flatMap UsbCommand.bytes := by rw [hwlen, h.held]
  have hpost := hrest tr a h
  rw [← hcells] at hpost ⊢
  exact hpost

/-- Looking at the state of the memory makes no transfer. -/
theorem triple_checkReady (text : String) (values : List Word) (oscr : Word) :
    Triple (Sent size cs) (checkReady text values oscr : PktAction σ Unit) (fun _ => Sent size cs)
      fun tr _ => PktServed tr := by
  unfold checkReady
  split
  · exact triple_stop fun tr a h => h.served
  · exact triple_pure fun tr a h => h

/-- A packet with one command that asks for a reply is sent, and the reply is waited for. -/
theorem triple_sendPkt (failed timeout : String) (values : List Word) (hsize : 6 * cs.length < 2 ^ 32)
    (hreads : readCount cs = 1) : Triple (Stage size cs []) (sendPkt pipe (6 * cs.length) failed timeout values)
      (fun _ => Sent size cs) fun tr _ => PktServed tr := by
  have hwlen : (BitVec.ofNat 32 (6 * cs.length)).toNat = 6 * cs.length := by
    rw [BitVec.toNat_ofNat, Nat.mod_eq_of_lt hsize]
  refine (triple_bulkWriteRead hwlen (by rw [hreads]; decide)).bind fun reply => triple_of_imp fun hlen => ?_
  rw [if_neg (fun hne => hne hlen)]
  refine (triple_checkReady timeout values _).pre fun tr a h => ⟨_, List.cons_ne_nil _ _, ?_, h⟩
  exact answered_of_eq (List.append_nil _) (by rw [hreads]; rfl)

/-- The words of a block and the state are waited for one after the other. -/
theorem triple_receiveBlock {nwords : Word} (hsize : 6 * cs.length < 2 ^ 32) (hwords : 4 * nwords.toNat < 2 ^ 32)
    (hreads : readCount cs = nwords.toNat + 1) : Triple (Stage size cs []) (receiveBlock pipe nwords (6 * cs.length))
      (fun _ => Sent size cs) fun tr _ => PktServed tr := by
  have hwlen : (BitVec.ofNat 32 (6 * cs.length)).toNat = 6 * cs.length := by
    rw [BitVec.toNat_ofNat, Nat.mod_eq_of_lt hsize]
  have hrlen : (4 * nwords).toNat = 4 * nwords.toNat := by
    rw [BitVec.toNat_mul]
    exact Nat.mod_eq_of_lt hwords
  refine (triple_bulkWriteRead hwlen (by omega)).bind fun data => triple_of_imp fun hdata => ?_
  rw [if_neg (fun hne => hne hdata)]
  have hstate : (4 : Word).toNat = 4 := rfl
  refine (triple_bulkReply _ 4 (List.append_nil _) ?_).bind fun reply => triple_of_imp fun hlen => ?_
  · simp only [List.map_cons, List.map_nil, List.sum_cons, List.sum_nil, Transfer.awaited]
    omega
  rw [if_neg (fun hne => hne hlen)]
  refine Triple.bind ((triple_checkReady _ [] _).pre fun tr a h => ⟨_, by simp, ?_, h⟩) fun _ =>
    triple_pure fun tr a h => h
  refine answered_of_eq (List.append_nil _) ?_
  simp only [List.cons_append, List.nil_append, List.map_cons, List.map_nil, List.sum_cons, List.sum_nil,
    Transfer.awaited]
  omega

/-- What is true of a builder of one packet, if its array has room for the commands, and if what follows keeps
to it. -/
theorem trace_onePacket {α : Type} {size : Word} {cs : List UsbCommand} {rest : Nat → PktAction σ α}
    {S : List PktEvent → Prop} (hroom : 6 * cs.length ≤ size.toNat)
    (hrest : Triple (Stage size.toNat cs []) (rest (6 * cs.length)) (fun _ tr _ => S tr) fun tr _ => S tr)
    (a : Attached Pkt σ) : S (onePacket size cs rest a).trace := by
  have hrun : Triple (fun tr _ => tr = []) (onePacket size cs rest) (fun _ tr _ => S tr) fun tr _ => S tr := by
    refine (triple_declarePkt size).bind fun _ => (triple_firstPacket cs hroom).bind fun ptr => triple_of_imp ?_
    rintro rfl
    exact hrest
  have hpost := hrun [] a rfl
  cases hres : (onePacket size cs rest a).result with
  | error e =>
    rw [hres] at hpost
    exact hpost
  | ok r =>
    rw [hres] at hpost
    exact hpost

/-- All the commands of a packet are stored, the last one too. -/
theorem returns_fillAll (ptr : Nat) (cs : List UsbCommand) (a : Attached Pkt σ) :
    ∃ tr a', (fillAll ptr cs).Returns a (ptr + 6 * cs.length) tr a' ∧ a'.own.size = a.own.size ∧
      (cs ≠ [] → ∃ c, .fill a.own.size (ptr + 6 * (cs.length - 1)) c ∈ tr) := by
  induction cs generalizing ptr a with
  | nil => exact ⟨[], a, rfl, rfl, fun h => absurd rfl h⟩
  | cons c cs ih =>
    obtain ⟨tr, a', hr, hsize, hlast⟩ :=
      ih (ptr + 6) { a with own := ⟨a.own.size, a.own.cells.setAll ptr c.bytes⟩ }
    have hptr : ptr + 6 + 6 * cs.length = ptr + 6 * (c :: cs).length := by
      rw [List.length_cons]
      omega
    rw [hptr] at hr
    refine ⟨_, a', Returns.bind (fillPkt_apply ptr c) hr, hsize, fun _ => ?_⟩
    cases cs with
    | nil => exact ⟨c, List.mem_append_left _ List.mem_cons_self⟩
    | cons c' cs =>
      obtain ⟨c'', hmem⟩ := hlast (List.cons_ne_nil c' cs)
      have hplace : ptr + 6 + 6 * ((c' :: cs).length - 1) = ptr + 6 * ((c :: c' :: cs).length - 1) := by
        simp only [List.length_cons]
        omega
      rw [hplace] at hmem
      exact ⟨c'', List.mem_append_right _ hmem⟩

/-- An array without room for the commands is left by the last one of them. -/
theorem room_of_inside {cs : List UsbCommand} {tr : List PktEvent} {a a' : Attached Pkt σ}
    (hr : (fillAll 0 cs).Returns a (0 + 6 * cs.length) tr a') (h : ∀ e ∈ tr, e.Inside) :
    6 * cs.length ≤ a.own.size := by
  obtain ⟨tr', a'', hr', -, hlast⟩ := returns_fillAll 0 cs a
  obtain ⟨-, rfl, -⟩ := hr.unique hr'
  cases cs with
  | nil => exact Nat.zero_le _
  | cons c cs =>
    obtain ⟨c', hmem⟩ := hlast (List.cons_ne_nil c cs)
    have hinside := h _ hmem
    rw [PktEvent.Inside, UsbCommand.length_bytes, List.length_cons] at hinside
    rw [List.length_cons]
    omega

/-- A builder that stays inside its array has room for its first packet, and stays inside it behind that. -/
theorem room_of_onePacket {α : Type} {size : Word} {cs : List UsbCommand} {rest : Nat → PktAction σ α}
    {a : Attached Pkt σ} (h : ∀ e ∈ (onePacket size cs rest a).trace, e.Inside) : 6 * cs.length ≤ size.toNat ∧
      ∃ a' : Attached Pkt σ, a'.own.size = size.toNat ∧ ∀ e ∈ (rest (6 * cs.length) a').trace, e.Inside := by
  obtain ⟨tr, a', hr, hsize, -⟩ := returns_fillAll 0 cs { a with own := ⟨size.toNat, a.own.cells⟩ }
  have hrun : (onePacket size cs rest a).trace = tr ++ (rest (0 + 6 * cs.length) a').trace := by
    rw [onePacket, declarePkt, bind_apply, bind_apply]
    dsimp only [Program.update]
    rw [show fillAll 0 cs _ = _ from hr]
    rfl
  have hinside : ∀ e ∈ tr ++ (rest (0 + 6 * cs.length) a').trace, e.Inside := hrun ▸ h
  refine ⟨room_of_inside hr fun e he => hinside e (List.mem_append_left _ he), a', hsize, fun e he => ?_⟩
  rw [Nat.zero_add] at hinside
  exact hinside e (List.mem_append_right _ he)

end Mcprog
