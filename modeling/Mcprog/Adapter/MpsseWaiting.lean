import Mcprog.Adapter.MpsseUnit

/-!
# What waits in the buffer of the MPSSE adapter

Packets without a read stay in the buffer, so between two calls the processor is behind what the
program has asked for. Where the buffer is flushed all of it takes effect; a packet with a read is
flushed at once, and the bits of its register come back through the pieces of the reply.
-/

namespace Mcprog

open Interaction Cells Jtag

variable {σ τ χ : Type}

/-- What is sent back waits until it is delivered, in pieces behind two status bytes each, and sooner
or later some of it comes. -/
structure BulkPipe.Delivers (pipe : BulkPipe σ) (view : σ → χ × List Byte) : Prop where
  read : ∀ size s, 2 ≤ size → ∃ status data, (pipe.read size s).1 = some (status ++ data) ∧
    status.length = 2 ∧ (view s).2 = data ++ (view (pipe.read size s).2).2 ∧
      (view (pipe.read size s).2).1 = (view s).1
  delivers : ∀ size s, 2 < size → (view s).2 ≠ [] →
    ∃ n, (view ((fun s => (pipe.read size s).2)^[n] s)).2 ≠ (view s).2

/-- Behind the pipe there is the chip in front of a processor. -/
structure BulkPipe.Drives (pipe : BulkPipe σ) (P : DebugPort τ) (view : σ → Chip τ × List Byte) : Prop
    extends pipe.Delivers view where
  write : ∀ bytes s, (pipe.write bytes s).1 = some bytes.length ∧
    ∃ reply, (view s).1.Executes P bytes (view (pipe.write bytes s).2).1 reply ∧
      (view (pipe.write bytes s).2).2 = (view s).2 ++ reply

variable {pipe : BulkPipe σ}

/-- After some reads that deliver nothing one delivers something. -/
theorem BulkPipe.Delivers.mpsseReply {view : σ → χ × List Byte} (h : pipe.Delivers view)
    (a : Attached MpssePort σ) (bytesRead : Nat) (hcount : bytesRead + (view a.usb).2.length = a.own.bytesToRead)
    (hroom : a.own.bytesToRead + 2 ≤ mpsseInputSize) :
    ∃ s', view s' = ((view a.usb).1, []) ∧ Eventually (fun fuel => mpsseReply pipe fuel bytesRead) a ()
      ⟨{ a.own with input := store a.own.input bytesRead (view a.usb).2 }, s'⟩ := by
  obtain ⟨own, s⟩ := a
  dsimp only at hcount hroom ⊢
  -- on what is still to come, and then on the number of reads until some of it comes
  induction hk : (view s).2.length using Nat.strong_induction_on generalizing own s bytesRead with
  | _ k ih =>
    by_cases hempty : (view s).2 = []
    · rw [hempty, List.length_nil, Nat.add_zero] at hcount
      refine ⟨s, by rw [← hempty], eventually_of_reaches fun fuel => ?_⟩
      rw [hempty, store_nil]
      exact reaches_mpsseReply_done hcount.ge
    · have hpos : 0 < (view s).2.length := List.length_pos_iff.mpr hempty
      obtain ⟨n, hn⟩ := h.delivers (own.bytesToRead - bytesRead + 2) s (by omega) hempty
      induction n generalizing s with
      | zero => exact absurd rfl hn
      | succ n ihn =>
        obtain ⟨status, data, hread, hstatus, hpending, hchip⟩ :=
          h.read (own.bytesToRead - bytesRead + 2) s (by omega)
        obtain ⟨s₁, hs₁⟩ : ∃ s₁, s₁ = (pipe.read (own.bytesToRead - bytesRead + 2) s).2 := ⟨_, rfl⟩
        rw [← hs₁] at hpending hchip
        have hlen := congrArg List.length hpending
        rw [List.length_append] at hlen
        obtain ⟨own₁, hown₁⟩ : ∃ own₁, own₁ = { own with input := store own.input bytesRead data } := ⟨_, rfl⟩
        obtain ⟨s', hview, enough, henough⟩ : ∃ s', view s' = ((view s₁).1, []) ∧
            Eventually (fun fuel => Mcprog.mpsseReply pipe fuel (bytesRead + data.length)) ⟨own₁, s₁⟩ ()
              ⟨{ own₁ with input := store own₁.input (bytesRead + data.length) (view s₁).2 }, s'⟩ := by
          rcases Nat.eq_zero_or_pos data.length with hzero | hsome
          · obtain rfl := List.length_eq_zero_iff.mp hzero
            rw [List.nil_append] at hpending
            rw [Function.iterate_succ_apply, ← hs₁, hpending] at hn
            rw [store_nil] at hown₁
            rw [hown₁]
            exact ihn s₁ (by rw [← hpending]; exact hcount) (by rw [← hpending]; exact hk)
              (by rwa [← hpending]) (by rwa [← hpending]) hn
          · exact ih (view s₁).2.length (by omega) (bytesRead + data.length) own₁ s₁
              (by rw [hown₁]; dsimp only; omega) (by rw [hown₁]; exact hroom) rfl
        have hall : { own₁ with input := store own₁.input (bytesRead + data.length) (view s₁).2 } =
            { own with input := store own.input bytesRead (view s).2 } := by
          rw [hown₁, hpending, ← store_append]
        rw [hall] at henough
        refine ⟨s', by rw [hview, hchip], enough + 1, fun fuel hfuel => ?_⟩
        obtain ⟨fuel, rfl⟩ := Nat.exists_eq_succ_of_ne_zero (show fuel ≠ 0 by omega)
        exact reaches_mpsseReply_step (by dsimp only; omega) hroom hstatus (by dsimp only; omega)
          (Prod.ext hread hs₁.symm) hown₁ (henough fuel (by omega))

variable {P : DebugPort τ} {view : σ → Chip τ × List Byte}

/-- However the chip takes the commands, it sends something back and is in some state then, as `Q`
says. -/
def Chip.Completes (P : DebugPort τ) (c : Chip τ) (commands : List Byte) (Q : Chip τ → List Byte → Prop) : Prop :=
  ∀ rest c' reply, c.Executes P (commands ++ rest) c' reply →
    ∃ c₁ sent more, reply = sent ++ more ∧ Q c₁ sent ∧ c₁.Executes P rest c' more

theorem Chip.completes_nil {c : Chip τ} {Q : Chip τ → List Byte → Prop} (h : Q c []) : c.Completes P [] Q :=
  fun _ _ reply hrun => ⟨c, [], reply, rfl, h, hrun⟩

theorem Chip.Completes.append {c : Chip τ} {xs ys : List Byte} {Q Q' : Chip τ → List Byte → Prop}
    (h : c.Completes P xs Q) (hmore : ∀ c₁ sent, Q c₁ sent → c₁.Completes P ys fun c₂ sent₂ => Q' c₂ (sent ++ sent₂)) :
    c.Completes P (xs ++ ys) Q' := by
  intro rest c' reply hrun
  rw [List.append_assoc] at hrun
  obtain ⟨c₁, sent₁, reply₁, rfl, hQ, hrun₁⟩ := h _ _ _ hrun
  obtain ⟨c₂, sent₂, reply₂, rfl, hQ', hrun₂⟩ := hmore c₁ sent₁ hQ _ _ _ hrun₁
  exact ⟨c₂, sent₁ ++ sent₂, reply₂, (List.append_assoc _ _ _).symm, hQ', hrun₂⟩

/-- Less may be said of the chip than is known. -/
theorem Chip.Completes.mono {c : Chip τ} {xs : List Byte} {Q Q' : Chip τ → List Byte → Prop}
    (h : c.Completes P xs Q) (hQ : ∀ c₁ sent, Q c₁ sent → Q' c₁ sent) : c.Completes P xs Q' := by
  intro rest c' reply hrun
  obtain ⟨c₁, sent, more, hreply, hq, hrun₁⟩ := h _ _ _ hrun
  exact ⟨c₁, sent, more, hreply, hQ c₁ sent hq, hrun₁⟩

/-- The commands send nothing back and leave the processor in this state. -/
def Chip.ComesTo (P : DebugPort τ) (c : Chip τ) (commands : List Byte) (t : τ) : Prop :=
  c.Completes P commands fun c₁ sent => sent = [] ∧ c₁.chain.tap.Rests ∧ c₁.chain.held = t

/-- A flush lets the chip take what waits, and stores what it sends back. -/
theorem BulkPipe.Drives.flush (h : pipe.Drives P view) {a : Attached MpssePort σ} {Q : Chip τ → List Byte → Prop}
    (hpending : (view a.usb).2 = []) (hwaits : (view a.usb).1.Completes P a.own.output Q)
    (hcount : ∀ c sent, Q c sent → sent.length = a.own.bytesToRead)
    (hroom : a.own.bytesToRead + 2 ≤ mpsseInputSize) :
    ∃ c sent s', Q c sent ∧ view s' = (c, []) ∧
      Eventually (fun fuel => mpsseFlushOutput pipe fuel) a () ⟨a.own.replied sent, s'⟩ := by
  obtain ⟨own, s⟩ := a
  dsimp only at hpending hwaits hcount hroom ⊢
  by_cases hempty : own.output = []
  · rw [hempty] at hwaits
    obtain ⟨c, sent, more, hreply, hQ, hrun⟩ := hwaits [] _ [] (.done _)
    obtain ⟨rfl, rfl⟩ := List.append_eq_nil_iff.mp hreply.symm
    obtain ⟨hsame, -⟩ := hrun.nil
    have hown : own.replied [] = own := by
      rw [MpssePort.replied, store_nil, ← hempty, show 0 = own.bytesToRead from hcount c [] hQ]
    refine ⟨c, [], s, hQ, by rw [← hsame, ← hpending], ?_⟩
    rw [hown]
    refine eventually_of_reaches fun fuel => getOwn_returns.reaches.bind ?_
    rw [if_pos hempty]
    exact Program.reaches_pure _ _
  · obtain ⟨hwrite, reply, hrun, hsent⟩ := h.write own.output s
    rw [← List.append_nil own.output] at hrun
    obtain ⟨c, sent, more, rfl, hQ, hrest⟩ := hwaits _ _ _ hrun
    rw [List.append_nil] at hrest
    obtain ⟨hsame, rfl⟩ := hrest.nil
    rw [hpending, List.nil_append, List.append_nil] at hsent
    have hlen := hcount c sent hQ
    obtain ⟨s₁, hs₁⟩ : ∃ s₁, s₁ = (pipe.write own.output s).2 := ⟨_, rfl⟩
    rw [← hs₁] at hsent hsame
    have hbulk : (bulkWrite pipe own.output).Reaches ⟨own, s⟩ () ⟨own, s₁⟩ := by
      refine Program.Reaches.bind (a := some own.output.length) (Program.reaches_request ?_)
        (Program.reaches_pure () _)
      rw [hwrite, hs₁]
    have hclear := setOwn_returns (a := ⟨own, s₁⟩) fun own : MpssePort => { own with output := [] }
    rcases Nat.eq_zero_or_pos own.bytesToRead with hzero | hpos
    · obtain rfl : sent = [] := List.length_eq_zero_iff.mp (hlen.trans hzero)
      refine ⟨c, [], s₁, hQ, by rw [← hsame, ← hsent], eventually_of_reaches fun fuel =>
        getOwn_returns.reaches.bind ?_⟩
      have hown : own.replied [] = { own with output := [] } := by
        rw [MpssePort.replied, store_nil, ← hzero]
      rw [if_neg hempty, hown]
      refine hbulk.bind (hclear.reaches.bind ?_)
      rw [if_pos hzero]
      exact Program.reaches_pure _ _
    · obtain ⟨s', hview, enough, henough⟩ := h.mpsseReply ⟨{ own with output := [] }, s₁⟩ 0
        (by rw [Nat.zero_add, hsent]; exact hlen) hroom
      refine ⟨c, sent, s', hQ, by rw [hview, ← hsame], enough, fun fuel hfuel => getOwn_returns.reaches.bind ?_⟩
      rw [if_neg hempty]
      refine hbulk.bind (hclear.reaches.bind ?_)
      rw [if_neg hpos.ne']
      refine (henough fuel hfuel).bind ?_
      rw [hsent]
      exact (setOwn_returns _).reaches

/-- The port with one more packet in its buffer. -/
def MpssePort.queue (own : MpssePort) (lead : List Byte) (nbits : Nat) (tdi : BitVec 64) (readFlag : Bool) :
    MpssePort :=
  (if readFlag then own.await nbits else own.masked nbits).put (lead ++ dataCommands nbits tdi readFlag)

/-- The buffer after a scan with what leads to it. -/
@[simp] theorem MpssePort.output_queue (own : MpssePort) (lead : List Byte) (nbits : Nat) (tdi : BitVec 64)
    (readFlag : Bool) : (own.queue lead nbits tdi readFlag).output =
      own.output ++ (lead ++ dataCommands nbits tdi readFlag) := by
  cases readFlag <;> rfl

@[simp] theorem MpssePort.bytesToRead_queue (own : MpssePort) (lead : List Byte) (nbits : Nat)
    (tdi : BitVec 64) (readFlag : Bool) : (own.queue lead nbits tdi readFlag).bytesToRead =
      own.bytesToRead + if readFlag then replyBytes nbits + 1 else 0 := by
  cases readFlag <;> rfl

/-- The commands that lead to the data of a packet. -/
def leadCommands (prologNbits : Nat) (prolog : Word) : List Byte :=
  prologCommands (prologNbits + 3) (prolog ||| (1#32 <<< prologNbits))

/-- The clocks that lead to the data register. -/
theorem leads_dataPacket : Chip.Leads P .data (leadCommands 0 0) id := Chip.leads_data

/-- The clocks that lead to the instruction register. -/
theorem leads_instrPacket : Chip.Leads P .instruction (leadCommands 1 1) id := Chip.leads_instruction

/-- The clocks that reset the port, and lead to the data register. -/
theorem leads_resetPacket : Chip.Leads P .data (leadCommands 6 31) P.reset := Chip.leads_reset

theorem length_leadCommands (prologNbits : Nat) (prolog : Word) :
    (leadCommands prologNbits prolog).length ≤ 6 := by
  unfold leadCommands prologCommands
  split
  · exact Nat.zero_le _
  · split <;> simp

theorem length_dataCommands {nbits : Nat} (hn : nbits ≤ 64) (tdi : BitVec 64) (readFlag : Bool) :
    (dataCommands nbits tdi readFlag).length ≤ 17 := by
  have hlen := length_sendCommands hn tdi readFlag
  rw [sendCommands, List.length_append, show (prologCommands 3 1).length = 3 from rfl] at hlen
  omega

variable {a a' : Attached MpssePort σ} {t : τ} {side : Side} {f : τ → τ} {prologNbits nbits : Nat} {prolog : Word}

/-- Where there is room a packet is put into the buffer. -/
theorem reaches_queue {fuel : Nat} (hpos : 0 < nbits) (hn : nbits ≤ 64) (tdi : BitVec 64) (readFlag : Bool)
    (hroom : a.own.output.length ≤ mpsseSize - 23) :
    (mpsseSend pipe fuel prologNbits prolog nbits tdi readFlag).Reaches a ()
      { a with own := a.own.queue (leadCommands prologNbits prolog) nbits tdi readFlag } := by
  have hlead := length_leadCommands prologNbits prolog
  have hdata := length_dataCommands hn tdi readFlag
  have hsize : mpsseSize = 4096 := rfl
  have hturns : Turns (do
      mpssePut (leadCommands prologNbits prolog)
      mpsseData nbits tdi readFlag : UsbAction MpssePort σ Unit)
      ((leadCommands prologNbits prolog).length + (dataCommands nbits tdi readFlag).length)
      fun own => own.queue (leadCommands prologNbits prolog) nbits tdi readFlag := by
    cases readFlag with
    | true =>
      refine Turns.congr ((turns_mpssePut _).bind fun _ => turns_mpsseData nbits tdi) rfl fun own => ?_
      rw [MpssePort.queue, ← MpssePort.put_append]
      rfl
    | false =>
      refine Turns.congr ((turns_mpssePut _).bind fun _ => turns_mpsseData_write nbits tdi) rfl fun own => ?_
      rw [MpssePort.queue, ← MpssePort.put_append]
      rfl
  obtain ⟨_, a₁, h₁, rfl⟩ := (hturns a).2.exists_reaches fun _ h => by omega
  refine getOwn_returns.reaches.bind ?_
  dsimp only
  rw [if_neg (by omega), if_pos hpos]
  exact h₁

/-- The chip scans the register to which a packet leads. -/
theorem Chip.completes_packet {c : Chip τ} {lead : List Byte} (hlead : Chip.Leads P side lead f) (hpos : 0 < nbits)
    (hn : nbits ≤ 64) (tdi : BitVec 64) (readFlag : Bool) (hrests : c.chain.tap.Rests) :
    c.Completes P (lead ++ dataCommands nbits tdi readFlag) fun c₁ sent => c₁.chain.tap.Rests ∧
      c₁.chain.held = (P.scan side (lowBits tdi nbits) (f c.chain.held)).2 ∧
      sent.length = (if readFlag then replyBytes nbits + 1 else 0) ∧
      (readFlag = true → CarriesBits
        (fun i => (P.scan side (lowBits tdi nbits) (f c.chain.held)).1.getD i false) nbits (sent.getD · 0)) := by
  intro rest c' reply hrun
  obtain ⟨c₁, sent, more, hreply, hrests₁, hheld, hlen, hbits, hmore⟩ := hrun.packet hlead hpos hn tdi hrests
  refine ⟨c₁, sent, more, hreply, ⟨hrests₁, hheld, hlen, fun hread => ?_⟩, hmore⟩
  have hout (i : Nat) (hi : i < nbits) : (P.scan side (lowBits tdi nbits) (f c.chain.held)).1.getD i false =
      (P.register side).out (f c.chain.held) (lowBits tdi i) := by
    rw [DebugPort.scan, DataRegister.getD_outputs _ _ (by rwa [length_lowBits]), take_lowBits tdi hi.le]
  obtain ⟨hwhole, hpart, hlast⟩ := hbits hread
  have hdiv : 8 * ((nbits - 1) / 8) + (nbits - 1) % 8 = nbits - 1 := Nat.div_add_mod _ 8
  refine ⟨fun i hi => ?_, fun i hi => ?_, ?_⟩
  · rw [hwhole i hi, hout i (by omega)]
  · rw [hpart i hi, hout _ (by omega)]
  · rw [hlast, hout _ (by omega)]

/-- Once what waits in the buffer has taken effect the processor is in the state `t`. -/
structure Waiting (P : DebugPort τ) (view : σ → Chip τ × List Byte) (a : Attached MpssePort σ) (t : τ) : Prop where
  bytesToRead : a.own.bytesToRead = 0
  output_le : a.own.output.length ≤ mpsseSize
  pending : (view a.usb).2 = []
  comesTo : (view a.usb).1.ComesTo P a.own.output t

/-- Nothing waits in the buffer, and nothing is on its way. -/
structure Settled (view : σ → Chip τ × List Byte) (a : Attached MpssePort σ) (t : τ) : Prop where
  bytesToRead : a.own.bytesToRead = 0
  output : a.own.output = []
  pending : (view a.usb).2 = []
  rests : (view a.usb).1.chain.tap.Rests
  held : (view a.usb).1.chain.held = t

/-- The chip behind a buffer in which nothing waits. -/
theorem Settled.view_eq (h : Settled view a t) : view a.usb = ((view a.usb).1, []) := Prod.ext rfl h.pending

/-- With an empty buffer the processor is in its state already. -/
theorem Settled.waiting (h : Settled view a t) : Waiting P view a t where
  bytesToRead := h.bytesToRead
  output_le := by
    rw [h.output]
    exact Nat.zero_le _
  pending := h.pending
  comesTo := by
    rw [h.output]
    exact Chip.completes_nil ⟨rfl, h.rests, h.held⟩

/-- A flush lets what waits take effect. -/
theorem Waiting.flush (h : pipe.Drives P view) (hw : Waiting P view a t) :
    ∃ a', Eventually (fun fuel => mpsseFlushOutput pipe fuel) a () a' ∧ Settled view a' t := by
  obtain ⟨c, sent, s, ⟨rfl, hrests, hheld⟩, hview, hflush⟩ := h.flush hw.pending hw.comesTo
    (fun c sent hQ => by rw [hQ.1, hw.bytesToRead]; rfl) (by rw [hw.bytesToRead]; decide)
  exact ⟨_, hflush, rfl, rfl, by rw [hview], by rwa [hview], by rwa [hview]⟩

/-- A packet is put into the buffer, which is flushed first where it is full. -/
theorem Waiting.queue (h : pipe.Drives P view) (hpos : 0 < nbits) (hn : nbits ≤ 64) (tdi : BitVec 64)
    (readFlag : Bool) (hw : Waiting P view a t) :
    ∃ a₁, Waiting P view a₁ t ∧ a₁.own.output.length ≤ mpsseSize - 23 ∧
      Eventually (fun fuel => mpsseSend pipe fuel prologNbits prolog nbits tdi readFlag) a ()
        { a₁ with own := a₁.own.queue (leadCommands prologNbits prolog) nbits tdi readFlag } := by
  rcases Nat.lt_or_ge (mpsseSize - 23) a.own.output.length with hfull | hroom
  · obtain ⟨a₁, ⟨enough, hflush⟩, hsettled⟩ := hw.flush h
    have hroom : a₁.own.output.length ≤ mpsseSize - 23 := by
      rw [hsettled.output]
      exact Nat.zero_le _
    exact ⟨a₁, hsettled.waiting, hroom, enough, fun fuel hfuel =>
      reaches_mpsseSend_full hfull (hflush fuel hfuel) hroom (reaches_queue hpos hn tdi readFlag hroom)⟩
  · exact ⟨a, hw, hroom, eventually_of_reaches fun fuel => reaches_queue hpos hn tdi readFlag hroom⟩

/-- A packet without a read waits behind the others. -/
theorem Waiting.send (h : pipe.Drives P view) (hlead : Chip.Leads P side (leadCommands prologNbits prolog) f)
    (hpos : 0 < nbits) (hn : nbits ≤ 64) (tdi : BitVec 64) (hw : Waiting P view a t) :
    ∃ a', Eventually (fun fuel => mpsseSend pipe fuel prologNbits prolog nbits tdi false) a () a' ∧
      Waiting P view a' (P.scan side (lowBits tdi nbits) (f t)).2 := by
  obtain ⟨a₁, hw₁, hroom, hsend⟩ := hw.queue h hpos hn tdi false
  have hlen₁ := length_leadCommands prologNbits prolog
  have hlen₂ := length_dataCommands hn tdi false
  have hsize : mpsseSize = 4096 := rfl
  refine ⟨_, hsend, ?_, ?_, hw₁.pending, ?_⟩
  · rw [MpssePort.bytesToRead_queue]
    exact hw₁.bytesToRead
  · rw [MpssePort.output_queue, List.length_append, List.length_append]
    omega
  · rw [MpssePort.output_queue]
    refine hw₁.comesTo.append fun c sent hQ => ?_
    obtain ⟨rfl, hrests, rfl⟩ := hQ
    refine (Chip.completes_packet hlead hpos hn tdi false hrests).mono fun c₁ sent hpacket => ?_
    obtain ⟨hrests₁, hheld, hlen, -⟩ := hpacket
    obtain rfl : sent = [] := List.length_eq_zero_iff.mp hlen
    exact ⟨rfl, hrests₁, hheld⟩

/-- Only the bytes of the reply count. -/
theorem CarriesBits.congr {b : Nat → Bool} {reply reply' : Nat → Byte} (h : CarriesBits b nbits reply)
    (heq : ∀ i ≤ replyBytes nbits, reply i = reply' i) : CarriesBits b nbits reply' := by
  have hle : (nbits - 1) / 8 ≤ replyBytes nbits := by
    unfold replyBytes
    split <;> omega
  refine ⟨fun i hi => ?_, fun i hi => ?_, ?_⟩
  · rw [← heq _ (by omega)]
    exact h.whole i hi
  · rw [← heq _ hle]
    exact h.part i hi
  · rw [← heq _ (le_refl _)]
    exact h.last

/-- What is stored is there. -/
theorem input_replied (own : MpssePort) {reply : List Byte} {i : Nat} (hi : i < reply.length) :
    (own.replied reply).input i = reply.getD i 0 := by
  change store own.input 0 reply i = _
  rw [store, placed_of_le (Nat.zero_le _), Nat.sub_zero, List.getD_eq_getElem?_getD, List.getElem?_eq_getElem hi]
  rfl

/-- A packet with a read is flushed at once, and the bits of the register are taken from the reply. -/
theorem Waiting.recv (h : pipe.Drives P view) (hlead : Chip.Leads P side (leadCommands prologNbits prolog) f)
    (hpos : 0 < nbits) (hn : nbits ≤ 57) (tdi : BitVec 64) (hw : Waiting P view a t) :
    ∃ a', Eventually (fun fuel => do
        mpsseSend pipe fuel prologNbits prolog nbits tdi true
        mpsseRecv pipe fuel) a (ofBits 64 (P.scan side (lowBits tdi nbits) (f t)).1) a' ∧
      Waiting P view a' (P.scan side (lowBits tdi nbits) (f t)).2 := by
  obtain ⟨a₁, hw₁, -, hsend⟩ := hw.queue h hpos (by omega) tdi true
  obtain ⟨own, hown⟩ : ∃ own, own = a₁.own.queue (leadCommands prologNbits prolog) nbits tdi true := ⟨_, rfl⟩
  rw [← hown] at hsend
  have hcount : own.bytesToRead = replyBytes nbits + 1 := by
    rw [hown, MpssePort.bytesToRead_queue, hw₁.bytesToRead, Nat.zero_add]
    rfl
  have hexpects : own.Expects nbits := by
    rw [hown]
    exact (a₁.own.expects_await nbits).put _
  have hbytes := replyBytes_lt hpos hn
  -- the reply is that to the packet, since the others have no reads
  have hcompletes : (view a₁.usb).1.Completes P own.output fun c sent => c.chain.tap.Rests ∧
      c.chain.held = (P.scan side (lowBits tdi nbits) (f t)).2 ∧ sent.length = replyBytes nbits + 1 ∧
      CarriesBits (fun i => (P.scan side (lowBits tdi nbits) (f t)).1.getD i false) nbits (sent.getD · 0) := by
    rw [hown, MpssePort.output_queue]
    refine hw₁.comesTo.append fun c sent hQ => ?_
    obtain ⟨rfl, hrests, rfl⟩ := hQ
    exact (Chip.completes_packet hlead hpos (by omega) tdi true hrests).mono fun c₁ sent hpacket =>
      ⟨hpacket.1, hpacket.2.1, hpacket.2.2.1, hpacket.2.2.2 rfl⟩
  obtain ⟨c, sent, s', ⟨hrests, hheld, hlen, hbits⟩, hview, hflush⟩ := h.flush (a := ⟨own, a₁.usb⟩) hw₁.pending
    hcompletes (fun c sent hQ => hQ.2.2.1.trans hcount.symm)
    (by rw [hcount, show mpsseInputSize = 64 from rfl]; omega)
  have hreplied : (own.replied sent).Expects nbits := ⟨hexpects.highByteBits, hexpects.bytesPerWord,
    hexpects.fixHighBit, hexpects.highByteMask, hexpects.highBitMask⟩
  have hword : mpsseFixData (own.replied sent) (loadWord (own.replied sent).input 0) =
      ofBits 64 (P.scan side (lowBits tdi nbits) (f t)).1 := by
    apply BitVec.eq_of_getLsbD_eq
    intro i hi
    have hcarried : CarriesBits _ nbits fun i => (own.replied sent).input (0 + i) := hbits.congr fun i hi => by
      rw [Nat.zero_add, input_replied own (by omega)]
    rw [hreplied.getLsbD_fixData hpos hn hcarried, getLsbD_ofBits _ hi]
    by_cases hin : i < nbits
    · rw [decide_eq_true hin, Bool.true_and]
    · rw [decide_eq_false hin, Bool.false_and, List.getD_eq_default]
      rw [DebugPort.scan, DataRegister.length_outputs, length_lowBits]
      exact Nat.le_of_not_lt hin
  refine ⟨⟨own.replied sent, s'⟩, hsend.bind (hflush.bind (eventually_of_reaches fun _ =>
    getOwn_returns.reaches.bind ?_)), ?_⟩
  · rw [hword]
    exact Program.reaches_pure _ _
  · refine Settled.waiting ⟨rfl, rfl, ?_, ?_, ?_⟩
    · rw [hview]
    · rwa [hview]
    · rwa [hview]

end Mcprog
