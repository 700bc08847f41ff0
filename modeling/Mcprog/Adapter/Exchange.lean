import Mcprog.Adapter.Bitbang

/-!
# The exchange of the buffer

Whatever the USB library makes of the transfers, a call of `bitbang_send_recv` that returns
has given the device every sample of the buffer once and in order: what is received only goes
over samples that are written already.
-/

namespace Mcprog

open Interaction Cells

/-- The bytes that the device takes in a run. -/
def taken (tr : List Transfer) : List Byte := tr.flatMap Transfer.taken

/-- What is taken of the device in two parts of a run. -/
@[simp] theorem taken_append (tr tr' : List Transfer) : taken (tr ++ tr') = taken tr ++ taken tr' :=
  List.flatMap_append

namespace Bitbang

variable (a : Bitbang)

/-- The bytes of the buffer in two parts. -/
theorem bytes_add (start m n : Nat) : a.bytes start (m + n) = a.bytes start m ++ a.bytes (start + m) n := by
  rw [bytes, List.range_add, List.map_append, List.map_map]
  refine congrArg (a.bytes start m ++ ·) (List.map_congr_left fun i _ => ?_)
  exact congrArg a.output (Nat.add_assoc start m i).symm

/-- The bytes depend on their own cells only. -/
theorem bytes_congr {a a' : Bitbang} {start n : Nat} (h : ∀ i, start ≤ i → a'.output i = a.output i) :
    a'.bytes start n = a.bytes start n :=
  List.map_congr_left fun i _ => h (start + i) (Nat.le_add_right start i)

end Bitbang

variable {σ : Type} {pipe : BulkPipe σ} {a a' : Attached Bitbang σ} {tr : List Transfer}

/-- A packet is written whole, in as many transfers as it takes. -/
theorem writePacket_returns {fuel : Nat} {bytes : List Byte}
    (h : (writePacket pipe fuel bytes).Returns a () tr a') : taken tr = bytes ∧ a'.own = a.own := by
  induction fuel generalizing bytes a tr with
  | zero =>
    cases bytes with
    | nil =>
      obtain ⟨-, rfl, rfl⟩ := Program.returns_pure_iff.mp h
      exact ⟨rfl, rfl⟩
    | cons b bytes => exact absurd h Program.not_returns_stop
  | succ fuel ih =>
    cases bytes with
    | nil =>
      obtain ⟨-, rfl, rfl⟩ := Program.returns_pure_iff.mp h
      exact ⟨rfl, rfl⟩
    | cons b bytes =>
      obtain ⟨written, tr₁, a₁, tr₂, h₁, h₂, rfl⟩ := Program.returns_bind_iff.mp h
      obtain ⟨rfl, hown, -⟩ := usbBulkWrite_returns h₁
      cases written with
      | none => exact absurd h₂ Program.not_returns_stop
      | some n =>
        obtain ⟨htaken, hown'⟩ := ih h₂
        refine ⟨?_, hown'.trans hown⟩
        rw [taken_append, htaken]
        change (List.take n (b :: bytes) ++ []) ++ _ = _
        rw [List.append_nil, List.take_append_drop]

/-- A reply goes over consecutive bytes of the buffer, and over no more of them than are asked
for. -/
theorem readReply_returns {fuel bytesToRead bytesRead rxdone rxdone' : Nat}
    (h : (readReply pipe fuel bytesToRead bytesRead rxdone).Returns a rxdone' tr a') :
    taken tr = [] ∧ a'.own.outputLen = a.own.outputLen ∧
      rxdone ≤ rxdone' ∧ rxdone' ≤ rxdone + (bytesToRead - bytesRead) ∧
      ∀ i, rxdone' ≤ i → a'.own.output i = a.own.output i := by
  induction fuel generalizing bytesRead rxdone a tr with
  | zero =>
    rw [readReply] at h
    split at h
    · exact absurd h Program.not_returns_stop
    · obtain ⟨rfl, rfl, rfl⟩ := Program.returns_pure_iff.mp h
      exact ⟨rfl, rfl, le_refl _, Nat.le_add_right _ _, fun _ _ => rfl⟩
  | succ fuel ih =>
    rw [readReply] at h
    split at h
    · rename_i hmore
      obtain ⟨reply, tr₁, a₁, tr₂, h₁, h₂, rfl⟩ := Program.returns_bind_iff.mp h
      obtain ⟨rfl, hown, hlen⟩ := usbBulkRead_returns h₁
      cases reply with
      | none => exact absurd h₂ Program.not_returns_stop
      | some reply =>
        have hreply := hlen reply rfl
        dsimp only at h₂
        split at h₂
        · split at h₂
          · exact absurd h₂ Program.not_returns_stop
          · obtain ⟨_, tr₃, a₃, tr₄, h₃, h₄, rfl⟩ := Program.returns_bind_iff.mp h₂
            obtain ⟨rfl, rfl⟩ := Program.returns_update_iff.mp h₃
            obtain ⟨htaken, hout, hge, hle, hsame⟩ := ih h₄
            have hlen₁ : a₁.own.outputLen = a.own.outputLen := by rw [hown]
            refine ⟨htaken, hout.trans hlen₁, by omega, by omega, fun i hi => ?_⟩
            have hout' : placed rxdone (reply.drop 2) i = none :=
              placed_of_ge (by rw [List.length_drop]; omega)
            rw [hsame i hi, ← hown]
            exact store_of_none hout'
        · have htail := ih h₂
          rw [hown] at htail
          exact htail
    · obtain ⟨rfl, rfl, rfl⟩ := Program.returns_pure_iff.mp h
      exact ⟨rfl, rfl, le_refl _, Nat.le_add_right _ _, fun _ _ => rfl⟩

/-- The device takes the samples from `txdone` on. What is received lies before them. -/
theorem exchange_returns {fuel txdone rxdone emptyRxfifo : Nat}
    (h : (exchange pipe fuel txdone rxdone emptyRxfifo).Returns a () tr a')
    (htx : txdone ≤ a.own.outputLen) (hrx : fifoSize + rxdone ≤ txdone + emptyRxfifo)
    (hempty : emptyRxfifo ≤ fifoSize) :
    taken tr = a.own.bytes txdone (a.own.outputLen - txdone) := by
  induction fuel generalizing txdone rxdone emptyRxfifo a tr with
  | zero => exact absurd h Program.not_returns_stop
  | succ fuel ih =>
    rw [exchange] at h
    obtain ⟨own, tr₁, a₁, tr₂, h₁, h₂, rfl⟩ := Program.returns_bind_iff.mp h
    obtain ⟨rfl, rfl, rfl⟩ := getOwn_returns.unique h₁
    rw [taken_append, show taken [] = [] from rfl, List.nil_append]
    split at h₂
    · dsimp only at h₂
      generalize hwrite : min (min 64 (a.own.outputLen - txdone)) emptyRxfifo = bytesToWrite at h₂
      obtain ⟨_, tr₃, a₃, tr₄, h₃, h₄, rfl⟩ := Program.returns_bind_iff.mp h₂
      obtain ⟨htaken, hown⟩ := writePacket_returns h₃
      -- the bytes that this packet takes come before those of the later ones
      have hsplit : a.own.bytes txdone (a.own.outputLen - txdone) =
          a.own.bytes txdone bytesToWrite ++
            a.own.bytes (txdone + bytesToWrite) (a.own.outputLen - (txdone + bytesToWrite)) := by
        rw [← Bitbang.bytes_add]
        congr 1
        omega
      rw [taken_append, htaken, hsplit]
      congr 1
      split at h₄
      · obtain ⟨rxdone', tr₅, a₅, tr₆, h₅, h₆, rfl⟩ := Program.returns_bind_iff.mp h₄
        obtain ⟨hnone, hout, hge, hle, hsame⟩ := readReply_returns h₅
        rw [hown] at hout hsame
        rw [taken_append, hnone, List.nil_append, ih h₆ (by omega) (by omega) (le_refl _), hout]
        exact Bitbang.bytes_congr fun i hi => hsame i (by omega)
      · rw [ih h₄ (by rw [hown]; omega) (by omega) (by omega), hown]
    · obtain ⟨-, rfl, -⟩ := Program.returns_pure_iff.mp h₂
      have hdone : a.own.outputLen - txdone = 0 := by omega
      rw [hdone]
      rfl

/-- Not the exit of `bitbang_write`. -/
def NoOverflow (e : Fatal) : Prop := e ≠ bufferOverflow

theorem stopsFor_writePacket (fuel : Nat) (bytes : List Byte) :
    Program.StopsFor (writePacket pipe fuel bytes) NoOverflow := by
  induction fuel generalizing bytes with
  | zero =>
    cases bytes with
    | nil => exact Program.stopsFor_pure
    | cons b bytes => exact Program.stopsFor_stop (by unfold NoOverflow; decide)
  | succ fuel ih =>
    cases bytes with
    | nil => exact Program.stopsFor_pure
    | cons b bytes =>
      refine stopsFor_usbBulkWrite.bind fun written => ?_
      cases written with
      | none => exact Program.stopsFor_stop (by unfold NoOverflow; decide)
      | some n => exact ih _

/-- A reply does not run over a buffer, and may not come. -/
theorem stopsFor_readReply (fuel bytesToRead bytesRead rxdone : Nat) :
    Program.StopsFor (readReply pipe fuel bytesToRead bytesRead rxdone) NoOverflow := by
  induction fuel generalizing bytesRead rxdone with
  | zero =>
    exact Program.stopsFor_ite (fun _ => Program.stopsFor_stop (by unfold NoOverflow; decide))
      fun _ => Program.stopsFor_pure
  | succ fuel ih =>
    refine Program.stopsFor_ite (fun _ => stopsFor_usbBulkRead.bind fun reply => ?_)
      fun _ => Program.stopsFor_pure
    cases reply with
    | none => exact Program.stopsFor_stop (by unfold NoOverflow; decide)
    | some reply =>
      refine Program.stopsFor_ite (fun _ => Program.stopsFor_ite
        (fun _ => Program.stopsFor_stop (by unfold NoOverflow; decide)) fun _ => ?_) fun _ => ih _ _
      exact (stopsFor_setOwn _).bind fun _ => ih _ _

/-- Nor do the packets of an exchange, by induction on the fuel. -/
theorem stopsFor_exchange (fuel txdone rxdone emptyRxfifo : Nat) :
    Program.StopsFor (exchange pipe fuel txdone rxdone emptyRxfifo) NoOverflow := by
  induction fuel generalizing txdone rxdone emptyRxfifo with
  | zero => exact Program.stopsFor_stop (by unfold NoOverflow; decide)
  | succ fuel ih =>
    refine stopsFor_getOwn.bind fun own => Program.stopsFor_ite (fun _ => ?_)
      fun _ => Program.stopsFor_pure
    refine (stopsFor_writePacket _ _).bind fun _ => Program.stopsFor_ite (fun _ => ?_) fun _ => ih _ _ _
    exact (stopsFor_readReply _ _ _ _).bind fun _ => ih _ _ _

/-- The program adds the bytes to the buffer, where they fit, and does nothing else. -/
def Adds (m : UsbAction Bitbang σ Unit) (xs : List Byte) : Prop :=
  ∀ a : Attached Bitbang σ, a.own.outputLen + xs.length ≤ bitbangSize →
    m.Returns a () [] { a with own := xs.foldl Bitbang.push a.own }

/-- The buffer gets longer by the bytes that are pushed. -/
@[simp] theorem outputLen_foldl_push (own : Bitbang) (xs : List Byte) :
    (xs.foldl Bitbang.push own).outputLen = own.outputLen + xs.length := by
  induction xs generalizing own with
  | nil => rfl
  | cons x xs ih =>
    rw [List.foldl_cons, ih, List.length_cons]
    change own.outputLen + 1 + xs.length = _
    omega

theorem bytes_push (own : Bitbang) (x : Byte) :
    (own.push x).bytes 0 (own.outputLen + 1) = own.bytes 0 own.outputLen ++ [x] := by
  rw [Bitbang.bytes_add]
  congr 1
  · refine List.map_congr_left fun i hi => store_of_none (placed_of_lt ?_)
    rw [Nat.zero_add]
    exact List.mem_range.mp hi
  · rw [Nat.zero_add]
    change [store own.output own.outputLen [x] own.outputLen] = [x]
    rw [store, placed_of_le (le_refl _), Nat.sub_self]
    rfl

/-- What is added stands behind what is there. -/
theorem bytes_foldl_push (own : Bitbang) (xs : List Byte) :
    (xs.foldl Bitbang.push own).bytes 0 (own.outputLen + xs.length) =
      own.bytes 0 own.outputLen ++ xs := by
  induction xs generalizing own with
  | nil => exact (List.append_nil _).symm
  | cons x xs ih =>
    have hlen : own.outputLen + (x :: xs).length = (own.push x).outputLen + xs.length := by
      change own.outputLen + (xs.length + 1) = own.outputLen + 1 + xs.length
      omega
    rw [hlen, List.foldl_cons, ih]
    change (own.push x).bytes 0 (own.outputLen + 1) ++ xs = _
    rw [bytes_push, List.append_assoc]
    rfl

theorem adds_bitbangWrite (clk mode data : Bool) :
    Adds (bitbangWrite clk mode data : UsbAction Bitbang σ Unit) [sample clk mode data] := by
  intro a ha
  have hroom : ¬ a.own.outputLen ≥ bitbangSize := by
    rw [List.length_singleton] at ha
    omega
  rw [Program.Returns, bitbangWrite, getOwn_bind, if_neg hroom]
  rfl

/-- The bytes of two parts, one after the other. -/
theorem Adds.bind {m : UsbAction Bitbang σ Unit} {f : Unit → UsbAction Bitbang σ Unit}
    {xs ys : List Byte} (hm : Adds m xs) (hf : Adds (f ()) ys) : Adds (m >>= f) (xs ++ ys) := by
  intro a ha
  rw [List.length_append] at ha
  rw [List.foldl_append]
  have hfirst := hm a (by omega)
  refine hfirst.bind (hf _ ?_)
  rw [outputLen_foldl_push]
  omega

/-- What follows runs with the longer buffer. -/
theorem Adds.bind_apply {α : Type} {m : UsbAction Bitbang σ Unit} {f : Unit → UsbAction Bitbang σ α}
    {xs : List Byte} (hm : Adds m xs) (hroom : a.own.outputLen + xs.length ≤ bitbangSize) :
    (m >>= f) a = f () { a with own := xs.foldl Bitbang.push a.own } := by
  rw [Program.bind_apply, show m a = _ from hm a hroom]
  rfl

/-- What adds bytes that have room comes before what needs them. -/
theorem Adds.meets {α : Type} {m : UsbAction Bitbang σ Unit} {f : Unit → UsbAction Bitbang σ α}
    {xs : List Byte} {F : Fatal → Prop} {Q : α → Attached Bitbang σ → Prop} (hm : Adds m xs)
    (hroom : a.own.outputLen + xs.length ≤ bitbangSize)
    (hf : (f ()).Meets { a with own := xs.foldl Bitbang.push a.own } F Q) : (m >>= f).Meets a F Q :=
  hf.of_apply (hm.bind_apply hroom)

/-- The sample that `bitbang_send_recv` ends the buffer with. -/
def lastSample : Byte := sample false true true

/-- The device takes the buffer and the last sample. -/
theorem bitbangSendRecv_returns {fuel : Nat} (h : (bitbangSendRecv pipe fuel).Returns a () tr a')
    (hroom : a.own.outputLen < bitbangSize) :
    taken tr = a.own.bytes 0 a.own.outputLen ++ [lastSample] ∧ a'.own.outputLen = 0 := by
  rw [bitbangSendRecv, Program.Returns, (adds_bitbangWrite false true true).bind_apply hroom] at h
  obtain ⟨_, tr₁, a₁, tr₂, h₁, h₂, rfl⟩ := Program.returns_bind_iff.mp h
  obtain ⟨rfl, rfl⟩ := Program.returns_update_iff.mp h₂
  have htaken := exchange_returns h₁ (Nat.zero_le _) (le_refl _) (le_refl _)
  refine ⟨?_, rfl⟩
  rw [List.append_nil, htaken, Nat.sub_zero, outputLen_foldl_push, bytes_foldl_push]
  rfl

/-- The buffer is empty afterwards, and it does not overflow. -/
theorem meets_bitbangSendRecv {fuel : Nat} (hroom : a.own.outputLen < bitbangSize) :
    (bitbangSendRecv pipe fuel).Meets a NoOverflow fun _ a' => a'.own.outputLen = 0 := by
  refine (adds_bitbangWrite false true true).meets hroom ?_
  refine Program.Meets.bind (stopsFor_exchange _ _ _ _).meets fun _ a' _ => ?_
  have hempty := setOwn_returns (a := a') fun own : Bitbang => { own with outputLen := 0 }
  exact hempty.reaches.meets rfl

/-- A device that takes everything takes a packet at once. -/
theorem BulkPipe.Prompt.writePacket (hp : pipe.Prompt) (a : Attached Bitbang σ) {fuel : Nat}
    (hfuel : 0 < fuel) (bytes : List Byte) : ∃ a', (writePacket pipe fuel bytes).Reaches a () a' := by
  obtain ⟨fuel, rfl⟩ := Nat.exists_eq_succ_of_ne_zero hfuel.ne'
  cases bytes with
  | nil => exact ⟨a, Program.reaches_pure () a⟩
  | cons b bytes =>
    obtain ⟨a₁, ha₁⟩ : ∃ a₁ : Attached Bitbang σ, a₁ = ⟨a.own, (pipe.write (b :: bytes) a.usb).2⟩ :=
      ⟨_, rfl⟩
    have hwrite : (usbBulkWrite pipe (b :: bytes)).Reaches a (some (b :: bytes).length) a₁ :=
      Program.reaches_request (by rw [hp.1, ha₁])
    have hrest : (Mcprog.writePacket pipe fuel []).Reaches a₁ () a₁ := by
      unfold Mcprog.writePacket
      exact Program.reaches_pure () a₁
    rw [← List.drop_length (l := b :: bytes)] at hrest
    exact ⟨a₁, hwrite.bind hrest⟩

/-- With all bytes read nothing is waited for any more. -/
theorem readReply_of_le {bytesToRead bytesRead : Nat} (h : bytesToRead ≤ bytesRead) (fuel rxdone : Nat) :
    readReply pipe fuel bytesToRead bytesRead rxdone = pure rxdone := by
  cases fuel with
  | zero => rw [readReply, if_neg (Nat.not_lt.mpr h)]
  | succ fuel => rw [readReply, if_neg (Nat.not_lt.mpr h)]

/-- A reply in one piece is put in its place. -/
theorem reaches_readReply_whole (own : Bitbang) {s : σ} (fuel : Nat) {bytesToRead rxdone : Nat} {reply : List Byte}
    (hpos : 0 < bytesToRead)
    (hread : (pipe.read (bytesToRead + 2) s).1 = some reply) (hlen : reply.length = bytesToRead + 2)
    (hroom : rxdone + bytesToRead ≤ bitbangSize) :
    (readReply pipe (fuel + 1) bytesToRead 0 rxdone).Reaches ⟨own, s⟩ (rxdone + bytesToRead)
      ⟨{ own with output := store own.output rxdone (reply.drop 2) }, (pipe.read (bytesToRead + 2) s).2⟩ := by
  have hbulk : (usbBulkRead pipe (bytesToRead + 2)).Reaches ⟨own, s⟩ (some reply)
      ⟨own, (pipe.read (bytesToRead + 2) s).2⟩ := Program.reaches_request (by rw [hread])
  have hsize : reply.length - 2 = bytesToRead := by omega
  rw [readReply, if_pos hpos, Nat.sub_zero]
  refine hbulk.bind ?_
  dsimp only
  rw [if_pos (by omega), hsize, if_neg (by omega), readReply_of_le (by omega)]
  refine (setOwn_returns (a := ⟨own, _⟩) fun own : Bitbang =>
    { own with output := store own.output rxdone (reply.drop 2) }).reaches.bind ?_
  exact Program.reaches_pure _ _

/-- A device that answers at once answers a packet at once. -/
theorem BulkPipe.Prompt.readReply (hp : pipe.Prompt) (a : Attached Bitbang σ)
    {fuel bytesToRead rxdone : Nat} (hfuel : 0 < fuel) (hroom : rxdone + bytesToRead ≤ bitbangSize) :
    ∃ a', (readReply pipe fuel bytesToRead 0 rxdone).Reaches a (rxdone + bytesToRead) a' := by
  rcases Nat.eq_zero_or_pos bytesToRead with rfl | hpos
  · rw [readReply_of_le (Nat.le_refl 0)]
    exact ⟨a, Program.reaches_pure _ a⟩
  · obtain ⟨fuel, rfl⟩ := Nat.exists_eq_succ_of_ne_zero hfuel.ne'
    obtain ⟨reply, hreply, hlen⟩ := hp.2 (bytesToRead + 2) a.usb
    exact ⟨_, reaches_readReply_whole a.own fuel hpos hreply hlen hroom⟩

/-- The packets of an exchange, by induction on what is left of the buffer. -/
theorem BulkPipe.Prompt.exchange (hp : pipe.Prompt) (a : Attached Bitbang σ) {fuel done : Nat}
    (hfuel : a.own.outputLen - done + 1 < fuel) (hdone : done ≤ a.own.outputLen)
    (hlen : a.own.outputLen ≤ bitbangSize) :
    ∃ a', (exchange pipe fuel done done fifoSize).Reaches a () a' := by
  have hfifo : fifoSize = 62 := rfl
  induction fuel generalizing a done with
  | zero => omega
  | succ fuel ih =>
    rw [Mcprog.exchange]
    by_cases hmore : done < a.own.outputLen
    · obtain ⟨n, hn⟩ : ∃ n, min (min 64 (a.own.outputLen - done)) fifoSize = n := ⟨_, rfl⟩
      have hfuel' : 0 < fuel := by omega
      obtain ⟨a₁, tr₁, h₁⟩ := hp.writePacket a hfuel' (a.own.bytes done n)
      have hown := (writePacket_returns h₁).2
      have hroom : done + n ≤ bitbangSize := by omega
      obtain ⟨a₂, tr₂, h₂⟩ := hp.readReply a₁ hfuel' hroom
      have hlen₂ : a₂.own.outputLen = a.own.outputLen := (readReply_returns h₂).2.1.trans (by rw [hown])
      obtain ⟨a₃, h₃⟩ := ih a₂ (by omega) (show done + n ≤ _ by omega) (by omega)
      refine ⟨a₃, getOwn_returns.reaches.bind ?_⟩
      rw [if_pos hmore, hn]
      refine h₁.reaches.bind ?_
      have hread : fifoSize - (fifoSize - n) = n := by omega
      rw [if_pos (by omega), hread]
      exact h₂.reaches.bind h₃
    · refine ⟨a, getOwn_returns.reaches.bind ?_⟩
      rw [if_neg hmore]
      exact Program.reaches_pure () a

/-- The whole buffer is sent, and as many bytes come back. -/
theorem BulkPipe.Prompt.bitbangSendRecv (hp : pipe.Prompt) (a : Attached Bitbang σ) {fuel : Nat}
    (hfuel : bitbangSize + 1 < fuel) (hroom : a.own.outputLen < bitbangSize) :
    ∃ a', (bitbangSendRecv pipe fuel).Reaches a () a' := by
  obtain ⟨a₁, ha₁⟩ : ∃ a₁ : Attached Bitbang σ, a₁ = ⟨[lastSample].foldl Bitbang.push a.own, a.usb⟩ :=
    ⟨_, rfl⟩
  have hlen : a₁.own.outputLen = a.own.outputLen + 1 := by
    rw [ha₁]
    exact outputLen_foldl_push a.own [lastSample]
  have hfirst := (adds_bitbangWrite false true true) a hroom
  rw [show (⟨[sample false true true].foldl Bitbang.push a.own, a.usb⟩ : Attached Bitbang σ) = a₁ from
    ha₁.symm] at hfirst
  obtain ⟨a₂, h₂⟩ := hp.exchange a₁ (show a₁.own.outputLen - 0 + 1 < fuel by omega) (Nat.zero_le _)
    (show a₁.own.outputLen ≤ bitbangSize by omega)
  exact ⟨_, hfirst.reaches.bind (h₂.bind (setOwn_returns _).reaches)⟩

end Mcprog
