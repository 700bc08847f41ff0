import Mcprog.Adapter.Exchange

/-!
# Replies of the bitbang adapter in pieces

The device answers every sample with one byte, and the library may take the samples and deliver
the bytes in pieces. `bitbang_send_recv` counts the two status bytes of a transfer as received
data. Where each reply comes in one piece all bytes are put in their places; where one does not
the program never comes out of its loop.
-/

namespace Mcprog

open Interaction Cells

variable {σ χ : Type}

/-- The bytes that come back for some samples, and the device after them. -/
def echo (respond : χ → Byte → χ × Byte) : χ → List Byte → χ × List Byte
  | c, [] => (c, [])
  | c, b :: bytes =>
    ((echo respond (respond c b).1 bytes).1, (respond c b).2 :: (echo respond (respond c b).1 bytes).2)

/-- A write takes some of the samples, and what comes back for them waits. A read delivers two
status bytes and some of what waits. -/
structure BulkPipe.Echoes (pipe : BulkPipe σ) (respond : χ → Byte → χ × Byte) (view : σ → χ × List Byte) :
    Prop where
  write : ∀ bytes s, bytes ≠ [] → ∃ n, (pipe.write bytes s).1 = some n ∧ 1 ≤ n ∧
    view (pipe.write bytes s).2 = ((echo respond (view s).1 (bytes.take n)).1,
      (view s).2 ++ (echo respond (view s).1 (bytes.take n)).2)
  read : ∀ size s, 2 < size → ∃ status data, (pipe.read size s).1 = some (status ++ data) ∧
    status.length = 2 ∧ (view s).2 = data ++ (view (pipe.read size s).2).2 ∧
      (view (pipe.read size s).2).1 = (view s).1 ∧ ((view s).2 ≠ [] → data ≠ [])

/-- The device takes a packet in some writes. -/
inductive Takes (pipe : BulkPipe σ) : List Byte → σ → σ → Prop
  | done (s : σ) : Takes pipe [] s s
  | write {bytes : List Byte} {s s' : σ} {n : Nat} (more : bytes ≠ []) (written : (pipe.write bytes s).1 = some n)
      (rest : Takes pipe (bytes.drop n) (pipe.write bytes s).2 s') : Takes pipe bytes s s'

/-- Each packet of samples is answered in one piece. -/
inductive WholeReplies (pipe : BulkPipe σ) : List Byte → σ → Prop
  | done (s : σ) : WholeReplies pipe [] s
  | packet {bytes reply : List Byte} {s s₁ : σ} (more : bytes ≠ [])
      (takes : Takes pipe (bytes.take fifoSize) s s₁)
      (read : (pipe.read ((bytes.take fifoSize).length + 2) s₁).1 = some reply)
      (whole : reply.length = (bytes.take fifoSize).length + 2)
      (rest : WholeReplies pipe (bytes.drop fifoSize) (pipe.read ((bytes.take fifoSize).length + 2) s₁).2) :
      WholeReplies pipe bytes s

variable {pipe : BulkPipe σ} {respond : χ → Byte → χ × Byte} {view : σ → χ × List Byte}

theorem echo_append (c : χ) (xs ys : List Byte) :
    echo respond c (xs ++ ys) = ((echo respond (echo respond c xs).1 ys).1,
      (echo respond c xs).2 ++ (echo respond (echo respond c xs).1 ys).2) := by
  induction xs generalizing c with
  | nil => rfl
  | cons b xs ih =>
    rw [List.cons_append, echo, ih]
    rfl

theorem length_echo (c : χ) (bytes : List Byte) : (echo respond c bytes).2.length = bytes.length := by
  induction bytes generalizing c with
  | nil => rfl
  | cons b bytes ih => rw [echo, List.length_cons, List.length_cons, ih]

/-- What comes back for a packet waits behind what waited before. -/
theorem Takes.view_eq (h : pipe.Echoes respond view) {bytes : List Byte} {s s' : σ} (ht : Takes pipe bytes s s') :
    view s' = ((echo respond (view s).1 bytes).1, (view s).2 ++ (echo respond (view s).1 bytes).2) := by
  induction ht with
  | done s => rw [echo, List.append_nil]
  | write more written rest ih =>
    rename_i bytes s s' n
    obtain ⟨n', hwritten, -, hview⟩ := h.write bytes s more
    obtain rfl := Option.some.inj (written.symm.trans hwritten)
    rw [ih, hview]
    conv_rhs => rw [← List.take_append_drop n bytes, echo_append]
    rw [List.append_assoc]

/-- Every packet is taken sooner or later. -/
theorem BulkPipe.Echoes.takes (h : pipe.Echoes respond view) (bytes : List Byte) (s : σ) :
    ∃ s', Takes pipe bytes s s' := by
  induction hk : bytes.length using Nat.strong_induction_on generalizing bytes s with
  | _ k ih =>
    by_cases hempty : bytes = []
    · rw [hempty]
      exact ⟨s, .done s⟩
    · obtain ⟨n, hwritten, hpos, -⟩ := h.write bytes s hempty
      have hlen := List.length_pos_iff.mpr hempty
      obtain ⟨s', hs'⟩ := ih (bytes.drop n).length (by rw [List.length_drop]; omega) (bytes.drop n) _ rfl
      exact ⟨s', .write hempty hwritten hs'⟩

variable {own : Bitbang} {s : σ} {a a' : Attached Bitbang σ} {tr : List Transfer}

/-- A packet that has been written has been taken. -/
theorem takes_of_writePacket {fuel : Nat} {bytes : List Byte}
    (h : (writePacket pipe fuel bytes).Returns a () tr a') : Takes pipe bytes a.usb a'.usb := by
  induction fuel generalizing bytes a tr with
  | zero =>
    cases bytes with
    | nil =>
      obtain ⟨-, rfl, rfl⟩ := Program.returns_pure_iff.mp h
      exact .done _
    | cons b bytes => exact absurd h Program.not_returns_stop
  | succ fuel ih =>
    cases bytes with
    | nil =>
      obtain ⟨-, rfl, rfl⟩ := Program.returns_pure_iff.mp h
      exact .done _
    | cons b bytes =>
      obtain ⟨written, tr₁, a₁, tr₂, h₁, h₂, rfl⟩ := Program.returns_bind_iff.mp h
      obtain ⟨heq, -⟩ := Program.returns_request_iff.mp h₁
      obtain ⟨hwritten, rfl⟩ := Prod.mk.inj (Except.ok.inj heq)
      cases written with
      | none => exact absurd h₂ Program.not_returns_stop
      | some n => exact .write (List.cons_ne_nil b bytes) hwritten (ih h₂)

/-- A packet that is taken is written. -/
theorem Takes.reaches {bytes : List Byte} {s s' : σ} (ht : Takes pipe bytes s s') (own : Bitbang) :
    ∃ enough, ∀ fuel ≥ enough, (writePacket pipe fuel bytes).Reaches ⟨own, s⟩ () ⟨own, s'⟩ := by
  induction ht with
  | done s =>
    refine ⟨0, fun fuel _ => ?_⟩
    cases fuel with
    | zero => exact Program.reaches_pure _ _
    | succ fuel => exact Program.reaches_pure _ _
  | write more written rest ih =>
    rename_i bytes s s' n
    obtain ⟨enough, h⟩ := ih
    refine ⟨enough + 1, fun fuel hfuel => ?_⟩
    obtain ⟨fuel, rfl⟩ := Nat.exists_eq_succ_of_ne_zero (show fuel ≠ 0 by omega)
    obtain ⟨b, bytes, rfl⟩ := List.exists_cons_of_ne_nil more
    have hwrite : (usbBulkWrite pipe (b :: bytes)).Reaches ⟨own, s⟩ (some n)
        ⟨own, (pipe.write (b :: bytes) s).2⟩ := Program.reaches_request (by rw [written])
    exact hwrite.bind (h fuel (by omega))

/-- What is put into the buffer is what does not wait any more. -/
theorem readReply_pending (h : pipe.Echoes respond view) {fuel bytesToRead bytesRead rxdone rxdone' : Nat}
    (hr : (readReply pipe fuel bytesToRead bytesRead rxdone).Returns a rxdone' tr a') :
    (view a.usb).2.length = (rxdone' - rxdone) + (view a'.usb).2.length := by
  induction fuel generalizing bytesRead rxdone a tr with
  | zero =>
    rw [readReply] at hr
    split at hr
    · exact absurd hr Program.not_returns_stop
    · obtain ⟨rfl, rfl, rfl⟩ := Program.returns_pure_iff.mp hr
      rw [Nat.sub_self, Nat.zero_add]
  | succ fuel ih =>
    rw [readReply] at hr
    split at hr
    · obtain ⟨reply, tr₁, a₁, tr₂, h₁, h₂, rfl⟩ := Program.returns_bind_iff.mp hr
      obtain ⟨heq, -⟩ := Program.returns_request_iff.mp h₁
      obtain ⟨hreply, rfl⟩ := Prod.mk.inj (Except.ok.inj heq)
      obtain ⟨status, data, hread, hstatus, hpending, -⟩ := h.read _ a.usb (show 2 < bytesToRead - bytesRead + 2 by omega)
      obtain rfl := hreply.symm.trans hread
      have hlen := congrArg List.length hpending
      rw [List.length_append] at hlen
      have hsize : (status ++ data).length = 2 + data.length := by rw [List.length_append, hstatus]
      dsimp only at h₂
      split at h₂
      · split at h₂
        · exact absurd h₂ Program.not_returns_stop
        · obtain ⟨_, tr₃, a₃, tr₄, h₃, h₄, rfl⟩ := Program.returns_bind_iff.mp h₂
          obtain ⟨rfl, rfl⟩ := Program.returns_update_iff.mp h₃
          have hge := (readReply_returns h₄).2.2.1
          have hrest := ih h₄
          dsimp only at hrest
          omega
      · have hrest := ih h₂
        dsimp only at hrest
        omega
    · obtain ⟨rfl, rfl, rfl⟩ := Program.returns_pure_iff.mp hr
      rw [Nat.sub_self, Nat.zero_add]

/-- A reply in several pieces loses bytes: where none is lost, the first read has delivered all. -/
theorem readReply_whole (h : pipe.Echoes respond view) {fuel bytesToRead rxdone : Nat} (hpos : 0 < bytesToRead)
    (hpending : (view a.usb).2 ≠ [])
    (hr : (readReply pipe fuel bytesToRead 0 rxdone).Returns a (rxdone + bytesToRead) tr a') :
    ∃ reply, (pipe.read (bytesToRead + 2) a.usb).1 = some reply ∧ reply.length = bytesToRead + 2 ∧
      a'.usb = (pipe.read (bytesToRead + 2) a.usb).2 := by
  cases fuel with
  | zero =>
    rw [readReply, if_pos hpos] at hr
    exact absurd hr Program.not_returns_stop
  | succ fuel =>
    rw [readReply, if_pos hpos, Nat.sub_zero] at hr
    obtain ⟨reply, tr₁, a₁, tr₂, h₁, h₂, rfl⟩ := Program.returns_bind_iff.mp hr
    obtain ⟨heq, -⟩ := Program.returns_request_iff.mp h₁
    obtain ⟨hreply, rfl⟩ := Prod.mk.inj (Except.ok.inj heq)
    obtain ⟨status, data, hread, hstatus, -, -, hdata⟩ := h.read (bytesToRead + 2) a.usb (by omega)
    obtain rfl := hreply.symm.trans hread
    have hlen := List.length_pos_iff.mpr (hdata hpending)
    have hle := pipe.read_le hread
    have hsize : (status ++ data).length = 2 + data.length := by rw [List.length_append, hstatus]
    dsimp only at h₂
    rw [if_pos (by omega)] at h₂
    split at h₂
    · exact absurd h₂ Program.not_returns_stop
    · obtain ⟨_, tr₃, a₃, tr₄, h₃, h₄, rfl⟩ := Program.returns_bind_iff.mp h₂
      obtain ⟨rfl, rfl⟩ := Program.returns_update_iff.mp h₃
      obtain ⟨-, -, -, hgain, -⟩ := readReply_returns h₄
      have hall : data.length = bytesToRead := by omega
      refine ⟨status ++ data, hread, by omega, ?_⟩
      rw [readReply_of_le (by omega)] at h₄
      obtain ⟨-, -, rfl⟩ := Program.returns_pure_iff.mp h₄
      rfl

theorem length_repliesBytes (own : Bitbang) (start n : Nat) : (own.bytes start n).length = n := by
  rw [Bitbang.bytes, List.length_map, List.length_range]

section Packets

variable {a₁ a₂ : Bitbang} {done b : Nat}

/-- The next packet holds as many of the bytes that are left as the FIFO takes. -/
theorem take_fifo (hb : b = min fifoSize (a₁.outputLen - done)) :
    (a₁.bytes done (a₁.outputLen - done)).take fifoSize = a₁.bytes done b := by
  rw [Bitbang.bytes, ← List.map_take, List.take_range, ← hb, Bitbang.bytes]

/-- The bytes behind the next packet, which are still there when its replies have come. -/
theorem drop_fifo (hb : b = min fifoSize (a₁.outputLen - done)) (hout : a₂.outputLen = a₁.outputLen)
    (hsame : ∀ i, done + b ≤ i → a₂.output i = a₁.output i) :
    (a₁.bytes done (a₁.outputLen - done)).drop fifoSize = a₂.bytes (done + b) (a₂.outputLen - (done + b)) := by
  rw [hout, Bitbang.bytes_congr hsame]
  rcases Nat.le_total fifoSize (a₁.outputLen - done) with hfull | hlast
  · obtain ⟨k, hk⟩ := Nat.exists_eq_add_of_le hfull
    obtain rfl : b = fifoSize := hb.trans (Nat.min_eq_left hfull)
    rw [hk, Bitbang.bytes_add, List.drop_left' (length_repliesBytes _ _ _)]
    congr 1
    omega
  · rw [List.drop_eq_nil_of_le (by rwa [length_repliesBytes]), show a₁.outputLen - (done + b) = 0 by omega]
    rfl

end Packets

/-- The loop is left only if nothing has stayed behind and each packet is answered in one piece. -/
theorem whole_of_exchange (h : pipe.Echoes respond view) {fuel txdone rxdone : Nat}
    (hr : (exchange pipe fuel txdone rxdone fifoSize).Returns a () tr a') (htx : txdone ≤ a.own.outputLen)
    (hrx : rxdone ≤ txdone) (hpending : (view a.usb).2.length = txdone - rxdone) :
    rxdone = txdone ∧ WholeReplies pipe (a.own.bytes txdone (a.own.outputLen - txdone)) a.usb := by
  have hfifo : fifoSize = 62 := rfl
  induction fuel generalizing txdone rxdone a tr with
  | zero => exact absurd hr Program.not_returns_stop
  | succ fuel ih =>
    rw [exchange] at hr
    obtain ⟨own, tr₁, a₁, tr₂, h₁, h₂, rfl⟩ := Program.returns_bind_iff.mp hr
    obtain ⟨rfl, rfl, rfl⟩ := getOwn_returns.unique h₁
    split at h₂
    · rename_i hmore
      dsimp only at h₂
      obtain ⟨b, hb⟩ : ∃ b, b = min fifoSize (a.own.outputLen - txdone) := ⟨_, rfl⟩
      rw [show min (min 64 (a.own.outputLen - txdone)) fifoSize = b by omega] at h₂
      obtain ⟨_, tr₃, a₃, tr₄, h₃, h₄, rfl⟩ := Program.returns_bind_iff.mp h₂
      have hown := (writePacket_returns h₃).2
      have htakes := takes_of_writePacket h₃
      have hview := htakes.view_eq h
      have hpending₃ := congrArg (fun v => v.2.length) hview
      dsimp only at hpending₃
      rw [List.length_append, length_echo, length_repliesBytes] at hpending₃
      rw [if_pos (by omega), show fifoSize - (fifoSize - b) = b by omega] at h₄
      obtain ⟨rxdone', tr₅, a₅, tr₆, h₅, h₆, rfl⟩ := Program.returns_bind_iff.mp h₄
      obtain ⟨-, hout, hge, hle, hsame⟩ := readReply_returns h₅
      have hpending₅ := readReply_pending h h₅
      rw [hown] at hout hsame
      obtain ⟨hrest, hwhole⟩ := ih h₆ (by omega) (by omega) (by omega)
      have hnone : rxdone = txdone := by omega
      have hpos : 0 < b := by omega
      have htake := take_fifo hb
      have hdrop := drop_fifo hb hout fun i hi => hsame i (by omega)
      rw [show rxdone' = rxdone + b by omega] at h₅
      obtain ⟨reply, hread, hreplyLen, husb⟩ := readReply_whole h hpos (by
        intro hnil
        rw [hnil] at hpending₃
        simp only [List.length_nil] at hpending₃
        omega) h₅
      have htakes' : Takes pipe ((a.own.bytes txdone (a.own.outputLen - txdone)).take fifoSize) a.usb a₃.usb := by
        rwa [htake]
      refine ⟨hnone, .packet ?_ htakes' (by rw [htake, length_repliesBytes]; exact hread) ?_ ?_⟩
      · exact List.length_pos_iff.mp (by rw [length_repliesBytes]; omega)
      · rw [htake, length_repliesBytes, hreplyLen]
      · rw [htake, length_repliesBytes, hdrop, ← husb]
        exact hwhole
    · have hnil : a.own.bytes txdone (a.own.outputLen - txdone) = [] := by
        rw [show a.own.outputLen - txdone = 0 by omega]
        rfl
      exact ⟨by omega, by rw [hnil]; exact .done _⟩

/-- Where each packet is answered in one piece, all that comes back is put in its place. -/
theorem WholeReplies.exchange (own : Bitbang) (h : pipe.Echoes respond view) {bytes : List Byte}
    (hw : WholeReplies pipe bytes s) {done : Nat} (hbytes : bytes = own.bytes done (own.outputLen - done)) (hdone : done ≤ own.outputLen)
    (hlen : own.outputLen ≤ bitbangSize) (hpending : (view s).2 = []) :
    ∃ s' enough, (view s').2 = [] ∧ ∀ fuel ≥ enough, (exchange pipe fuel done done fifoSize).Reaches ⟨own, s⟩ ()
      ⟨{ own with output := store own.output done (echo respond (view s).1 bytes).2 }, s'⟩ := by
  have hfifo : fifoSize = 62 := rfl
  induction hw generalizing own done with
  | done s =>
    have hend := congrArg List.length hbytes
    rw [length_repliesBytes, List.length_nil] at hend
    refine ⟨s, 1, hpending, fun fuel hfuel => ?_⟩
    obtain ⟨fuel, rfl⟩ := Nat.exists_eq_succ_of_ne_zero (show fuel ≠ 0 by omega)
    rw [Mcprog.exchange]
    refine getOwn_returns.reaches.bind ?_
    rw [if_neg (by dsimp only; omega), echo, store_nil]
    exact Program.reaches_pure _ _
  | packet more takes read whole rest ih =>
    rename_i bytes reply s s₁
    subst hbytes
    obtain ⟨b, hb⟩ : ∃ b, b = min fifoSize (own.outputLen - done) := ⟨_, rfl⟩
    have hmore := List.length_pos_iff.mpr more
    rw [length_repliesBytes] at hmore
    have htake := take_fifo hb
    have hview := takes.view_eq h
    rw [hpending, List.nil_append] at hview
    rw [htake] at takes hview
    rw [htake, length_repliesBytes] at read whole rest ih
    obtain ⟨status, data, hread, hstatus, hdata, hchip, -⟩ := h.read (b + 2) s₁ (by omega)
    obtain rfl := Option.some.inj (read.symm.trans hread)
    rw [List.length_append, hstatus] at whole
    -- the piece is all that waits
    have hwaits := congrArg List.length hdata
    rw [hview, length_echo, length_repliesBytes, List.length_append] at hwaits
    have hnil : (view (pipe.read (b + 2) s₁).2).2 = [] := List.length_eq_zero_iff.mp (by omega)
    rw [hnil, List.append_nil, hview] at hdata
    dsimp only at hdata
    obtain ⟨own₁, hown₁⟩ : ∃ own₁ : Bitbang, own₁ = { own with output := store own.output done data } := ⟨_, rfl⟩
    have hlen₁ : own₁.outputLen = own.outputLen := by rw [hown₁]
    have hrest : (own.bytes done (own.outputLen - done)).drop fifoSize =
        own₁.bytes (done + b) (own₁.outputLen - (done + b)) := by
      refine drop_fifo hb hlen₁ fun i hi => ?_
      rw [hown₁]
      exact store_of_none (placed_of_ge (by omega))
    obtain ⟨s', enough, hend, henough⟩ := ih own₁ hrest (by omega) (by omega) hnil
    obtain ⟨enough', hwrite⟩ := takes.reaches own
    refine ⟨s', max enough enough' + 2, hend, fun fuel hfuel => ?_⟩
    obtain ⟨fuel, rfl⟩ := Nat.exists_eq_succ_of_ne_zero (show fuel ≠ 0 by omega)
    obtain ⟨fuel, rfl⟩ := Nat.exists_eq_succ_of_ne_zero (show fuel ≠ 0 by omega)
    have hreply := reaches_readReply_whole own fuel (show 0 < b by omega) read
      (by rw [List.length_append, hstatus]; exact whole) (show done + b ≤ bitbangSize by omega)
    rw [List.drop_left' hstatus, ← hown₁] at hreply
    rw [Mcprog.exchange]
    refine getOwn_returns.reaches.bind ?_
    rw [if_pos (by dsimp only; omega)]
    dsimp only
    rw [show min (min 64 (own.outputLen - done)) fifoSize = b by omega]
    refine (hwrite (fuel + 1) (by omega)).bind ?_
    rw [if_pos (by omega), show fifoSize - (fifoSize - b) = b by omega]
    refine hreply.bind ?_
    have hall : (echo respond (view s).1 (own.bytes done (own.outputLen - done))).2 = data ++
        (echo respond (view (pipe.read (b + 2) s₁).2).1
          ((own.bytes done (own.outputLen - done)).drop fifoSize)).2 := by
      conv_lhs => rw [← List.take_append_drop fifoSize (own.bytes done (own.outputLen - done)), echo_append]
      rw [htake, hchip, hview, hdata]
    have hend' := henough (fuel + 1) (by omega)
    rw [hown₁] at hend' ⊢
    rw [hall, ← store_append, show done + data.length = done + b by omega]
    exact hend'

/-- What a call sends: the buffer and the last sample. -/
def samples (own : Bitbang) : List Byte := own.bytes 0 own.outputLen ++ [lastSample]

/-- The call comes to its end. Every sample is sent as it was in the buffer, and then the byte that
came back for it stands in its place. -/
def Exchanges (pipe : BulkPipe σ) (respond : χ → Byte → χ × Byte) (view : σ → χ × List Byte)
    (a : Attached Bitbang σ) : Prop :=
  ∃ enough a', (∀ fuel ≥ enough, ∃ tr, (bitbangSendRecv pipe fuel).Returns a () tr a' ∧
      taken tr = samples a.own) ∧ a'.own.outputLen = 0 ∧
    a'.own.bytes 0 (a.own.outputLen + 1) = (echo respond (view a.usb).1 (samples a.own)).2

theorem bytes_samples (own : Bitbang) : ([lastSample].foldl Bitbang.push own).bytes 0
    (([lastSample].foldl Bitbang.push own).outputLen - 0) = samples own := by
  rw [outputLen_foldl_push, Nat.sub_zero, bytes_foldl_push]
  rfl

/-- A call that comes to its end has got each reply in one piece. -/
theorem whole_of_bitbangSendRecv (h : pipe.Echoes respond view) (hroom : a.own.outputLen < bitbangSize)
    (hpending : (view a.usb).2 = []) {fuel : Nat} (hr : (bitbangSendRecv pipe fuel).Returns a () tr a') :
    WholeReplies pipe (samples a.own) a.usb := by
  rw [bitbangSendRecv, Program.Returns, (adds_bitbangWrite false true true).bind_apply hroom] at hr
  obtain ⟨_, tr₁, a₁, tr₂, h₁, -, rfl⟩ := Program.returns_bind_iff.mp hr
  have hwhole := (whole_of_exchange h h₁ (Nat.zero_le _) (le_refl 0) (congrArg List.length hpending)).2
  rwa [← bytes_samples]

/-- The call does what it is for if and only if each reply comes in one piece. -/
theorem exchanges_iff (h : pipe.Echoes respond view) (hroom : a.own.outputLen < bitbangSize)
    (hpending : (view a.usb).2 = []) :
    Exchanges pipe respond view a ↔ WholeReplies pipe (samples a.own) a.usb := by
  constructor
  · rintro ⟨enough, a', hreturns, -⟩
    obtain ⟨tr, hr, -⟩ := hreturns enough (le_refl enough)
    exact whole_of_bitbangSendRecv h hroom hpending hr
  · intro hwhole
    obtain ⟨own₁, hown₁⟩ : ∃ own₁, own₁ = [lastSample].foldl Bitbang.push a.own := ⟨_, rfl⟩
    have hlen₁ : own₁.outputLen = a.own.outputLen + 1 := by
      rw [hown₁]
      exact outputLen_foldl_push a.own [lastSample]
    obtain ⟨s', enough, -, henough⟩ := hwhole.exchange own₁ h (by rw [hown₁, bytes_samples])
      (Nat.zero_le _) (by omega) hpending
    obtain ⟨received, hreceived⟩ : ∃ received, received = (echo respond (view a.usb).1 (samples a.own)).2 := ⟨_, rfl⟩
    unfold Exchanges
    rw [← hreceived] at henough ⊢
    have hcount : received.length = a.own.outputLen + 1 := by
      rw [hreceived, length_echo, samples, List.length_append, length_repliesBytes]
      rfl
    refine ⟨enough, ⟨⟨store own₁.output 0 received, 0⟩, s'⟩, fun fuel hfuel => ?_, rfl, ?_⟩
    · have hfirst := (adds_bitbangWrite false true true) a hroom
      rw [show (⟨[sample false true true].foldl Bitbang.push a.own, a.usb⟩ : Attached Bitbang σ) =
        ⟨own₁, a.usb⟩ by rw [hown₁]; rfl] at hfirst
      obtain ⟨tr, hr⟩ : (bitbangSendRecv pipe fuel).Reaches a () ⟨⟨store own₁.output 0 received, 0⟩, s'⟩ :=
        hfirst.reaches.bind ((henough fuel hfuel).bind (setOwn_returns _).reaches)
      exact ⟨tr, hr, (bitbangSendRecv_returns hr hroom).1⟩
    · have hmap := map_store own₁.output 0 received
      rwa [hcount] at hmap

/-- A device that sends each byte back. It takes one byte at a time and delivers so many at most. -/
def loopback (limit : Nat) (_ : 0 < limit) : BulkPipe (List Byte) where
  write bytes s := (some (min 1 bytes.length), s ++ bytes.take 1)
  read size s :=
    (some (([0x32, 0x60] ++ s.take (min limit (size - 2))).take size), s.drop (min limit (size - 2)))
  write_le h := by
    rw [← Option.some.inj h]
    exact min_le_right _ _
  read_le h := by
    rw [← Option.some.inj h]
    exact List.length_take_le _ _

theorem echo_loopback (c : Unit) (bytes : List Byte) :
    (echo (fun (c : Unit) (b : Byte) => (c, b)) c bytes).2 = bytes := by
  induction bytes with
  | nil => rfl
  | cons b bytes ih => rw [echo, ih]

/-- The device of the example gives back what it is given. -/
theorem echoes_loopback {limit : Nat} (hlimit : 0 < limit) :
    (loopback limit hlimit).Echoes (fun (c : Unit) (b : Byte) => (c, b)) fun s => ((), s) where
  write bytes s hmore := by
    have hpos := List.length_pos_iff.mpr hmore
    refine ⟨1, congrArg some (min_eq_left hpos), le_refl 1, ?_⟩
    rw [echo_loopback]
    rfl
  read size s hsize := by
    obtain ⟨count, hcount⟩ : ∃ count, count = min limit (size - 2) := ⟨_, rfl⟩
    refine ⟨[0x32, 0x60], s.take count, ?_, rfl, ?_, rfl, fun hmore => ?_⟩
    · have hlen : ([0x32, 0x60] ++ s.take count).length ≤ size := by
        rw [List.length_append, List.length_take]
        simp only [List.length_cons, List.length_nil]
        omega
      change some _ = _
      rw [← hcount, List.take_of_length_le hlen]
    · change s = s.take count ++ s.drop _
      rw [← hcount, List.take_append_drop]
    · have hpos : 0 < s.length := List.length_pos_iff.mpr hmore
      exact List.length_pos_iff.mp (by rw [List.length_take]; omega)

/-- Four samples that come back in one piece. -/
theorem exchanges_loopback : Exchanges (loopback 62 (by decide)) (fun (c : Unit) (b : Byte) => (c, b))
    (fun s => ((), s)) ⟨⟨fun _ => 0x51, 3⟩, []⟩ := by
  have htakes : Takes (loopback 62 (by decide)) [0x51, 0x51, 0x51, 0x5A] [] [0x51, 0x51, 0x51, 0x5A] :=
    .write (List.cons_ne_nil _ _) rfl (.write (List.cons_ne_nil _ _) rfl
      (.write (List.cons_ne_nil _ _) rfl (.write (List.cons_ne_nil _ _) rfl (.done _))))
  have hwhole : WholeReplies (loopback 62 (by decide)) [0x51, 0x51, 0x51, 0x5A] [] :=
    .packet (List.cons_ne_nil _ _) htakes rfl rfl (.done _)
  exact (exchanges_iff (echoes_loopback _) (by decide) rfl).mpr hwhole

/-- Two samples that come back one by one: the second one never gets its place. -/
theorem not_exchanges_loopback : ¬ ∀ (pipe : BulkPipe (List Byte)) (a : Attached Bitbang (List Byte)),
    pipe.Echoes (fun (c : Unit) (b : Byte) => (c, b)) (fun s => ((), s)) → a.own.outputLen < bitbangSize →
      a.usb = [] → Exchanges pipe (fun (c : Unit) (b : Byte) => (c, b)) (fun s => ((), s)) a := by
  intro hall
  obtain ⟨enough, a', hreturns, -⟩ := hall (loopback 1 Nat.one_pos) ⟨⟨fun _ => 0x51, 1⟩, []⟩
    (echoes_loopback _) (by decide) rfl
  obtain ⟨tr, hr, -⟩ := hreturns enough (le_refl enough)
  have hwhole := whole_of_bitbangSendRecv (echoes_loopback _) (by decide) rfl hr
  cases hwhole with
  | packet more takes read whole rest =>
    rename_i reply s₁
    have hbytes : (samples (⟨fun _ => 0x51, 1⟩ : Bitbang)).take fifoSize = [0x51, 0x5A] := rfl
    have hwaits := congrArg Prod.snd (takes.view_eq (echoes_loopback _))
    rw [hbytes, echo_loopback] at hwaits
    obtain rfl : s₁ = [0x51, 0x5A] := hwaits
    rw [hbytes] at read whole
    obtain rfl := Option.some.inj read
    exact absurd whole (by decide)

end Mcprog
