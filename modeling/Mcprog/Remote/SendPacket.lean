import Mcprog.Library.Program
import Mcprog.Remote.Frames

/-!
# Sending a packet

`rp_putpkt` first reads whatever has arrived, until a read finds nothing in time, and then
sends the packet until it is acknowledged. Both loops go around `rp_getpkt`. The second one
ends on a closed connection, the first one does not.
-/

namespace Mcprog

open Interaction Cells

/-- A string in one of the buffers of the proxy. -/
structure Reply where
  text : List Byte
  nonzero : 0 ∉ text
  fits : text.length < inOutBufSize

/-- The bytes that `rp_putpkt` sends for a string. -/
def rpPacket (reply : Reply) : List Byte :=
  frame reply.text (hexChar (reply.text.sum >>> 4)) (hexChar reply.text.sum)

/-- Why a run of the proxy ends before its time. -/
inductive ProxyFatal
  /-- An assertion failed. -/
  | assertion
  /-- `exit (status)`. -/
  | exit (status : Int)
  /-- The fuel of a loop without a bound is used up. -/
  | fuel
  deriving DecidableEq, Repr

/-- The connection to the debugger. -/
structure Link where
  input : List Arrival
  /-- Whether the next writes succeed. Those after the last of them fail. -/
  writes : List Bool

/-- What is done with the connection. -/
inductive WireEvent
  /-- A call of `rp_getpkt` has sent some characters and returned. -/
  | received (sent : List Byte) (ret : Received)
  /-- A call of `dbg_sock_write`. -/
  | write (data : List Byte) (ok : Bool)
  deriving DecidableEq, Repr

/-- A part of the proxy that talks to the debugger only. -/
abbrev Wire (α : Type) : Type := Program WireEvent Link ProxyFatal α

/-- `rp_getpkt` on the connection. -/
def getpkt (blocking : Bool) (buf : Buffer Byte) : Wire Getpkt :=
  Program.request (fun link =>
    let o := rpGetpkt blocking inOutBufSize buf link.input
    .ok (o, { link with input := o.rest })) fun o => .received o.sent o.ret

/-- `dbg_sock_write`. -/
def dbgSockWrite (data : List Byte) : Wire Bool :=
  Program.request (fun link => .ok (link.writes.headD false, { link with writes := link.writes.tail }))
    fun ok => .write data ok

/-- Read any packets that have arrived. -/
def flushInput : Nat → Buffer Byte → Wire (Buffer Byte)
  | 0, _ => Program.stop .fuel
  | fuel + 1, buf => do
    let o ← getpkt false buf
    if o.ret = .timeout then return o.buf else flushInput fuel o.buf

/-- Send a packet over and over until it is acknowledged. -/
def sendUntilAck (packet : List Byte) : Nat → Buffer Byte → Wire Bool
  | 0, _ => Program.stop .fuel
  | fuel + 1, buf => do
    if ← dbgSockWrite packet then
      let o ← getpkt true buf
      if o.ret = .error then return false
      else if o.ret = .ack then return true
      else sendUntilAck packet fuel o.buf
    else
      return false

/-- `rp_putpkt`. The fuel bounds the rounds of each of its loops. -/
def rpPutpkt (fuel : Nat) (buf : Buffer Byte) (reply : Reply) : Wire Bool := do
  let buf ← flushInput fuel buf
  sendUntilAck (rpPacket reply) fuel buf

/-- A read of the connection finds nothing while the receiver waits for a packet. -/
def PausesBetween : Receiver → List Arrival → Prop
  | _, [] => False
  | r, none :: input => r.state = .start ∨ PausesBetween r input
  | r, some c :: input =>
    match r.step c with
    | .next r' => PausesBetween r' input
    | .done _ r' _ => PausesBetween (.fresh inOutBufSize r'.buf) input

/-- A call of `rp_putpkt` ends, and returns true only where an ACK was read. -/
def PutpktEnds (buf : Buffer Byte) (reply : Reply) (link : Link) : Prop :=
  ∃ fuel acked tr link', (rpPutpkt fuel buf reply).Returns link acked tr link' ∧
    (acked = true → ∃ sent, .received sent .ack ∈ tr)

section Receiver

variable {r : Receiver} {input : List Arrival}

/-- No character makes the receiver return a timeout or an error. -/
theorem Receiver.receive_done {c : Byte} {ret : Received} {r' : Receiver} {sent : List Byte}
    (h : r.receive c = .done ret r' sent) : ret ≠ .timeout ∧ ret ≠ .error := by
  unfold Receiver.receive at h
  cases hstate : r.state with
  | start =>
    rw [hstate] at h
    dsimp only at h
    split_ifs at h <;> cases h <;> exact ⟨by decide, by decide⟩
  | csum1 =>
    rw [hstate] at h
    dsimp only at h
    split at h <;> cases h
  | csum2 =>
    rw [hstate] at h
    dsimp only at h
    split at h
    · cases h
    · split_ifs at h
      all_goals
        cases h
        exact ⟨nofun, nofun⟩
  | _ =>
    rw [hstate] at h
    dsimp only at h
    split_ifs at h

theorem Receiver.step_done {c : Byte} {ret : Received} {r' : Receiver} {sent : List Byte}
    (h : r.step c = .done ret r' sent) : ret ≠ .timeout ∧ ret ≠ .error := by
  unfold Receiver.step at h
  split_ifs at h
  · exact receive_done h
  · exact receive_done h

/-- A pause is found by the call itself, or in what the call leaves. -/
theorem pausesBetween_iff (r : Receiver) (input : List Arrival) : PausesBetween r input ↔
    (getpktFrom false r input).ret = .timeout ∨
      PausesBetween (.fresh inOutBufSize (getpktFrom false r input).buf)
        (getpktFrom false r input).rest := by
  induction input generalizing r with
  | nil => simp [PausesBetween, getpktFrom]
  | cons a input ih =>
    cases a with
    | none =>
      rw [PausesBetween, getpktFrom]
      by_cases hstate : r.state = .start
      · rw [if_neg (by simp [hstate])]
        exact iff_of_true (.inl hstate) (.inl rfl)
      · rw [if_pos (.inr hstate), ← ih r]
        exact or_iff_right hstate
    | some c =>
      rw [PausesBetween, getpktFrom]
      cases hstep : r.step c with
      | next r' => exact ih r'
      | done ret r' sent =>
        have hret : ret ≠ .timeout := (Receiver.step_done hstep).1
        exact (or_iff_right hret).symm

end Receiver

variable {buf : Buffer Byte} {packet : List Byte} {link : Link}

theorem getpkt_reaches (blocking : Bool) (buf : Buffer Byte) (link : Link) :
    ∃ o, o = rpGetpkt blocking inOutBufSize buf link.input ∧
      (getpkt blocking buf).Reaches link o { link with input := o.rest } ∧
      (o.ret = .error ∧ o.rest = [] ∨ o.rest.length < link.input.length) :=
  ⟨_, rfl, Program.reaches_request rfl, getpktFrom_rest blocking _ _⟩

/-- Where there is a pause the first loop ends at one. -/
theorem flushInput_reaches {fuel : Nat} (buf : Buffer Byte) (link : Link)
    (hpause : PausesBetween (.fresh inOutBufSize buf) link.input) (hfuel : link.input.length ≤ fuel) :
    ∃ buf' link', (flushInput fuel buf).Reaches link buf' link' ∧
      link'.input.length ≤ link.input.length := by
  induction fuel generalizing buf link with
  | zero =>
    rw [List.length_eq_zero_iff.mp (Nat.le_zero.mp hfuel)] at hpause
    exact absurd hpause (by simp [PausesBetween])
  | succ fuel ih =>
    obtain ⟨o, ho, hcall, hrest⟩ := getpkt_reaches false buf link
    have hsplit := (pausesBetween_iff _ _).mp hpause
    change (rpGetpkt _ _ _ _).ret = _ ∨ PausesBetween (.fresh _ (rpGetpkt _ _ _ _).buf)
      (rpGetpkt _ _ _ _).rest at hsplit
    rw [← ho] at hsplit
    rcases hrest with ⟨herror, hnil⟩ | hlt
    · rw [herror, hnil] at hsplit
      simp [PausesBetween] at hsplit
    · by_cases htimeout : o.ret = .timeout
      · have hdone : (flushInput (fuel + 1) buf).Reaches link o.buf { link with input := o.rest } := by
          apply hcall.bind
          rw [if_pos htimeout]
          exact Program.reaches_pure _ _
        exact ⟨_, _, hdone, hlt.le⟩
      · obtain ⟨buf', link', hreaches, hle⟩ := ih o.buf { link with input := o.rest }
          (hsplit.resolve_left htimeout) (by dsimp only; omega)
        have hnext : (flushInput (fuel + 1) buf).Reaches link buf' link' := by
          apply hcall.bind
          rw [if_neg htimeout]
          exact hreaches
        exact ⟨buf', link', hnext, le_trans hle hlt.le⟩

/-- Without a pause the first loop does not end. -/
theorem flushInput_not_returns {fuel : Nat}
    (hpause : ¬ PausesBetween (.fresh inOutBufSize buf) link.input) {buf' : Buffer Byte}
    {tr : List WireEvent} {link' : Link} : ¬ (flushInput fuel buf).Returns link buf' tr link' := by
  induction fuel generalizing buf link tr with
  | zero => exact Program.not_returns_stop
  | succ fuel ih =>
    intro h
    obtain ⟨o, tr₁, link₁, tr₂, h₁, h₂, -⟩ := Program.returns_bind_iff.mp h
    obtain ⟨o', ho, hcall, -⟩ := getpkt_reaches false buf link
    obtain ⟨rfl, rfl⟩ := h₁.reaches.unique hcall
    rw [pausesBetween_iff, not_or] at hpause
    change ¬ (rpGetpkt _ _ _ _).ret = _ ∧ ¬ PausesBetween (.fresh _ (rpGetpkt _ _ _ _).buf)
      (rpGetpkt _ _ _ _).rest at hpause
    rw [← ho] at hpause
    rw [if_neg hpause.1] at h₂
    exact ih hpause.2 h₂

/-- The second loop ends. -/
theorem sendUntilAck_reaches {fuel : Nat} (packet : List Byte) (buf : Buffer Byte) (link : Link)
    (hfuel : link.input.length < fuel) :
    ∃ acked link', (sendUntilAck packet fuel buf).Reaches link acked link' := by
  induction fuel generalizing buf link with
  | zero => exact absurd hfuel (Nat.not_lt_zero _)
  | succ fuel ih =>
    have hwrite : (dbgSockWrite packet).Reaches link (link.writes.headD false)
        { link with writes := link.writes.tail } := Program.reaches_request rfl
    cases hok : link.writes.headD false with
    | false =>
      rw [hok] at hwrite
      exact ⟨_, _, hwrite.bind (Program.reaches_pure false _)⟩
    | true =>
      rw [hok] at hwrite
      obtain ⟨o, -, hcall, hrest⟩ := getpkt_reaches true buf { link with writes := link.writes.tail }
      have hgoes : (sendUntilAck packet (fuel + 1) buf).Continues link
          (if o.ret = .error then pure false
            else if o.ret = .ack then pure true
            else sendUntilAck packet fuel o.buf)
          { link with writes := link.writes.tail, input := o.rest } :=
        hwrite.continues.trans hcall.continues
      by_cases herror : o.ret = .error
      · rw [if_pos herror] at hgoes
        exact ⟨_, _, hgoes.reaches_iff.mpr (Program.reaches_pure _ _)⟩
      · rw [if_neg herror] at hgoes
        by_cases hack : o.ret = .ack
        · rw [if_pos hack] at hgoes
          exact ⟨_, _, hgoes.reaches_iff.mpr (Program.reaches_pure _ _)⟩
        · rw [if_neg hack] at hgoes
          have hlt := hrest.resolve_left fun h => herror h.1
          dsimp only at hlt
          obtain ⟨acked, link', hreaches⟩ := ih o.buf
            { link with writes := link.writes.tail, input := o.rest } (by dsimp only; omega)
          exact ⟨acked, link', hgoes.reaches_iff.mpr hreaches⟩

/-- The second loop returns true only after an ACK. -/
theorem sendUntilAck_acked {fuel : Nat} {tr : List WireEvent} {link' : Link}
    (h : (sendUntilAck packet fuel buf).Returns link true tr link') :
    ∃ sent, .received sent .ack ∈ tr := by
  induction fuel generalizing buf link tr with
  | zero => exact absurd h Program.not_returns_stop
  | succ fuel ih =>
    obtain ⟨ok, tr₁, link₁, tr₂, -, h₂, rfl⟩ := Program.returns_bind_iff.mp h
    cases ok with
    | false => exact absurd (Program.returns_pure_iff.mp h₂).1 (by decide)
    | true =>
      obtain ⟨o, tr₃, link₂, tr₄, h₃, h₄, rfl⟩ := Program.returns_bind_iff.mp h₂
      by_cases herror : o.ret = .error
      · rw [if_pos herror] at h₄
        exact absurd (Program.returns_pure_iff.mp h₄).1 (by decide)
      · rw [if_neg herror] at h₄
        by_cases hack : o.ret = .ack
        · refine ⟨o.sent, List.mem_append_right _ (List.mem_append_left _ ?_)⟩
          rw [(Program.returns_request_iff.mp h₃).2, hack]
          exact List.mem_singleton_self _
        · rw [if_neg hack] at h₄
          obtain ⟨sent, hmem⟩ := ih h₄
          exact ⟨sent, List.mem_append_right _ (List.mem_append_right _ hmem)⟩

/-- Without a pause between packets `rp_putpkt` does not end. -/
theorem rpPutpkt_not_returns (hpause : ¬ PausesBetween (.fresh inOutBufSize buf) link.input)
    {fuel : Nat} {reply : Reply} {acked : Bool} {tr : List WireEvent} {link' : Link} :
    ¬ (rpPutpkt fuel buf reply).Returns link acked tr link' := by
  intro h
  obtain ⟨buf', tr₁, link₁, tr₂, h₁, -, -⟩ := Program.returns_bind_iff.mp h
  exact flushInput_not_returns hpause h₁

/-- `rp_putpkt` ends exactly if a read finds nothing between two packets, before the
connection is closed. -/
theorem rpPutpkt_ends_iff (buf : Buffer Byte) (reply : Reply) (link : Link) :
    PutpktEnds buf reply link ↔ PausesBetween (.fresh inOutBufSize buf) link.input := by
  constructor
  · rintro ⟨fuel, acked, tr, link', h, -⟩
    by_contra hpause
    exact rpPutpkt_not_returns hpause h
  · intro hpause
    have hfuel := Nat.le_succ link.input.length
    obtain ⟨buf', link₁, hflush, hle⟩ := flushInput_reaches buf link hpause hfuel
    obtain ⟨acked, link', tr₂, hsend⟩ := sendUntilAck_reaches (rpPacket reply) buf' link₁
      (Nat.lt_succ_of_le hle)
    obtain ⟨tr₁, hflush⟩ := hflush
    refine ⟨link.input.length + 1, acked, tr₁ ++ tr₂, link', hflush.bind hsend, ?_⟩
    rintro rfl
    obtain ⟨sent, hmem⟩ := sendUntilAck_acked hsend
    exact ⟨sent, List.mem_append_right _ hmem⟩

/-- On a connection that is closed at once `rp_putpkt` does not end. -/
theorem rpPutpkt_closed : ¬ PutpktEnds ⟨fun _ => 0, []⟩ ⟨[], by simp, by decide⟩ ⟨[], []⟩ := by
  rintro ⟨fuel, acked, tr, link', h, -⟩
  exact rpPutpkt_not_returns (by simp [PausesBetween]) h

end Mcprog
