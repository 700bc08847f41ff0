import Mcprog.Library.Buffers
import Mcprog.Oncd.Registers

/-!
# The receiver of packets

`rp_getpkt` reads the connection character by character. A variable of ten states says
where in a packet it is; the others carry what it has read of the packet. The states stand
here in the order of their numbers, from 0 to 9.
-/

namespace Mcprog

open Cells

/-- `RP_PARAM_DATABYTES_MAX`. -/
def dataBytesMax : Nat := 0x10000

/-- `RP_PARAM_INOUTBUF_SIZE`. -/
def inOutBufSize : Nat := 2 * dataBytesMax + 32

/-- `rp_hex_nibble`, which answers -1 where there is none. -/
def rpHexNibble (c : Byte) : Option Byte :=
  if ascii '0' ≤ c ∧ c ≤ ascii '9' then some (c - ascii '0')
  else if ascii 'A' ≤ c ∧ c ≤ ascii 'F' then some (c - ascii 'A' + 10)
  else if ascii 'a' ≤ c ∧ c ≤ ascii 'f' then some (c - ascii 'a' + 10)
  else none

/-- `hex[n & 0xf]`. -/
def hexChar (n : Byte) : Byte :=
  if n &&& 0xF < 10 then ascii '0' + (n &&& 0xF) else ascii 'a' + ((n &&& 0xF) - 10)

/-- Where in a packet the receiver is. -/
inductive ReceiverState
  | start
  | seq1
  | seq2
  | seqEnd
  | fourth
  | text
  | binaryHead
  | binary
  | csum1
  | csum2
  deriving DecidableEq, Repr

/-- The variables of `rp_getpkt`. -/
structure Receiver where
  state : ReceiverState
  seq : Byte × Byte
  seqValid : Bool
  rxCsum : Byte
  calcCsum : Byte
  pktLen : Nat
  escFound : Bool
  /-- What is left of `buf_len`. -/
  bufLen : Nat
  buf : Buffer Byte

/-- What `rp_getpkt` returns. -/
inductive Received
  | packet (len : Nat)
  | timeout
  | interrupt
  | ack
  | nak
  | error
  deriving DecidableEq, Repr

/-- What a character makes of the receiver: it goes on, or it returns after it has sent
some characters. -/
inductive Progress
  | next (r : Receiver)
  | done (ret : Received) (r : Receiver) (sent : List Byte)

namespace Receiver

/-- At the start of a call, with a buffer of `bufLen` bytes. -/
def fresh (bufLen : Nat) (buf : Buffer Byte) : Receiver :=
  { state := .start, seq := (0, 0), seqValid := false, rxCsum := 0, calcCsum := 0, pktLen := 0,
    escFound := false, bufLen, buf }

/-- At the start of a packet. -/
def restart (r : Receiver) : Receiver :=
  { r with state := .seq1, seq := (0, 0), seqValid := false, rxCsum := 0, calcCsum := 0, pktLen := 0 }

/-- `buf[pkt_len++] = c`. -/
def put (r : Receiver) (c : Byte) : Receiver :=
  { r with buf := r.buf.set r.pktLen c, pktLen := r.pktLen + 1 }

/-- `rx_csum += c`. -/
def add (r : Receiver) (c : Byte) : Receiver := { r with rxCsum := r.rxCsum + c }

/-- Store a character, and add it up. -/
def store (r : Receiver) (c : Byte) : Receiver := (r.put c).add c

/-- Store the two digits of a byte. -/
def putHex (r : Receiver) (c : Byte) : Receiver := (r.put (hexChar (c >>> 4))).put (hexChar c)

/-- `buf_len--` of a `size_t`. -/
def reserve (r : Receiver) : Receiver := { r with bufLen := (r.bufLen + (2 ^ 64 - 1)) % 2 ^ 64 }

/-- The switch over the states. -/
def receive (r : Receiver) (c : Byte) : Progress :=
  match r.state with
  | .start =>
    if c = ascii '$' then .next r.restart
    else if c = 3 then .done .interrupt r []
    else if c = ascii '+' then .done .ack r []
    else if c = ascii '-' then .done .nak r []
    else .next r
  | .seq1 =>
    if c = ascii '#' then .next { r with state := .csum1 }
    else .next { r.store c with state := .seq2 }
  | .seq2 =>
    if c = ascii '#' then .next { r with state := .csum1 }
    else .next { r.store c with state := .seqEnd }
  | .seqEnd =>
    if c = ascii '#' then .next { r with state := .csum1 }
    else if c = ascii ':' then
      .next { r with seq := (r.buf.get 0, r.buf.get 1), seqValid := true, pktLen := 0, state := .fourth }
    else .next { r.store c with state := .fourth }
  | .fourth =>
    if c = ascii '#' then .next { r with state := .csum1 }
    else if (r.store c).buf.get 0 = ascii 'X' then
      .next { (r.store c).reserve with
        buf := (r.store c).buf.set 0 (ascii 'M'), escFound := false, state := .binaryHead }
    else .next { r.store c with state := .text }
  | .text =>
    if c = ascii '#' then .next { r with state := .csum1 }
    else if r.pktLen ≥ r.bufLen then .next r
    else .next (r.store c)
  | .binaryHead =>
    if c = ascii ':' then .next { r.store c with state := .binary } else .next (r.store c)
  | .binary =>
    if r.pktLen ≥ r.bufLen then .next r
    else if r.escFound then .next ({ r.add c with escFound := false }.putHex (c ^^^ 0x20))
    else if c = ascii '}' then .next { r.add c with escFound := true }
    else if c = ascii '#' then .next { r with state := .csum1 }
    else .next ((r.add c).putHex c)
  | .csum1 =>
    match rpHexNibble c with
    | none => .next { r with state := .start }
    | some nib => .next { r with calcCsum := (r.calcCsum <<< 4) ||| nib, state := .csum2 }
  | .csum2 =>
    match rpHexNibble c with
    | none => .next { r with state := .start }
    | some nib =>
      if r.rxCsum = (r.calcCsum <<< 4) ||| nib then
        .done (.packet r.pktLen) { r with buf := r.buf.set r.pktLen 0 }
          (ascii '+' :: if r.seqValid then [r.seq.1, r.seq.2] else [])
      else .next { r with calcCsum := (r.calcCsum <<< 4) ||| nib, state := .start }

/-- Receive a character. The marker of a new packet in the middle of one is seen by the
switch as well. -/
def step (r : Receiver) (c : Byte) : Progress :=
  if c = ascii '$' ∧ r.state ≠ .start then r.restart.receive c else r.receive c

/-- The receiver after some characters, where it has not returned. -/
def run (r : Receiver) : List Byte → Option Receiver
  | [] => some r
  | c :: cs =>
    match r.step c with
    | .next r' => run r' cs
    | .done _ _ _ => none

end Receiver

/-- What a read of the connection finds: a character, or none yet. After the last of them
the connection is closed. -/
abbrev Arrival : Type := Option Byte

/-- The end of a call of `rp_getpkt`. -/
structure Getpkt where
  ret : Received
  /-- What it leaves of the buffer. -/
  buf : Buffer Byte
  sent : List Byte
  /-- What arrives afterwards. -/
  rest : List Arrival

/-- The text of the packet that has come, or nothing. -/
def Getpkt.inBuf (o : Getpkt) : List Byte :=
  match o.ret with
  | .packet len => (List.range len).map o.buf.get
  | _ => []

/-- The loop of `rp_getpkt`. Only the read before a packet has a timeout. -/
def getpktFrom (blocking : Bool) : Receiver → List Arrival → Getpkt
  | r, [] => ⟨.error, r.buf, [], []⟩
  | r, none :: input =>
    if blocking ∨ r.state ≠ .start then getpktFrom blocking r input
    else ⟨.timeout, r.buf, [], input⟩
  | r, some c :: input =>
    match r.step c with
    | .next r' => getpktFrom blocking r' input
    | .done ret r' sent => ⟨ret, r'.buf, sent, input⟩

/-- `rp_getpkt`, with a timeout or blocking. -/
def rpGetpkt (blocking : Bool) (bufLen : Nat) (buf : Buffer Byte) (input : List Arrival) : Getpkt :=
  getpktFrom blocking (.fresh bufLen buf) input

namespace Receiver

variable {r r' : Receiver} {c : Byte} {u v : List Byte}

theorem run_cons_next (h : r.step c = .next r') (u : List Byte) : r.run (c :: u) = r'.run u := by
  rw [run, h]

theorem run_append (h : r.run u = some r') (v : List Byte) : r.run (u ++ v) = r'.run v := by
  induction u generalizing r with
  | nil =>
    rw [Option.some.inj h]
    rfl
  | cons c u ih =>
    rw [run] at h
    rw [List.cons_append, run]
    cases hstep : r.step c with
    | next r'' =>
      rw [hstep] at h
      exact ih h
    | done ret r'' sent =>
      rw [hstep] at h
      exact absurd h (by simp)

/-- A call goes on from the receiver after the characters that it has read. -/
theorem getpktFrom_run (blocking : Bool) (h : r.run u = some r') (input : List Arrival) :
    getpktFrom blocking r (u.map some ++ input) = getpktFrom blocking r' input := by
  induction u generalizing r with
  | nil =>
    rw [Option.some.inj h]
    rfl
  | cons c u ih =>
    rw [run] at h
    rw [List.map_cons, List.cons_append, getpktFrom]
    cases hstep : r.step c with
    | next r'' =>
      rw [hstep] at h
      exact ih h
    | done ret r'' sent =>
      rw [hstep] at h
      exact absurd h (by simp)

/-- A character without a special meaning is seen by the switch as it comes. -/
theorem step_of_ne (h : c ≠ ascii '$') : r.step c = r.receive c := if_neg fun hc => h hc.1

theorem step_of_start (h : r.state = .start) : r.step c = r.receive c :=
  if_neg fun hc => hc.2 h

end Receiver

/-- A call that does not fail has read something. -/
theorem getpktFrom_rest (blocking : Bool) (r : Receiver) (input : List Arrival) :
    (getpktFrom blocking r input).ret = .error ∧ (getpktFrom blocking r input).rest = [] ∨
      (getpktFrom blocking r input).rest.length < input.length := by
  induction input generalizing r with
  | nil => exact .inl ⟨rfl, rfl⟩
  | cons a input ih =>
    rw [List.length_cons]
    cases a with
    | none =>
      rw [getpktFrom]
      split
      · exact (ih r).imp_right fun h => by omega
      · exact .inr (by dsimp only; omega)
    | some c =>
      rw [getpktFrom]
      cases hstep : r.step c with
      | next r' =>
        dsimp only
        exact (ih r').imp_right fun h => by omega
      | done ret r' sent => exact .inr (by dsimp only; omega)

end Mcprog
