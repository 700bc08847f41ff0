import Mcprog.Library.Program
import Mcprog.Remote.Decode

/-!
# Writing memory, in text and in binary

A packet `M` carries the bytes to write as digits, a packet `X` carries them as they are,
save for escapes. The receiver rewrites the latter into the text of the former while the
packet comes in, so that one handler serves both.
-/

namespace Mcprog

open Cells Interaction

section Handler

variable {ε σ τ : Type}

/-- `handle_write_memory_command`, for the method `write_mem` of a target. -/
def handleWriteMemoryCommand (writeMem : BitVec 64 → List Byte → Program ε σ τ RetVal)
    (inBuf : List Byte) : Program ε σ τ (List Byte) :=
  if ascii ':' ∈ inBuf.tail then
    match rpDecodeMem (inBuf.tail.takeWhile (· ≠ ascii ':')) with
    | none => return rpWriteRetval .err
    | some (addr, len) =>
      if len.toNat > dataBytesMax then return rpWriteRetval .err
      else
        match rpDecodeData (inBuf.tail.dropWhile (· ≠ ascii ':')).tail dataBytesMax with
        | none => return rpWriteRetval .err
        | some data =>
          if len.toNat ≠ data.length then return rpWriteRetval .err
          else do
            let ret ← writeMem addr data
            return rpWriteRetval ret
  else return rpWriteRetval .err

end Handler

/-- What comes before the data. -/
def writeHead (kind : Byte) (addr : BitVec 64) (len : Nat) : List Byte :=
  kind :: (hexNumber addr.toNat ++ ascii ',' :: hexNumber len) ++ [ascii ':']

/-- The text of a packet `M`. -/
def writeText (addr : BitVec 64) (data : List Byte) : List Byte :=
  writeHead (ascii 'M') addr data.length ++ byteDigits data

/-- The text of a packet `X`, with the data escaped. -/
def binaryText (addr : BitVec 64) (len : Nat) (escaped : List Byte) : List Byte :=
  writeHead (ascii 'X') addr len ++ escaped

/-- The ways to escape some bytes: the markers and the escape itself have to be escaped, the
other bytes may be. -/
inductive Escapes : List Byte → List Byte → Prop
  | nil : Escapes [] []
  | plain {data escaped : List Byte} (b : Byte) (h : b ∉ [ascii '$', ascii '#', ascii '}'])
    (rest : Escapes data escaped) : Escapes (b :: data) (b :: escaped)
  | escape {data escaped : List Byte} (b : Byte) (rest : Escapes data escaped) :
    Escapes (b :: data) (ascii '}' :: (b ^^^ 0x20) :: escaped)

/-- The fields before the data. -/
theorem fields_notMem (addr : BitVec 64) (len : Nat) {c : Byte}
    (h : c ∈ hexNumber addr.toNat ++ ascii ',' :: hexNumber len) :
    c ∉ [ascii '$', ascii '#', ascii ':'] := by
  rcases List.mem_append.mp h with h | h
  · obtain ⟨b, rfl⟩ := exists_of_mem_hexNumber h
    exact hexChar_notMem b
  · rcases List.mem_cons.mp h with rfl | h
    · decide
    · obtain ⟨b, rfl⟩ := exists_of_mem_hexNumber h
      exact hexChar_notMem b

/-- There are at least three characters in the fields. -/
theorem exists_fields (addr : BitVec 64) (len : Nat) : ∃ c₁ c₂ c₃ cs,
    hexNumber addr.toNat ++ ascii ',' :: hexNumber len = c₁ :: c₂ :: c₃ :: cs := by
  obtain ⟨a, as, ha⟩ := List.exists_cons_of_ne_nil (hexNumber_ne_nil addr.toNat)
  obtain ⟨n, ns, hn⟩ := List.exists_cons_of_ne_nil (hexNumber_ne_nil len)
  rw [ha, hn]
  match as with
  | [] => exact ⟨_, _, _, _, rfl⟩
  | [b] => exact ⟨_, _, _, _, rfl⟩
  | b :: c :: bs => exact ⟨_, _, _, _, rfl⟩

/-- The packet `M` is a plain text. -/
theorem plain_writeText (addr : BitVec 64) (data : List Byte) : Plain (writeText addr data) := by
  obtain ⟨c₁, c₂, c₃, cs, hfields⟩ := exists_fields addr data.length
  have hmark : [ascii '$', ascii '#'] ⊆ [ascii '$', ascii '#', ascii ':'] := by decide
  have hmem : ∀ c ∈ writeText addr data, c ∉ [ascii '$', ascii '#'] := by
    intro c hc
    rcases List.mem_append.mp hc with hc | hc
    · rcases List.mem_append.mp hc with hc | hc
      · rcases List.mem_cons.mp hc with rfl | hc
        · decide
        · exact fun h => fields_notMem addr data.length hc (hmark h)
      · rw [List.mem_singleton.mp hc]
        decide
    · obtain ⟨b, rfl⟩ := exists_of_mem_byteDigits hc
      exact fun h => hexChar_notMem b (hmark h)
  refine ⟨fun h => hmem _ h (by decide), fun h => hmem _ h (by decide), ?_, ?_⟩
  · rw [writeText, writeHead, List.cons_append, List.cons_append, List.getElem?_cons_zero]
    decide
  · have hc₂ : c₂ ∉ _ := fields_notMem addr data.length (by rw [hfields]; simp)
    rw [writeText, writeHead, hfields]
    intro h
    rw [Option.some.inj h] at hc₂
    exact hc₂ (by decide)

/-- The receiver has read some characters of a packet and has stored a text for them. -/
structure Translated (r : Receiver) (state : ReceiverState) (room : Nat) (raw text : List Byte) :
    Prop where
  state : r.state = state
  pktLen : r.pktLen = text.length
  rxCsum : r.rxCsum = raw.sum
  calcCsum : r.calcCsum = 0
  seqValid : r.seqValid = false
  bufLen : r.bufLen = room
  buf : ∀ i b, text[i]? = some b → r.buf.get i = b

namespace Translated

variable {r : Receiver} {state : ReceiverState} {room : Nat} {raw text : List Byte}

/-- One more character in the buffer. -/
theorem put (h : Translated r state room raw text) (c : Byte) :
    Translated (r.put c) state room raw (text ++ [c]) where
  state := h.state
  pktLen := by
    change r.pktLen + 1 = _
    rw [h.pktLen, List.length_append, List.length_singleton]
  rxCsum := h.rxCsum
  calcCsum := h.calcCsum
  seqValid := h.seqValid
  bufLen := h.bufLen
  buf i b hb := by
    change (r.buf.set r.pktLen c).get i = b
    rw [h.pktLen]
    exact r.buf.get_set_concat c h.buf hb

/-- One more character in the sum. -/
theorem add (h : Translated r state room raw text) (c : Byte) :
    Translated (r.add c) state room (raw ++ [c]) text :=
  { h with
    rxCsum := by
      change r.rxCsum + c = _
      rw [h.rxCsum, List.sum_append, List.sum_singleton] }

/-- One more character in both. -/
theorem store (h : Translated r state room raw text) (c : Byte) (state' : ReceiverState) :
    Translated { r.store c with state := state' } state' room (raw ++ [c]) (text ++ [c]) :=
  { (h.put c).add c with state := rfl }

/-- A step that stores a character. -/
theorem step_store (h : Translated r state room raw text) (c : Byte) (state' : ReceiverState)
    (hstep : r.step c = .next { r.store c with state := state' }) : ∃ r', r.step c = .next r' ∧
      r'.escFound = r.escFound ∧ Translated r' state' room (raw ++ [c]) (text ++ [c]) :=
  ⟨_, hstep, rfl, h.store c state'⟩

/-- The digits of a byte in the buffer. -/
theorem putHex (h : Translated r state room raw text) (b : Byte) :
    Translated (r.putHex b) state room raw (text ++ byteDigits [b]) := by
  have hput := (h.put (hexChar (b >>> 4))).put (hexChar b)
  rwa [List.append_assoc] at hput

theorem withEsc (h : Translated r state room raw text) (esc : Bool) :
    Translated { r with escFound := esc } state room raw text := { h with }

/-- The packet is renamed, and the buffer has one byte less. -/
theorem rename (h : Translated r state room raw (ascii 'X' :: text)) (hpos : 0 < room)
    (hlt : room < 2 ^ 64) :
    Translated
      { r.reserve with buf := r.buf.set 0 (ascii 'M'), escFound := false, state := .binaryHead }
      .binaryHead (room - 1) raw (ascii 'M' :: text) := by
  have hroom : (r.bufLen + (2 ^ 64 - 1)) % 2 ^ 64 = room - 1 := by
    rw [h.bufLen]
    omega
  have hlen : r.pktLen = text.length + 1 := by
    rw [h.pktLen, List.length_cons]
  unfold Receiver.reserve
  refine ⟨rfl, hlen, h.rxCsum, h.calcCsum, h.seqValid, hroom, fun i b hb => ?_⟩
  cases i with
  | zero => exact (Buffer.get_set_self _ _ _).trans (Option.some.inj hb)
  | succ i =>
    exact (Buffer.get_set_of_ne _ _ (Nat.succ_ne_zero i)).trans (h.buf (i + 1) b hb)

/-- The fields of the packet are stored as they come. -/
theorem run_fields (h : Translated r .binaryHead room raw text) (cs : List Byte)
    (hcs : ∀ c ∈ cs, c ∉ [ascii '$', ascii '#', ascii ':']) : ∃ r', r.run cs = some r' ∧
      r'.escFound = r.escFound ∧ Translated r' .binaryHead room (raw ++ cs) (text ++ cs) := by
  induction cs generalizing r raw text with
  | nil =>
    rw [List.append_nil, List.append_nil]
    exact ⟨r, rfl, rfl, h⟩
  | cons c cs ih =>
    have hc := hcs c List.mem_cons_self
    have hstart : c ≠ ascii '$' := fun he => hc (by rw [he]; decide)
    have hcolon : c ≠ ascii ':' := fun he => hc (by rw [he]; decide)
    have hsame : r.store c = { r.store c with state := .binaryHead } := by
      rw [← h.state]
      rfl
    have hstep : r.step c = .next { r.store c with state := .binaryHead } := by
      rw [Receiver.step_of_ne hstart, Receiver.receive, h.state, ← hsame]
      exact if_neg hcolon
    obtain ⟨r₁, hnext, hesc₁, h₁⟩ := h.step_store c .binaryHead hstep
    obtain ⟨r', hrun, hesc, hr'⟩ := ih h₁ (fun c hc => hcs c (List.mem_cons_of_mem _ hc))
    rw [Receiver.run_cons_next hnext, List.append_cons raw, List.append_cons text]
    exact ⟨r', hrun, hesc.trans hesc₁, hr'⟩

/-- A character of the data, where the buffer has space for it. -/
theorem step_data (h : Translated r .binary room raw text) (hfit : text.length < room) {c : Byte}
    (hstart : c ≠ ascii '$') : r.step c =
      if r.escFound then .next ({ r.add c with escFound := false }.putHex (c ^^^ 0x20))
      else if c = ascii '}' then .next { r.add c with escFound := true }
      else if c = ascii '#' then .next { r with state := .csum1 }
      else .next ((r.add c).putHex c) := by
  have hroom : ¬ r.pktLen ≥ r.bufLen := by
    rw [h.pktLen, h.bufLen]
    omega
  rw [Receiver.step_of_ne hstart, Receiver.receive, h.state]
  exact if_neg hroom

/-- Escaped bytes are stored as their digits, as far as the buffer goes. -/
theorem run_escapes {data escaped : List Byte} (hesc : Escapes data escaped)
    (hmark : ascii '$' ∉ escaped) (h : Translated r .binary room raw text)
    (hr : r.escFound = false) (hfit : (text ++ byteDigits data).length < room) :
    ∃ r', r.run escaped = some r' ∧ r'.escFound = false ∧
      Translated r' .binary room (raw ++ escaped) (text ++ byteDigits data) := by
  have hbytes : ∀ (text : List Byte) b data,
      text ++ byteDigits [b] ++ byteDigits data = text ++ byteDigits (b :: data) := by
    intro text b data
    rw [List.append_assoc]
    rfl
  induction hesc generalizing r raw text with
  | nil =>
    rw [List.append_nil, byteDigits_nil, List.append_nil]
    exact ⟨r, rfl, hr, h⟩
  | @plain data escaped b hb rest ih =>
    have hroom : text.length < room := by
      rw [List.length_append] at hfit
      omega
    have hstart : b ≠ ascii '$' := fun he => hb (by rw [he]; decide)
    have hend : b ≠ ascii '#' := fun he => hb (by rw [he]; decide)
    have hescape : b ≠ ascii '}' := fun he => hb (by rw [he]; decide)
    have hstep : r.step b = .next ((r.add b).putHex b) := by
      rw [h.step_data hroom hstart, hr, if_neg Bool.false_ne_true, if_neg hescape, if_neg hend]
    rw [← hbytes] at hfit ⊢
    obtain ⟨r', hrun, hr', htext⟩ := ih (fun he => hmark (List.mem_cons_of_mem _ he))
      ((h.add b).putHex b) hr hfit
    rw [Receiver.run_cons_next hstep, List.append_cons raw]
    exact ⟨r', hrun, hr', htext⟩
  | @escape data escaped b rest ih =>
    have hroom : text.length < room := by
      rw [List.length_append] at hfit
      omega
    have hstart : b ^^^ 0x20 ≠ ascii '$' := fun he => hmark (by rw [he]; simp)
    have hback : b ^^^ 0x20 ^^^ 0x20 = b := by
      rw [BitVec.xor_assoc, BitVec.xor_self, BitVec.xor_zero]
    have hstep : r.step (ascii '}') = .next { r.add (ascii '}') with escFound := true } := by
      rw [h.step_data hroom (by decide), hr, if_neg Bool.false_ne_true, if_pos rfl]
    have htook := (h.add (ascii '}')).withEsc true
    have hnext := (htook.step_data hroom hstart).trans (if_pos rfl)
    rw [hback] at hnext
    rw [← hbytes] at hfit ⊢
    obtain ⟨r', hrun, hr', htext⟩ := ih
      (fun he => hmark (List.mem_cons_of_mem _ (List.mem_cons_of_mem _ he)))
      (((htook.add (b ^^^ 0x20)).withEsc false).putHex b) rfl hfit
    rw [Receiver.run_cons_next hstep, Receiver.run_cons_next hnext, List.append_cons raw,
      List.append_cons (raw ++ [ascii '}'])]
    exact ⟨r', hrun, hr', htext⟩

/-- The end of the packet, with the right checksum. -/
theorem finish (h : Translated r .binary room raw text) (hr : r.escFound = false)
    (hfit : text.length < room) {c₁ c₂ : Byte} (hcsum : IsCsum raw.sum c₁ c₂) (blocking : Bool)
    (rest : List Arrival) :
    Accepts (getpktFrom blocking r ([ascii '#', c₁, c₂].map some ++ rest)) text rest ∧
      (getpktFrom blocking r ([ascii '#', c₁, c₂].map some ++ rest)).sent = [ascii '+'] := by
  have hend : r.step (ascii '#') = .next { r with state := .csum1 } := by
    rw [h.step_data hfit (by decide), hr, if_neg Bool.false_ne_true]
    rfl
  obtain ⟨hrun, hlast⟩ := Receiver.run_csum h.calcCsum h.seqValid hcsum
  have hread := (Receiver.run_cons_next hend [c₁]).trans hrun
  rw [if_pos h.rxCsum] at hlast
  have hsplit : [ascii '#', c₁, c₂].map some ++ rest =
      [ascii '#', c₁].map some ++ some c₂ :: rest := rfl
  rw [hsplit, Receiver.getpktFrom_run blocking hread, getpktFrom, hlast]
  refine ⟨⟨congrArg Received.packet h.pktLen, fun i b hb => ?_, ?_, rfl⟩, rfl⟩
  · have hi : i < r.pktLen := by
      rw [h.pktLen]
      exact (List.getElem?_eq_some_iff.mp hb).1
    change (r.buf.set r.pktLen 0).get i = b
    rw [Buffer.get_set_of_lt _ _ hi]
    exact h.buf i b hb
  · rw [← h.pktLen]
    exact Buffer.get_set_self _ _ _

end Translated

/-- The head of a binary packet is rewritten. -/
theorem run_writeHead {r : Receiver} (hpos : 0 < r.bufLen) (hlt : r.bufLen < 2 ^ 64)
    (addr : BitVec 64) (len : Nat) : ∃ r', r.restart.run (writeHead (ascii 'X') addr len) = some r' ∧
      r'.escFound = false ∧ Translated r' .binary (r.bufLen - 1)
        (writeHead (ascii 'X') addr len) (writeHead (ascii 'M') addr len) := by
  obtain ⟨c₁, c₂, c₃, cs, hfields⟩ := exists_fields addr len
  have hmem : ∀ c ∈ c₁ :: c₂ :: c₃ :: cs, c ∉ [ascii '$', ascii '#', ascii ':'] := by
    intro c hc
    rw [← hfields] at hc
    exact fields_notMem addr len hc
  have hstart : ∀ c ∈ c₁ :: c₂ :: c₃ :: cs, c ≠ ascii '$' :=
    fun c hc he => hmem c hc (by rw [he]; decide)
  have hend : ∀ c ∈ c₁ :: c₂ :: c₃ :: cs, c ≠ ascii '#' :=
    fun c hc he => hmem c hc (by rw [he]; decide)
  have hcolon : ∀ c ∈ c₁ :: c₂ :: c₃ :: cs, c ≠ ascii ':' :=
    fun c hc he => hmem c hc (by rw [he]; decide)
  have h₀ : Translated r.restart .seq1 r.bufLen [] [] :=
    ⟨rfl, rfl, rfl, rfl, rfl, rfl, fun i b hb => by simp at hb⟩
  obtain ⟨r₁, hstep₁, -, h₁⟩ := h₀.step_store (ascii 'X') .seq2 (by
    rw [Receiver.step_of_ne (by decide), Receiver.receive, h₀.state]
    exact if_neg (by decide))
  obtain ⟨r₂, hstep₂, -, h₂⟩ := h₁.step_store c₁ .seqEnd (by
    rw [Receiver.step_of_ne (hstart c₁ (by simp)), Receiver.receive, h₁.state]
    exact if_neg (hend c₁ (by simp)))
  obtain ⟨r₃, hstep₃, -, h₃⟩ := h₂.step_store c₂ .fourth (by
    rw [Receiver.step_of_ne (hstart c₂ (by simp)), Receiver.receive, h₂.state]
    exact (if_neg (hend c₂ (by simp))).trans (if_neg (hcolon c₂ (by simp))))
  obtain ⟨r₄, hstep₄, hesc₄, h₄⟩ : ∃ r₄, r₃.step c₃ = .next r₄ ∧ r₄.escFound = false ∧
      Translated r₄ .binaryHead (r.bufLen - 1) [ascii 'X', c₁, c₂, c₃] [ascii 'M', c₁, c₂, c₃] := by
    have hstore := (h₃.put c₃).add c₃
    refine ⟨_, ?_, ?_, hstore.rename hpos hlt⟩
    · rw [Receiver.step_of_ne (hstart c₃ (by simp)), Receiver.receive, h₃.state]
      exact (if_neg (hend c₃ (by simp))).trans (if_pos (hstore.buf 0 (ascii 'X') rfl))
    · rfl
  obtain ⟨r₅, hrun, hesc, h₅⟩ := h₄.run_fields cs fun c hc => hmem c (by simp [hc])
  obtain ⟨r₆, hlast, hesc₆, h₆⟩ := h₅.step_store (ascii ':') .binary (by
    rw [Receiver.step_of_ne (by decide), Receiver.receive, h₅.state]
    exact if_pos rfl)
  refine ⟨r₆, ?_, hesc₆.trans (hesc.trans hesc₄), ?_⟩
  · rw [writeHead, hfields, List.cons_append, List.cons_append, List.cons_append, List.cons_append,
      Receiver.run_cons_next hstep₁, Receiver.run_cons_next hstep₂, Receiver.run_cons_next hstep₃,
      Receiver.run_cons_next hstep₄, Receiver.run_append hrun, Receiver.run_cons_next hlast]
    rfl
  · rw [writeHead, writeHead, hfields]
    exact h₆

/-- A binary packet is received as the text that it stands for. -/
theorem getpktFrom_binary {r : Receiver} (hr : r.state = .start) (hlt : r.bufLen < 2 ^ 64)
    {addr : BitVec 64} {data escaped : List Byte} (hesc : Escapes data escaped)
    (hmark : ascii '$' ∉ escaped) (hfit : (writeText addr data).length + 1 < r.bufLen)
    {c₁ c₂ : Byte} (hcsum : IsCsum (binaryText addr data.length escaped).sum c₁ c₂)
    (blocking : Bool) (rest : List Arrival) :
    Accepts (getpktFrom blocking r ((frame (binaryText addr data.length escaped) c₁ c₂).map some ++ rest))
        (writeText addr data) rest ∧
      (getpktFrom blocking r
        ((frame (binaryText addr data.length escaped) c₁ c₂).map some ++ rest)).sent = [ascii '+'] := by
  obtain ⟨r₁, hrun₁, hesc₁, h₁⟩ := run_writeHead (r := r) (by omega) hlt addr data.length
  have hroom : (writeHead (ascii 'M') addr data.length ++ byteDigits data).length < r.bufLen - 1 := by
    change (writeText addr data).length < _
    omega
  obtain ⟨r₂, hrun₂, hesc₂, h₂⟩ := h₁.run_escapes hesc hmark hesc₁ hroom
  have hrun : r.run (ascii '$' :: binaryText addr data.length escaped) = some r₂ := by
    rw [Receiver.run_cons_next (step_start hr), binaryText, Receiver.run_append hrun₁]
    exact hrun₂
  have hsplit : (frame (binaryText addr data.length escaped) c₁ c₂).map some ++ rest =
      (ascii '$' :: binaryText addr data.length escaped).map some ++
        ([ascii '#', c₁, c₂].map some ++ rest) := by
    rw [frame, ← List.cons_append, List.map_append, List.append_assoc]
  rw [hsplit, Receiver.getpktFrom_run blocking hrun]
  exact h₂.finish hesc₂ hroom hcsum blocking rest

section Handling

variable {ε σ τ : Type}

/-- The handler calls the target with the address and the bytes, as far as it has space. -/
theorem handleWriteMemoryCommand_writeText (writeMem : BitVec 64 → List Byte → Program ε σ τ RetVal)
    (addr : BitVec 64) {data : List Byte} (hlen : data.length < 2 ^ 32) :
    handleWriteMemoryCommand writeMem (writeText addr data) =
      if data.length ≤ dataBytesMax then do
        let ret ← writeMem addr data
        return rpWriteRetval ret
      else return rpWriteRetval .err := by
  have hcolon : ∀ c ∈ hexNumber addr.toNat ++ ascii ',' :: hexNumber data.length, c ≠ ascii ':' :=
    fun c hc he => fields_notMem addr data.length hc (by rw [he]; decide)
  have htail : (writeText addr data).tail =
      (hexNumber addr.toNat ++ ascii ',' :: hexNumber data.length) ++ ascii ':' :: byteDigits data := by
    rw [writeText, writeHead, List.cons_append, List.cons_append, List.tail_cons, List.append_assoc]
    rfl
  have hpass : ∀ c ∈ hexNumber addr.toNat ++ ascii ',' :: hexNumber data.length,
      decide (c ≠ ascii ':') = true := fun c hc => decide_eq_true (hcolon c hc)
  have hfields : (writeText addr data).tail.takeWhile (· ≠ ascii ':') =
      hexNumber addr.toNat ++ ascii ',' :: hexNumber data.length := by
    rw [htail, List.takeWhile_append_of_pos hpass, List.takeWhile_cons_of_neg (by simp),
      List.append_nil]
  have hdata : ((writeText addr data).tail.dropWhile (· ≠ ascii ':')).tail = byteDigits data := by
    rw [htail, List.dropWhile_append_of_pos hpass, List.dropWhile_cons_of_neg (by simp),
      List.tail_cons]
  have hmem : ascii ':' ∈ (writeText addr data).tail := by
    rw [htail]
    simp
  have hcount : (BitVec.ofNat 32 data.length).toNat = data.length := by
    rw [BitVec.toNat_ofNat, Nat.mod_eq_of_lt hlen]
  rw [handleWriteMemoryCommand, if_pos hmem, hfields, hdata,
    rpDecodeMem_hexNumber addr.isLt hlen, BitVec.ofNat_toNat, BitVec.setWidth_eq,
    rpDecodeData_byteDigits]
  dsimp only
  rw [hcount]
  by_cases hspace : data.length ≤ dataBytesMax
  · rw [if_neg (by omega), if_pos hspace, if_pos hspace]
    exact if_neg (not_not.mpr rfl)
  · rw [if_pos (by omega), if_neg hspace]

/-- A binary packet is received and handled as the text that it stands for: the handler calls
the target with the address and the bytes, as far as it has space for them. -/
theorem handle_binaryText {addr : BitVec 64} {data escaped : List Byte}
    (hesc : Escapes data escaped) (hmark : ascii '$' ∉ escaped)
    (hfit : (writeText addr data).length + 1 < inOutBufSize) {b₁ b₂ t₁ t₂ : Byte}
    (hbinary : IsCsum (binaryText addr data.length escaped).sum b₁ b₂)
    (htext : IsCsum (writeText addr data).sum t₁ t₂) (blocking : Bool) (buf : Buffer Byte)
    (rest : List Arrival) (writeMem : BitVec 64 → List Byte → Program ε σ τ RetVal) :
    let binary := rpGetpkt blocking inOutBufSize buf
      ((frame (binaryText addr data.length escaped) b₁ b₂).map some ++ rest)
    let text := rpGetpkt blocking inOutBufSize buf ((frame (writeText addr data) t₁ t₂).map some ++ rest)
    Accepts binary (writeText addr data) rest ∧ Accepts text (writeText addr data) rest ∧
      binary.sent = [ascii '+'] ∧ text.sent = [ascii '+'] ∧
      handleWriteMemoryCommand writeMem binary.inBuf = handleWriteMemoryCommand writeMem text.inBuf ∧
      handleWriteMemoryCommand writeMem text.inBuf =
        if data.length ≤ dataBytesMax then do
          let ret ← writeMem addr data
          return rpWriteRetval ret
        else return rpWriteRetval .err := by
  intro binary text
  have hlen : data.length < 2 ^ 32 := by
    rw [writeText, List.length_append, length_byteDigits] at hfit
    have hsize : inOutBufSize = 131104 := rfl
    omega
  have hsize : inOutBufSize < 2 ^ 64 := by decide
  obtain ⟨hX, hXsent⟩ := getpktFrom_binary (r := .fresh inOutBufSize buf) rfl hsize hesc hmark hfit
    hbinary blocking rest
  obtain ⟨hM, hMsent⟩ := getpktFrom_frame (r := .fresh inOutBufSize buf) rfl
    (plain_writeText addr data) (by dsimp only [Receiver.fresh]; omega) htext blocking rest
  have hinBuf : text.inBuf = writeText addr data := hM.inBuf
  refine ⟨hX, hM, hXsent, hMsent, ?_, ?_⟩
  · rw [hinBuf]
    exact congrArg (handleWriteMemoryCommand writeMem) hX.inBuf
  · rw [hinBuf]
    exact handleWriteMemoryCommand_writeText writeMem addr hlen

end Handling

/-- A byte that has to be escaped and one that need not be, at the address 5. -/
theorem handle_binaryText_two : Escapes [0x23, 0x41] [ascii '}', 3, 0x41] ∧ ∀ buf rest
    (writeMem : BitVec 64 → List Byte → Program Unit Unit Unit RetVal),
    let binary := rpGetpkt true inOutBufSize buf
      ((frame (binaryText 5 2 [ascii '}', 3, 0x41]) (ascii 'e') (ascii '6')).map some ++ rest)
    let text := rpGetpkt true inOutBufSize buf
      ((frame (writeText 5 [0x23, 0x41]) (ascii 'e') (ascii '4')).map some ++ rest)
    Accepts binary (writeText 5 [0x23, 0x41]) rest ∧ Accepts text (writeText 5 [0x23, 0x41]) rest ∧
      binary.sent = [ascii '+'] ∧ text.sent = [ascii '+'] ∧
      handleWriteMemoryCommand writeMem binary.inBuf = handleWriteMemoryCommand writeMem text.inBuf ∧
      handleWriteMemoryCommand writeMem text.inBuf =
        if [(0x23 : Byte), 0x41].length ≤ dataBytesMax then do
          let ret ← writeMem 5 [0x23, 0x41]
          return rpWriteRetval ret
        else return rpWriteRetval .err := by
  have hesc : Escapes [0x23, 0x41] [ascii '}', 3, 0x41] :=
    .escape 0x23 (.plain 0x41 (by decide) .nil)
  exact ⟨hesc, fun buf rest writeMem => handle_binaryText hesc (by decide) (by decide)
    (by decide) (by decide) true buf rest writeMem⟩

/-- An escape may spell the marker of a new packet, which is not accepted then. -/
theorem binaryText_marker : Escapes [0x04] [ascii '}', ascii '$'] ∧
    IsCsum (binaryText 5 1 [ascii '}', ascii '$']).sum (ascii 'c') (ascii '5') ∧
    (writeText 5 [0x04]).length + 1 < inOutBufSize ∧
    (rpGetpkt true inOutBufSize ⟨fun _ => 0, []⟩
      ((frame (binaryText 5 1 [ascii '}', ascii '$']) (ascii 'c') (ascii '5')).map some)).ret =
        .error ∧
    (rpGetpkt true inOutBufSize ⟨fun _ => 0, []⟩
      ((frame (writeText 5 [0x04]) (ascii '7') (ascii 'd')).map some)).ret =
        .packet 7 := by
  refine ⟨.escape 0x04 .nil, ?_, ?_, ?_, ?_⟩
  · decide
  · decide
  · rfl
  · rfl

end Mcprog
