import Mcprog.Remote.Receiver

/-!
# Frames of a text

A frame is a text between its two markers, followed by the digits of a checksum. A plain
text is one without the markers which is not taken for binary data, nor its start for a
sequence number. A receiver between packets takes such a text character by character, and
accepts the frame exactly if the checksum is the sum of the text.
-/

namespace Mcprog

open Cells

/-- Two characters spell a byte. -/
def IsCsum (sum c₁ c₂ : Byte) : Prop :=
  rpHexNibble c₁ = some (sum >>> 4) ∧ rpHexNibble c₂ = some (sum &&& 0xF)

instance (sum c₁ c₂ : Byte) : Decidable (IsCsum sum c₁ c₂) := inferInstanceAs (Decidable (_ ∧ _))

/-- A text in its frame. -/
def frame (p : List Byte) (c₁ c₂ : Byte) : List Byte := ascii '$' :: (p ++ [ascii '#', c₁, c₂])

/-- A text that the receiver takes as it is. -/
structure Plain (p : List Byte) : Prop where
  noStart : ascii '$' ∉ p
  noEnd : ascii '#' ∉ p
  notBinary : p[0]? ≠ some (ascii 'X')
  notSeq : p[2]? ≠ some (ascii ':')

/-- Where in a packet the receiver is after `n` characters of a plain text. -/
def textState : Nat → ReceiverState
  | 0 => .seq1
  | 1 => .seq2
  | 2 => .seqEnd
  | 3 => .fourth
  | _ + 4 => .text

/-- The receiver has taken a plain text, with `bufLen` left of the buffer. -/
structure Took (r : Receiver) (bufLen : Nat) (p : List Byte) : Prop where
  state : r.state = textState p.length
  pktLen : r.pktLen = p.length
  rxCsum : r.rxCsum = p.sum
  calcCsum : r.calcCsum = 0
  seqValid : r.seqValid = false
  bufLen : r.bufLen = bufLen
  buf : ∀ i b, p[i]? = some b → r.buf.get i = b

/-- A call has returned a packet with this payload, and no more has arrived. -/
structure Accepts (o : Getpkt) (p : List Byte) (rest : List Arrival) : Prop where
  ret : o.ret = .packet p.length
  buf : ∀ i b, p[i]? = some b → o.buf.get i = b
  terminated : o.buf.get p.length = 0
  rest : o.rest = rest

/-- The handlers read the payload. -/
theorem Accepts.inBuf {o : Getpkt} {p : List Byte} {rest : List Arrival} (h : Accepts o p rest) :
    o.inBuf = p := by
  rw [Getpkt.inBuf, h.ret]
  apply List.ext_getElem
  · rw [List.length_map, List.length_range]
  · intro i h₁ h₂
    rw [List.getElem_map, List.getElem_range]
    exact h.buf i p[i] (List.getElem?_eq_getElem h₂)

theorem rpHexNibble_hexChar (n : Byte) : rpHexNibble (hexChar n) = some (n &&& 0xF) := by
  revert n
  decide

/-- A byte from its two digits. -/
theorem digits_or (s : Byte) : ((s >>> 4) <<< 4) ||| (s &&& 0xF) = s := by
  revert s
  decide

theorem isCsum_hexChar (s : Byte) : IsCsum s (hexChar (s >>> 4)) (hexChar s) := by
  constructor
  · have hhigh : (s >>> 4) &&& (0xF : Byte) = s >>> 4 := by
      revert s
      decide
    rw [rpHexNibble_hexChar, hhigh]
  · exact rpHexNibble_hexChar s

/-- The last digit of a checksum decides whether the packet is accepted. -/
theorem Receiver.run_csum {r : Receiver} {s c₁ c₂ : Byte} (hzero : r.calcCsum = 0)
    (hseq : r.seqValid = false) (hcsum : IsCsum s c₁ c₂) :
    ({ r with state := .csum1 } : Receiver).run [c₁] =
        some { r with calcCsum := s >>> 4, state := .csum2 } ∧
      ({ r with calcCsum := s >>> 4, state := .csum2 } : Receiver).step c₂ =
        if r.rxCsum = s then
          .done (.packet r.pktLen)
            { r with calcCsum := s >>> 4, state := .csum2, buf := r.buf.set r.pktLen 0 } [ascii '+']
        else .next { r with calcCsum := s, state := .start } := by
  obtain ⟨hc₁, hc₂⟩ := hcsum
  have hne : ∀ c n, rpHexNibble c = some n → c ≠ ascii '$' := by
    intro c n hc hstart
    have hnone : rpHexNibble (ascii '$') = none := rfl
    rw [hstart, hnone] at hc
    exact absurd hc (by simp)
  have hor : ∀ b : Byte, ((0 : Byte) <<< 4) ||| b = b := by decide
  constructor
  · rw [Receiver.run, Receiver.step_of_ne (hne c₁ _ hc₁), Receiver.receive]
    simp only [hc₁, hzero, hor]
    rfl
  · rw [Receiver.step_of_ne (hne c₂ _ hc₂), Receiver.receive]
    simp only [hc₂, digits_or, hseq, Bool.false_eq_true, if_false]

namespace Plain

variable {p q : List Byte}

theorem append_left (h : Plain (p ++ q)) : Plain p where
  noStart hp := h.noStart (List.mem_append_left q hp)
  noEnd hp := h.noEnd (List.mem_append_left q hp)
  notBinary hp := h.notBinary (by
    rw [List.getElem?_append_left (List.getElem?_eq_some_iff.mp hp).1]
    exact hp)
  notSeq hp := h.notSeq (by
    rw [List.getElem?_append_left (List.getElem?_eq_some_iff.mp hp).1]
    exact hp)

end Plain

namespace Took

variable {r : Receiver} {bufLen : Nat} {p q : List Byte} {c : Byte}

/-- A character that is stored is taken. -/
theorem store (h : Took r bufLen p) (c : Byte) :
    Took { r.store c with state := textState (p ++ [c]).length } bufLen (p ++ [c]) where
  state := rfl
  pktLen := by
    change r.pktLen + 1 = _
    rw [h.pktLen, List.length_append, List.length_singleton]
  rxCsum := by
    change r.rxCsum + c = _
    rw [h.rxCsum, List.sum_append, List.sum_singleton]
  calcCsum := h.calcCsum
  seqValid := h.seqValid
  bufLen := h.bufLen
  buf i b hb := by
    change (r.buf.set r.pktLen c).get i = b
    rw [h.pktLen]
    exact r.buf.get_set_concat c h.buf hb

/-- A plain text is taken character by character, as far as the buffer goes. -/
theorem step (h : Took r bufLen p) (hplain : Plain (p ++ [c])) (hfit : p.length < 4 ∨ p.length < bufLen) :
    r.step c = .next { r.store c with state := textState (p ++ [c]).length } := by
  have hmem : c ∈ p ++ [c] := List.mem_append_right p (List.mem_singleton_self c)
  have hstart : c ≠ ascii '$' := fun hc => hplain.noStart (hc ▸ hmem)
  have hend : c ≠ ascii '#' := fun hc => hplain.noEnd (hc ▸ hmem)
  rw [Receiver.step_of_ne hstart, Receiver.receive, h.state, List.length_append,
    List.length_singleton]
  match hlen : p.length with
  | 0 => exact if_neg hend
  | 1 => exact if_neg hend
  | 2 =>
    have hcolon : c ≠ ascii ':' := by
      intro hc
      apply hplain.notSeq
      rw [← hlen, List.getElem?_concat_length, hc]
    exact (if_neg hend).trans (if_neg hcolon)
  | 3 =>
    have hfirst : (r.store c).buf.get 0 ≠ ascii 'X' := by
      intro hx
      apply hplain.notBinary
      rw [List.getElem?_eq_getElem (by rw [List.length_append]; omega), ← hx]
      exact congrArg some ((h.store c).buf 0 _ (List.getElem?_eq_getElem _)).symm
    exact (if_neg hend).trans (if_neg hfirst)
  | n + 4 =>
    have hlt : ¬ r.pktLen ≥ r.bufLen := by
      rw [h.pktLen, h.bufLen]
      omega
    have hstate : (r.store c).state = .text := by
      change r.state = _
      rw [h.state, hlen]
      rfl
    have hsame : r.store c = { r.store c with state := .text } := by
      rw [← hstate]
    exact (if_neg hend).trans ((if_neg hlt).trans (congrArg Progress.next hsame))

/-- The rest of a plain text is taken, where it fits. -/
theorem run (h : Took r bufLen p) (hplain : Plain (p ++ q)) (hfit : (p ++ q).length ≤ max 4 bufLen) :
    ∃ r', r.run q = some r' ∧ Took r' bufLen (p ++ q) := by
  induction q generalizing r p with
  | nil => exact ⟨r, rfl, by rwa [List.append_nil]⟩
  | cons c q ih =>
    rw [List.append_cons p c q] at hplain hfit
    have hlen : p.length < 4 ∨ p.length < bufLen := by
      rw [List.length_append, List.length_append, List.length_singleton] at hfit
      omega
    have hstep := h.step hplain.append_left hlen
    obtain ⟨r', hrun, htook⟩ := ih (h.store c) hplain hfit
    rw [Receiver.run_cons_next hstep, List.append_cons p c q]
    exact ⟨r', hrun, htook⟩

/-- The marker after a text ends it, in each of the states. -/
theorem step_end (h : Took r bufLen p) : r.step (ascii '#') = .next { r with state := .csum1 } := by
  rw [Receiver.step_of_ne (by decide), Receiver.receive, h.state]
  match p.length with
  | 0 => rfl
  | 1 => rfl
  | 2 => rfl
  | 3 => rfl
  | n + 4 => rfl

/-- The last digit of the checksum decides. -/
theorem finish {s c₁ c₂ : Byte} (h : Took r bufLen p) (hcsum : IsCsum s c₁ c₂) :
    r.run [ascii '#', c₁] = some { r with calcCsum := s >>> 4, state := .csum2 } ∧
      ({ r with calcCsum := s >>> 4, state := .csum2 } : Receiver).step c₂ =
        if p.sum = s then
          .done (.packet p.length)
            { r with calcCsum := s >>> 4, state := .csum2, buf := r.buf.set p.length 0 } [ascii '+']
        else .next { r with calcCsum := s, state := .start } := by
  obtain ⟨hrun, hlast⟩ := Receiver.run_csum h.calcCsum h.seqValid hcsum
  rw [← h.rxCsum, ← h.pktLen]
  exact ⟨(Receiver.run_cons_next h.step_end [c₁]).trans hrun, hlast⟩

end Took

section Frames

variable {r : Receiver} {p : List Byte} {s c₁ c₂ : Byte}

/-- A receiver at the start of a packet has taken the empty text. -/
theorem took_restart (r : Receiver) : Took r.restart r.bufLen [] where
  state := rfl
  pktLen := rfl
  rxCsum := rfl
  calcCsum := rfl
  seqValid := rfl
  bufLen := rfl
  buf i b hb := by simp at hb

theorem step_start (h : r.state = .start) : r.step (ascii '$') = .next r.restart := by
  rw [Receiver.step_of_start h, Receiver.receive, h]
  rfl

/-- A receiver between packets reads a frame up to its last digit. -/
theorem run_frame (h : r.state = .start) (hplain : Plain p) (hfit : p.length ≤ max 4 r.bufLen)
    (hcsum : IsCsum s c₁ c₂) : ∃ r', r.run (ascii '$' :: (p ++ [ascii '#', c₁])) =
      some { r' with calcCsum := s >>> 4, state := .csum2 } ∧ Took r' r.bufLen p := by
  obtain ⟨r', hrun, htook⟩ := (took_restart r).run (q := p) hplain hfit
  refine ⟨r', ?_, htook⟩
  rw [Receiver.run_cons_next (step_start h), Receiver.run_append hrun]
  exact (htook.finish hcsum).1

/-- A frame without its last digit. -/
theorem frame_eq (p : List Byte) (c₁ c₂ : Byte) :
    frame p c₁ c₂ = ascii '$' :: (p ++ [ascii '#', c₁]) ++ [c₂] := by
  rw [frame, List.cons_append, List.append_assoc]
  rfl

/-- A receiver between packets accepts a frame with the right checksum. -/
theorem getpktFrom_frame (h : r.state = .start) (hplain : Plain p)
    (hfit : p.length ≤ max 4 r.bufLen) (hcsum : IsCsum p.sum c₁ c₂) (blocking : Bool)
    (rest : List Arrival) :
    Accepts (getpktFrom blocking r ((frame p c₁ c₂).map some ++ rest)) p rest ∧
      (getpktFrom blocking r ((frame p c₁ c₂).map some ++ rest)).sent = [ascii '+'] := by
  obtain ⟨r', hrun, htook⟩ := run_frame h hplain hfit hcsum
  have hlast := (htook.finish hcsum).2
  rw [if_pos rfl] at hlast
  rw [frame_eq, List.map_append, List.append_assoc, Receiver.getpktFrom_run blocking hrun,
    List.map_singleton, List.singleton_append, getpktFrom, hlast]
  refine ⟨⟨rfl, fun i b hb => ?_, Buffer.get_set_self _ _ _, rfl⟩, rfl⟩
  have hi : i < p.length := (List.getElem?_eq_some_iff.mp hb).1
  change (r'.buf.set p.length 0).get i = b
  rw [Buffer.get_set_of_lt _ _ hi]
  exact htook.buf i b hb

/-- A receiver between packets drops a frame with a wrong checksum. -/
theorem run_frame_of_ne (h : r.state = .start) (hplain : Plain p)
    (hfit : p.length ≤ max 4 r.bufLen) (hcsum : IsCsum s c₁ c₂) (hne : p.sum ≠ s) :
    ∃ r', r.run (frame p c₁ c₂) = some r' ∧ r'.state = .start := by
  obtain ⟨r', hrun, htook⟩ := run_frame h hplain hfit hcsum
  have hlast := (htook.finish hcsum).2
  rw [if_neg hne] at hlast
  refine ⟨{ r' with calcCsum := s, state := .start }, ?_, rfl⟩
  rw [frame_eq, Receiver.run_append hrun, Receiver.run_cons_next hlast]
  rfl

end Frames

end Mcprog
