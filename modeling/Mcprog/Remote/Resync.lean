import Mcprog.Remote.Frames

/-!
# Synchronisation of the receiver

A frame that follows other characters is accepted by a receiver between packets. In the
middle of a packet its first marker starts a new packet, and is then stored as the first
character of it; and each packet of binary data leaves one byte less of the buffer, also
where it is dropped. What the receiver returns for such a frame is never its text.
-/

namespace Mcprog

open Cells

variable {r r' : Receiver} {c : Byte} {p q : List Byte} {rest : List Arrival} {blocking : Bool}

/-- A packet is returned as it stands in the buffer. -/
theorem Receiver.step_packet {len : Nat} {sent : List Byte}
    (h : r.step c = .done (.packet len) r' sent) :
    c ≠ ascii '$' ∧ len = r.pktLen ∧ r'.buf = r.buf.set len 0 := by
  have hreceive : ∀ r₀ : Receiver, r₀.receive c = .done (.packet len) r' sent →
      r₀.state = .csum2 ∧ len = r₀.pktLen ∧ r'.buf = r₀.buf.set len 0 := by
    intro r₀ h
    unfold Receiver.receive at h
    cases hstate : r₀.state with
    | csum2 =>
      rw [hstate] at h
      dsimp only at h
      split at h
      · cases h
      · split at h
        · cases h
          exact ⟨rfl, rfl, rfl⟩
        · cases h
    | csum1 =>
      rw [hstate] at h
      dsimp only at h
      split at h <;> cases h
    | start =>
      rw [hstate] at h
      dsimp only at h
      split_ifs at h <;> cases h
    | _ =>
      rw [hstate] at h
      dsimp only at h
      split_ifs at h
  by_cases hstart : c = ascii '$' ∧ r.state ≠ .start
  · rw [Receiver.step, if_pos hstart] at h
    exact absurd (hreceive _ h).1 (by simp [Receiver.restart])
  · rw [Receiver.step, if_neg hstart] at h
    obtain ⟨hstate, hlen, hbuf⟩ := hreceive r h
    refine ⟨fun hc => hstart ⟨hc, ?_⟩, hlen, hbuf⟩
    rw [hstate]
    decide

/-- A call that leaves what follows some characters has returned at the last of them. -/
theorem Accepts.split (h : Accepts (getpktFrom blocking r (q.map some ++ rest)) p rest) :
    ∃ q₁ c r₁, q = q₁ ++ [c] ∧ r.run q₁ = some r₁ ∧ c ≠ ascii '$' ∧ p.length = r₁.pktLen ∧
      ∀ i b, p[i]? = some b → r₁.buf.get i = b := by
  induction q generalizing r with
  | nil =>
    rcases getpktFrom_rest blocking r rest with ⟨herror, -⟩ | hlt
    · exact absurd (herror.symm.trans h.ret) (by simp)
    · have hrest := congrArg List.length h.rest
      rw [List.map_nil, List.nil_append] at hrest
      omega
  | cons x q ih =>
    rw [List.map_cons, List.cons_append, getpktFrom] at h
    cases hstep : r.step x with
    | next r₁ =>
      rw [hstep] at h
      obtain ⟨q₁, c, r₂, rfl, hrun, hc⟩ := ih h
      refine ⟨x :: q₁, c, r₂, rfl, ?_, hc⟩
      rwa [Receiver.run_cons_next hstep]
    | done ret r₁ sent =>
      rw [hstep] at h
      obtain rfl : ret = .packet p.length := h.ret
      obtain ⟨hx, hlen, hbuf⟩ := Receiver.step_packet hstep
      have hnil : q = [] := by
        have hrest := congrArg List.length h.rest
        rw [List.length_append, List.length_map] at hrest
        exact List.length_eq_zero_iff.mp (by omega)
      refine ⟨[], x, r, by rw [hnil]; rfl, rfl, hx, hlen, fun i b hb => ?_⟩
      have hi := (List.getElem?_eq_some_iff.mp hb).1
      have hget := h.buf i b hb
      dsimp only at hget
      rwa [hbuf, Buffer.get_set_of_lt _ _ hi] at hget

/-- What each step keeps holds where a call returns. -/
theorem Accepts.keeps {P : Receiver → Prop}
    (hstep : ∀ r c r', P r → c ≠ ascii '$' → r.step c = .next r' → P r') (hP : P r)
    (hq : ascii '$' ∉ q) (h : Accepts (getpktFrom blocking r (q.map some ++ rest)) p rest) :
    ∃ r₁, P r₁ ∧ p.length = r₁.pktLen ∧ ∀ i b, p[i]? = some b → r₁.buf.get i = b := by
  obtain ⟨q₁, c, r₁, rfl, hrun, -, hend⟩ := h.split
  refine ⟨r₁, ?_, hend⟩
  have hq₁ : ascii '$' ∉ q₁ := fun hmem => hq (List.mem_append_left _ hmem)
  clear hend hq h
  induction q₁ generalizing r with
  | nil => rwa [← Option.some.inj hrun]
  | cons x q₁ ih =>
    rw [Receiver.run] at hrun
    cases hx : r.step x with
    | next r₂ =>
      rw [hx] at hrun
      have hne : x ≠ ascii '$' := fun hx => hq₁ (hx ▸ List.mem_cons_self)
      exact ih (hstep r x r₂ hP hne hx) hrun fun hmem => hq₁ (List.mem_cons_of_mem _ hmem)
    | done ret r₂ sent =>
      rw [hx] at hrun
      exact absurd hrun (by simp)

/-- In the checksum nothing is stored. -/
theorem Accepts.csum (h : Accepts (getpktFrom blocking r (q.map some ++ rest)) p rest)
    (hstate : r.state = .csum1) (hq : ascii '$' ∉ q) :
    p.length = r.pktLen ∧ ∀ i b, p[i]? = some b → r.buf.get i = b := by
  obtain ⟨r₁, ⟨-, hlen, hbuf⟩, hend⟩ := h.keeps (P := fun r₁ =>
      (r₁.state = .csum1 ∨ r₁.state = .csum2 ∨ r₁.state = .start) ∧ r₁.pktLen = r.pktLen ∧
        r₁.buf = r.buf) (by
    rintro r₁ c r₂ ⟨hstate, hlen, hbuf⟩ hc hstep
    rw [Receiver.step_of_ne hc, Receiver.receive] at hstep
    rcases hstate with hstate | hstate | hstate
    · rw [hstate] at hstep
      dsimp only at hstep
      split at hstep
      · cases hstep
        exact ⟨.inr (.inr rfl), hlen, hbuf⟩
      · cases hstep
        exact ⟨.inr (.inl rfl), hlen, hbuf⟩
    · rw [hstate] at hstep
      dsimp only at hstep
      split at hstep
      · cases hstep
        exact ⟨.inr (.inr rfl), hlen, hbuf⟩
      · split at hstep
        · cases hstep
        · cases hstep
          exact ⟨.inr (.inr rfl), hlen, hbuf⟩
    · rw [hstate] at hstep
      dsimp only at hstep
      rw [if_neg hc] at hstep
      split_ifs at hstep
      cases hstep
      exact ⟨.inr (.inr hstate), hlen, hbuf⟩) ⟨.inl hstate, rfl, rfl⟩ hq
  rw [hlen, hbuf] at hend
  exact hend

/-- Where a marker ends the text, the text that is returned is the one in the buffer. -/
theorem Accepts.ends {c₁ c₂ : Byte} (hend : r.step (ascii '#') = .next { r with state := .csum1 })
    (hdigits : ascii '$' ∉ [c₁, c₂])
    (h : Accepts (getpktFrom blocking r ([ascii '#', c₁, c₂].map some ++ rest)) p rest) :
    p.length = r.pktLen ∧ ∀ i b, p[i]? = some b → r.buf.get i = b := by
  have hrun : r.run [ascii '#'] = some { r with state := .csum1 } := by
    rw [Receiver.run_cons_next hend]
    rfl
  have hsplit : [ascii '#', c₁, c₂] = [ascii '#'] ++ [c₁, c₂] := rfl
  rw [hsplit, List.map_append, List.append_assoc, Receiver.getpktFrom_run blocking hrun] at h
  exact h.csum rfl hdigits

/-- The end of a text in the states before the binary ones. -/
theorem Receiver.step_end (h : r.state = .seq2 ∨ r.state = .seqEnd ∨ r.state = .fourth ∨ r.state = .text) :
    r.step (ascii '#') = .next { r with state := .csum1 } := by
  rw [step_of_ne (by decide), receive]
  rcases h with h | h | h | h <;> rw [h] <;> rfl

/-- Characters of a text are stored as far as the buffer goes. -/
theorem Receiver.run_text (h : r.state = .text) (hstart : ascii '$' ∉ q) (hend : ascii '#' ∉ q) :
    ∃ r', r.run q = some r' ∧ r'.state = .text ∧ r.pktLen ≤ r'.pktLen ∧
      r'.pktLen ≤ r.pktLen + q.length ∧ r'.pktLen ≤ max r.pktLen r.bufLen ∧
      ∀ i < r.pktLen, r'.buf.get i = r.buf.get i := by
  induction q generalizing r with
  | nil => exact ⟨r, rfl, h, le_refl _, le_refl _, le_max_left _ _, fun _ _ => rfl⟩
  | cons c q ih =>
    have hc : c ≠ ascii '$' := fun hc => hstart (hc ▸ List.mem_cons_self)
    have hc' : c ≠ ascii '#' := fun hc => hend (hc ▸ List.mem_cons_self)
    have hq : ascii '$' ∉ q := fun hq => hstart (List.mem_cons_of_mem _ hq)
    have hq' : ascii '#' ∉ q := fun hq => hend (List.mem_cons_of_mem _ hq)
    rw [List.length_cons]
    by_cases hfull : r.pktLen ≥ r.bufLen
    · have hstep : r.step c = .next r := by
        rw [step_of_ne hc, receive, h]
        exact (if_neg hc').trans (if_pos hfull)
      obtain ⟨r', hrun, hstate, hle, hlen, hmax, hbuf⟩ := ih h hq hq'
      exact ⟨r', by rwa [run_cons_next hstep], hstate, hle, by omega, hmax, hbuf⟩
    · have hstep : r.step c = .next (r.store c) := by
        rw [step_of_ne hc, receive, h]
        exact (if_neg hc').trans (if_neg hfull)
      obtain ⟨r', hrun, hstate, hle, hlen, hmax, hbuf⟩ := ih (r := r.store c) h hq hq'
      have hstored : (r.store c).pktLen = r.pktLen + 1 := rfl
      have hleft : (r.store c).bufLen = r.bufLen := rfl
      refine ⟨r', by rwa [run_cons_next hstep], hstate, by omega, by omega, by omega, fun i hi => ?_⟩
      rw [hbuf i (by omega)]
      exact r.buf.get_set_of_lt c hi

/-- A text with its end, from a receiver that stores it. -/
theorem Accepts.text {c₁ c₂ : Byte} (hstate : r.state = .text) (hstart : ascii '$' ∉ q)
    (hend : ascii '#' ∉ q) (hdigits : ascii '$' ∉ [c₁, c₂])
    (h : Accepts (getpktFrom blocking r ((q ++ [ascii '#', c₁, c₂]).map some ++ rest)) p rest) :
    p.length ≤ r.pktLen + q.length ∧ p.length ≤ max r.pktLen r.bufLen ∧
      ∀ i < r.pktLen, p[i]? = some (r.buf.get i) := by
  obtain ⟨r', hrun, hstate', hle, hlen, hmax, hbuf⟩ := Receiver.run_text hstate hstart hend
  rw [List.map_append, List.append_assoc, Receiver.getpktFrom_run blocking hrun] at h
  obtain ⟨hp, hget⟩ := h.ends (Receiver.step_end (.inr (.inr (.inr hstate')))) hdigits
  refine ⟨by omega, by omega, fun i hi => ?_⟩
  have hi' : i < p.length := by omega
  rw [List.getElem?_eq_getElem hi', ← hbuf i hi, hget i _ (List.getElem?_eq_getElem hi')]

/-- In binary data with a character at the place 1, at the checksum, or between packets. -/
def BinaryAfterOne (b : Byte) (r : Receiver) : Prop :=
  (r.state = .binaryHead ∨ r.state = .binary ∨ r.state = .csum1 ∨ r.state = .csum2 ∨
    r.state = .start) ∧ 1 < r.pktLen ∧ r.buf.get 1 = b

/-- In binary data after a header of two characters, at the checksum, or between packets. -/
def BinaryAfterTwo (r : Receiver) : Prop :=
  (r.state = .binary ∨ r.state = .csum1 ∨ r.state = .csum2 ∨ r.state = .start) ∧
    (r.pktLen = 2 ∨ 2 < r.pktLen ∧ ∃ n, r.buf.get 2 = hexChar n)

theorem hexChar_ne (n : Byte) : hexChar n ≠ ascii 'X' := by
  revert n
  decide

/-- What a step does outside of the header, where no packet starts: it may store one
character in the header of binary data, or the digits of a byte in the data. -/
theorem Receiver.step_late (hc : c ≠ ascii '$') (hstep : r.step c = .next r')
    (hstate : r.state = .binaryHead ∨ r.state = .binary ∨ r.state = .csum1 ∨ r.state = .csum2 ∨
      r.state = .start) :
    (r'.state = .binary ∨ r'.state = .csum1 ∨ r'.state = .csum2 ∨ r'.state = .start ∨
        r.state = .binaryHead ∧ r'.state = .binaryHead) ∧
      (r'.pktLen = r.pktLen ∧ r'.buf = r.buf ∨
        r.state = .binaryHead ∧ r'.pktLen = r.pktLen + 1 ∧ r'.buf = r.buf.set r.pktLen c ∨
        r'.pktLen = r.pktLen + 2 ∧ ∃ n n', r'.buf =
          (r.buf.set r.pktLen (hexChar n)).set (r.pktLen + 1) (hexChar n')) := by
  rw [step_of_ne hc, receive] at hstep
  rcases hstate with hstate | hstate | hstate | hstate | hstate
  · rw [hstate] at hstep
    dsimp only at hstep
    split_ifs at hstep
    · cases hstep
      exact ⟨.inl rfl, .inr (.inl ⟨hstate, rfl, rfl⟩)⟩
    · cases hstep
      exact ⟨.inr (.inr (.inr (.inr ⟨hstate, hstate⟩))), .inr (.inl ⟨hstate, rfl, rfl⟩)⟩
  · rw [hstate] at hstep
    dsimp only at hstep
    split_ifs at hstep
    · cases hstep
      exact ⟨.inl hstate, .inl ⟨rfl, rfl⟩⟩
    · cases hstep
      exact ⟨.inl hstate, .inr (.inr ⟨rfl, _, _, rfl⟩)⟩
    · cases hstep
      exact ⟨.inl hstate, .inl ⟨rfl, rfl⟩⟩
    · cases hstep
      exact ⟨.inr (.inl rfl), .inl ⟨rfl, rfl⟩⟩
    · cases hstep
      exact ⟨.inl hstate, .inr (.inr ⟨rfl, _, _, rfl⟩)⟩
  · rw [hstate] at hstep
    dsimp only at hstep
    split at hstep
    · cases hstep
      exact ⟨.inr (.inr (.inr (.inl rfl))), .inl ⟨rfl, rfl⟩⟩
    · cases hstep
      exact ⟨.inr (.inr (.inl rfl)), .inl ⟨rfl, rfl⟩⟩
  · rw [hstate] at hstep
    dsimp only at hstep
    split at hstep
    · cases hstep
      exact ⟨.inr (.inr (.inr (.inl rfl))), .inl ⟨rfl, rfl⟩⟩
    · split at hstep
      · cases hstep
      · cases hstep
        exact ⟨.inr (.inr (.inr (.inl rfl))), .inl ⟨rfl, rfl⟩⟩
  · rw [hstate] at hstep
    dsimp only at hstep
    rw [if_neg hc] at hstep
    split_ifs at hstep
    cases hstep
    exact ⟨.inr (.inr (.inr (.inl hstate))), .inl ⟨rfl, rfl⟩⟩

/-- The character at the place 1 stays. -/
theorem BinaryAfterOne.step {b : Byte} (h : BinaryAfterOne b r) (hc : c ≠ ascii '$')
    (hstep : r.step c = .next r') : BinaryAfterOne b r' := by
  obtain ⟨hstate, hlen, hbuf⟩ := h
  obtain ⟨hstate', hkeep⟩ := Receiver.step_late hc hstep hstate
  refine ⟨?_, ?_⟩
  · rcases hstate' with hbinary | hsum₁ | hsum₂ | hstart | ⟨-, hhead⟩
    · exact .inr (.inl hbinary)
    · exact .inr (.inr (.inl hsum₁))
    · exact .inr (.inr (.inr (.inl hsum₂)))
    · exact .inr (.inr (.inr (.inr hstart)))
    · exact .inl hhead
  rcases hkeep with ⟨hlen', hbuf'⟩ | ⟨-, hlen', hbuf'⟩ | ⟨hlen', n, n', hbuf'⟩
  · rw [hlen', hbuf']
    exact ⟨hlen, hbuf⟩
  · rw [hlen', hbuf', Buffer.get_set_of_lt _ _ hlen]
    exact ⟨by omega, hbuf⟩
  · rw [hlen', hbuf', Buffer.get_set_of_lt _ _ (by omega), Buffer.get_set_of_lt _ _ hlen]
    exact ⟨by omega, hbuf⟩

/-- The first character after the header is a digit. -/
theorem BinaryAfterTwo.step (h : BinaryAfterTwo r) (hc : c ≠ ascii '$')
    (hstep : r.step c = .next r') : BinaryAfterTwo r' := by
  obtain ⟨hstate, hdata⟩ := h
  have hne : r.state ≠ .binaryHead := by
    rcases hstate with h | h | h | h <;> rw [h] <;> decide
  obtain ⟨hstate', hkeep⟩ := Receiver.step_late hc hstep (.inr hstate)
  refine ⟨?_, ?_⟩
  · rcases hstate' with hbinary | hsum₁ | hsum₂ | hstart | ⟨hhead, -⟩
    · exact .inl hbinary
    · exact .inr (.inl hsum₁)
    · exact .inr (.inr (.inl hsum₂))
    · exact .inr (.inr (.inr hstart))
    · exact absurd hhead hne
  rcases hkeep with ⟨hlen, hbuf⟩ | ⟨hhead, -⟩ | ⟨hlen, n, n', hbuf⟩
  · rwa [hlen, hbuf]
  · exact absurd hhead hne
  · rw [hlen, hbuf]
    refine .inr ⟨by omega, ?_⟩
    rcases hdata with htwo | ⟨hlt, m, hm⟩
    · exact ⟨n, by rw [htwo, Buffer.get_set_of_lt _ _ (by omega), Buffer.get_set_self]⟩
    · refine ⟨m, ?_⟩
      rwa [Buffer.get_set_of_lt _ _ (by omega), Buffer.get_set_of_lt _ _ hlt]

/-- A packet that starts in the middle of another one has the marker as its first
character. -/
theorem Receiver.step_restart (h : r.state ≠ .start) :
    r.step (ascii '$') = .next { r.restart.store (ascii '$') with state := .seq2 } := by
  rw [step, if_pos ⟨rfl, h⟩]
  rfl

/-- The second character of a packet is kept. -/
theorem Receiver.step_seq2 (h : r.state = .seq2) (hc : c ≠ ascii '$') (hc' : c ≠ ascii '#') :
    r.step c = .next { r.store c with state := .seqEnd } := by
  rw [step_of_ne hc, receive, h]
  exact if_neg hc'

/-- The third character may end a sequence number. -/
theorem Receiver.step_seqEnd (h : r.state = .seqEnd) (hc : c ≠ ascii '$') (hc' : c ≠ ascii '#') :
    r.step c = .next (if c = ascii ':' then
      { r with seq := (r.buf.get 0, r.buf.get 1), seqValid := true, pktLen := 0, state := .fourth }
      else { r.store c with state := .fourth }) := by
  rw [step_of_ne hc, receive, h]
  dsimp only
  rw [if_neg hc', apply_ite Progress.next]

/-- The fourth character is kept, unless it begins binary data. -/
theorem Receiver.step_fourth (h : r.state = .fourth) (hc : c ≠ ascii '$') (hc' : c ≠ ascii '#')
    (hx : (r.store c).buf.get 0 ≠ ascii 'X') :
    r.step c = .next { r.store c with state := .text } := by
  rw [step_of_ne hc, receive, h]
  exact (if_neg hc').trans (if_neg hx)

variable {s c₁ c₂ : Byte}

/-- The digits of a checksum begin no packet. -/
theorem IsCsum.noStart (h : IsCsum s c₁ c₂) : ascii '$' ∉ [c₁, c₂] := by
  have hnone : rpHexNibble (ascii '$') = none := rfl
  obtain ⟨hc₁, hc₂⟩ := h
  simp only [List.mem_cons, List.not_mem_nil, or_false, not_or]
  constructor
  · intro heq
    rw [← heq, hnone] at hc₁
    exact absurd hc₁ (by simp)
  · intro heq
    rw [← heq, hnone] at hc₂
    exact absurd hc₂ (by simp)

/-- What is taken for binary data is not returned as it is. -/
theorem not_accepts_of_binary {w : Byte} (hstate : r.state = .binaryHead) (hlen : r.pktLen = 1)
    (hw : w ≠ ascii '$') (hq : ascii '$' ∉ q) (hone : p[1]? = some (ascii ':'))
    (htwo : p[2]? = some (ascii 'X')) (hfour : w = ascii ':' → 4 ≤ p.length) :
    ¬ Accepts (getpktFrom blocking r ((w :: q).map some ++ rest)) p rest := by
  intro h
  by_cases hcolon : w = ascii ':'
  · have hstep : r.step w = .next { r.store w with state := .binary } := by
      rw [Receiver.step_of_ne hw, Receiver.receive, hstate]
      exact if_pos hcolon
    rw [List.map_cons, List.cons_append, getpktFrom, hstep] at h
    have hstart : BinaryAfterTwo { r.store w with state := .binary } := by
      refine ⟨.inl rfl, .inl ?_⟩
      change r.pktLen + 1 = 2
      rw [hlen]
    obtain ⟨r₁, ⟨-, hdata⟩, hend, hbuf⟩ :=
      h.keeps (fun _ _ _ hP hc hstep => BinaryAfterTwo.step hP hc hstep) hstart hq
    have hle := hfour hcolon
    rcases hdata with hdata | ⟨-, n, hn⟩
    · omega
    · exact hexChar_ne n (hn.symm.trans (hbuf 2 _ htwo))
  · have hstep : r.step w = .next (r.store w) := by
      rw [Receiver.step_of_ne hw, Receiver.receive, hstate]
      exact if_neg hcolon
    rw [List.map_cons, List.cons_append, getpktFrom, hstep] at h
    have hstart : BinaryAfterOne w (r.store w) := by
      refine ⟨.inl hstate, ?_, ?_⟩
      · change 1 < r.pktLen + 1
        omega
      · change (r.buf.set r.pktLen w).get 1 = w
        rw [hlen, Buffer.get_set_self]
    obtain ⟨r₁, ⟨-, -, hw₁⟩, -, hbuf⟩ :=
      h.keeps (fun _ _ _ hP hc hstep => BinaryAfterOne.step hP hc hstep) hstart hq
    exact hcolon (hw₁.symm.trans (hbuf 1 _ hone))

/-- After a sequence number that is read by mistake the text is shorter, or is not taken as
it is. -/
theorem not_accepts_of_seq {x : Byte} (hplain : Plain (x :: ascii ':' :: q))
    (hcsum : IsCsum s c₁ c₂) (hstate : r.state = .fourth) (hlen : r.pktLen = 0) :
    ¬ Accepts (getpktFrom blocking r ((q ++ [ascii '#', c₁, c₂]).map some ++ rest))
      (x :: ascii ':' :: q) rest := by
  intro h
  cases q with
  | nil =>
    have hend := h.ends (Receiver.step_end (.inr (.inr (.inl hstate)))) hcsum.noStart
    rw [hlen] at hend
    exact absurd hend.1 (by simp)
  | cons z q =>
    have hz : z ≠ ascii '$' := fun hz => hplain.noStart (by simp [hz])
    have hz' : z ≠ ascii '#' := fun hz => hplain.noEnd (by simp [hz])
    have hq : ascii '$' ∉ q := fun hq => hplain.noStart (by simp [hq])
    have hq' : ascii '#' ∉ q := fun hq => hplain.noEnd (by simp [hq])
    have hfirst : (r.store z).buf.get 0 = z := by
      change (r.buf.set r.pktLen z).get 0 = z
      rw [hlen, Buffer.get_set_self]
    have hdigits := hcsum.noStart
    have hone : (r.store z).pktLen = 1 := by
      change r.pktLen + 1 = 1
      rw [hlen]
    by_cases hx : z = ascii 'X'
    · have hstep : r.step z = .next { (r.store z).reserve with
          buf := (r.store z).buf.set 0 (ascii 'M'), escFound := false, state := .binaryHead } := by
        rw [Receiver.step_of_ne hz, Receiver.receive, hstate]
        exact (if_neg hz').trans (if_pos (hfirst.trans hx))
      rw [List.cons_append, List.map_cons, List.cons_append, getpktFrom, hstep] at h
      subst hx
      cases q with
      | nil =>
        have hend : ascii '#' = ascii ':' → 4 ≤ [x, ascii ':', ascii 'X'].length := fun heq =>
          absurd heq (by decide)
        exact absurd h (not_accepts_of_binary rfl hone (by decide) hdigits rfl rfl hend)
      | cons w q =>
        have hw : w ≠ ascii '$' := fun hw => hq (hw ▸ List.mem_cons_self)
        have htail : ascii '$' ∉ q ++ [ascii '#', c₁, c₂] := by
          intro hmem
          rcases List.mem_append.mp hmem with hmem | hmem
          · exact hq (List.mem_cons_of_mem _ hmem)
          · rcases List.mem_cons.mp hmem with hmem | hmem
            · exact absurd hmem (by decide)
            · exact hdigits hmem
        rw [List.cons_append] at h
        have hfour : 4 ≤ (x :: ascii ':' :: ascii 'X' :: w :: q).length := Nat.le_add_left 4 q.length
        exact absurd h (not_accepts_of_binary rfl hone hw htail rfl rfl fun _ => hfour)
    · have hstep := Receiver.step_fourth hstate hz hz' (by rwa [hfirst])
      rw [List.cons_append, List.map_cons, List.cons_append, getpktFrom, hstep] at h
      obtain ⟨hle, -, -⟩ := Accepts.text rfl hq hq' hdigits h
      dsimp only at hle
      rw [hone, List.length_cons, List.length_cons, List.length_cons] at hle
      omega

/-- The marker that stands at the start of the buffer is returned with the rest. -/
theorem Accepts.first_marker (hstate : r.state = .fourth) (hstart : ascii '$' ∉ q)
    (hend : ascii '#' ∉ q) (hcsum : IsCsum s c₁ c₂) (hfirst : r.buf.get 0 = ascii '$')
    (hpos : 0 < r.pktLen)
    (h : Accepts (getpktFrom blocking r ((q ++ [ascii '#', c₁, c₂]).map some ++ rest)) p rest) :
    p[0]? = some (ascii '$') := by
  have hdigits := hcsum.noStart
  cases q with
  | nil =>
    obtain ⟨hlen, hbuf⟩ := h.ends (Receiver.step_end (.inr (.inr (.inl hstate)))) hdigits
    rw [List.getElem?_eq_getElem (by omega), ← hfirst,
      hbuf 0 _ (List.getElem?_eq_getElem (by omega))]
  | cons z q =>
    have hz : z ≠ ascii '$' := fun hz => hstart (by simp [hz])
    have hz' : z ≠ ascii '#' := fun hz => hend (by simp [hz])
    have hq : ascii '$' ∉ q := fun hq => hstart (List.mem_cons_of_mem _ hq)
    have hq' : ascii '#' ∉ q := fun hq => hend (List.mem_cons_of_mem _ hq)
    have hkept : (r.store z).buf.get 0 = ascii '$' := by
      rw [← hfirst]
      exact r.buf.get_set_of_lt z hpos
    have hstep := Receiver.step_fourth hstate hz hz' (by rw [hkept]; decide)
    rw [List.cons_append, List.map_cons, List.cons_append, getpktFrom, hstep] at h
    obtain ⟨-, -, hbuf⟩ := Accepts.text rfl hq hq' hdigits h
    rw [hbuf 0 (Nat.succ_pos _)]
    exact congrArg some hkept

/-- A frame in the middle of a packet is not accepted. -/
theorem not_accepts_of_restart (hstate : r.state ≠ .start) (hplain : Plain p)
    (hcsum : IsCsum s c₁ c₂) :
    ¬ Accepts (getpktFrom blocking r ((frame p c₁ c₂).map some ++ rest)) p rest := by
  intro h
  have hdigits := hcsum.noStart
  rw [frame, List.map_cons, List.cons_append, getpktFrom, Receiver.step_restart hstate] at h
  dsimp only at h
  cases p with
  | nil =>
    have hend := (h.ends (Receiver.step_end (.inl rfl)) hdigits).1
    exact absurd hend (by simp [Receiver.store, Receiver.add, Receiver.put])
  | cons x p =>
    have hx : x ≠ ascii '$' := fun hx => hplain.noStart (by simp [hx])
    have hx' : x ≠ ascii '#' := fun hx => hplain.noEnd (by simp [hx])
    rw [List.cons_append, List.map_cons, List.cons_append, getpktFrom,
      Receiver.step_seq2 rfl hx hx'] at h
    dsimp only at h
    cases p with
    | nil =>
      have hend := (h.ends (Receiver.step_end (.inr (.inl rfl))) hdigits).1
      exact absurd hend (by simp [Receiver.store, Receiver.add, Receiver.put, Receiver.restart])
    | cons y p =>
      have hy : y ≠ ascii '$' := fun hy => hplain.noStart (by simp [hy])
      have hy' : y ≠ ascii '#' := fun hy => hplain.noEnd (by simp [hy])
      rw [List.cons_append, List.map_cons, List.cons_append, getpktFrom,
        Receiver.step_seqEnd rfl hy hy'] at h
      by_cases hcolon : y = ascii ':'
      · rw [if_pos hcolon] at h
        subst hcolon
        exact not_accepts_of_seq hplain hcsum rfl rfl h
      · rw [if_neg hcolon] at h
        have hp : ascii '$' ∉ p := fun hp => hplain.noStart (by simp [hp])
        have hp' : ascii '#' ∉ p := fun hp => hplain.noEnd (by simp [hp])
        have hmarker := h.first_marker rfl hp hp' hcsum rfl (Nat.succ_pos _)
        exact hplain.noStart (List.mem_of_getElem? hmarker)

/-- A frame that does not fit into what is left of the buffer is not accepted. -/
theorem not_accepts_of_long (hstate : r.state = .start) (hplain : Plain p)
    (hcsum : IsCsum s c₁ c₂) (hlong : max 4 r.bufLen < p.length) :
    ¬ Accepts (getpktFrom blocking r ((frame p c₁ c₂).map some ++ rest)) p rest := by
  intro h
  have hsplit := List.take_append_drop 4 p
  have hfour : (p.take 4).length = 4 := by
    rw [List.length_take]
    omega
  have hhead : Plain (p.take 4) := by
    rw [← hsplit] at hplain
    exact hplain.append_left
  have hstart : ascii '$' ∉ p.drop 4 := fun hmem => hplain.noStart (List.mem_of_mem_drop hmem)
  have hend : ascii '#' ∉ p.drop 4 := fun hmem => hplain.noEnd (List.mem_of_mem_drop hmem)
  obtain ⟨r', hrun, htook⟩ := (took_restart r).run (q := p.take 4) hhead
    (by rw [List.nil_append, hfour]; exact le_max_left _ _)
  rw [List.nil_append] at htook
  have htext : r'.state = .text := by
    rw [htook.state, hfour]
    rfl
  have hbytes : frame p c₁ c₂ = ascii '$' :: p.take 4 ++ (p.drop 4 ++ [ascii '#', c₁, c₂]) := by
    rw [frame, List.cons_append, ← List.append_assoc, hsplit]
  have hrun' : r.run (ascii '$' :: p.take 4) = some r' := by
    rwa [Receiver.run_cons_next (step_start hstate)]
  rw [hbytes, List.map_append, List.append_assoc, Receiver.getpktFrom_run blocking hrun'] at h
  obtain ⟨-, hle, -⟩ := Accepts.text htext hstart hend hcsum.noStart h
  rw [htook.pktLen, htook.bufLen, hfour] at hle
  omega

/-- After characters at which it has not returned, a call accepts the frame of a plain text
exactly if it is between packets, and the text fits into what is left of the buffer. -/
theorem rpGetpkt_resynchronises_iff {bufLen : Nat} {buf : Buffer Byte} {u : List Byte}
    (hrun : (Receiver.fresh bufLen buf).run u = some r) (hplain : Plain p)
    (hcsum : IsCsum p.sum c₁ c₂) (blocking : Bool) (rest : List Arrival) :
    Accepts (rpGetpkt blocking bufLen buf ((u ++ frame p c₁ c₂).map some ++ rest)) p rest ↔
      r.state = .start ∧ p.length ≤ max 4 r.bufLen := by
  rw [rpGetpkt, List.map_append, List.append_assoc, Receiver.getpktFrom_run blocking hrun]
  constructor
  · intro h
    by_contra hnot
    by_cases hstate : r.state = .start
    · exact not_accepts_of_long hstate hplain hcsum
        (not_le.mp fun hle => hnot ⟨hstate, hle⟩) h
    · exact not_accepts_of_restart hstate hplain hcsum h
  · rintro ⟨hstate, hfit⟩
    exact (getpktFrom_frame hstate hplain hfit hcsum blocking rest).1

/-- A frame after some noise. -/
theorem rpGetpkt_resynchronises_noise :
    ∃ r, (Receiver.fresh inOutBufSize ⟨fun _ => 0, []⟩).run [ascii 'a'] = some r ∧
      (Accepts (rpGetpkt true inOutBufSize ⟨fun _ => 0, []⟩
          (([ascii 'a'] ++ frame [ascii 'g'] (ascii '6') (ascii '7')).map some ++ [])) [ascii 'g'] [] ↔
        r.state = .start ∧ [ascii 'g'].length ≤ max 4 r.bufLen) := by
  have hrun : (Receiver.fresh inOutBufSize ⟨fun _ => 0, []⟩).run [ascii 'a'] =
    some (.fresh inOutBufSize ⟨fun _ => 0, []⟩) := rfl
  exact ⟨_, hrun, rpGetpkt_resynchronises_iff hrun ⟨by decide, by decide, by decide, by decide⟩
    ⟨by decide, by decide⟩ true []⟩

/-- A frame after the start of another one is lost. -/
theorem rpGetpkt_not_resynchronises :
    (∃ r, (Receiver.fresh inOutBufSize ⟨fun _ => 0, []⟩).run [ascii '$', ascii 'm'] = some r) ∧
      Plain [ascii 'g'] ∧ IsCsum [ascii 'g'].sum (ascii '6') (ascii '7') ∧
      ¬ Accepts (rpGetpkt true inOutBufSize ⟨fun _ => 0, []⟩
        (([ascii '$', ascii 'm'] ++ frame [ascii 'g'] (ascii '6') (ascii '7')).map some ++ []))
        [ascii 'g'] [] := by
  have hplain : Plain [ascii 'g'] := ⟨by decide, by decide, by decide, by decide⟩
  have hcsum : IsCsum [ascii 'g'].sum (ascii '6') (ascii '7') := ⟨by decide, by decide⟩
  obtain ⟨r, hrun, hstate⟩ : ∃ r, (Receiver.fresh inOutBufSize ⟨fun _ => 0, []⟩).run
      [ascii '$', ascii 'm'] = some r ∧ r.state = .seq2 := ⟨_, rfl, rfl⟩
  refine ⟨⟨r, hrun⟩, hplain, hcsum, ?_⟩
  rw [rpGetpkt, List.map_append, List.append_assoc, Receiver.getpktFrom_run true hrun]
  exact not_accepts_of_restart (by rw [hstate]; decide) hplain hcsum

end Mcprog
