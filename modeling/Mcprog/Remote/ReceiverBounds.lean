import Mcprog.Remote.Receiver

/-!
# Where the receiver stores

In the states of a packet in text and of binary data a limit is checked, which each binary packet that
begins makes smaller. In the header of a binary packet none is checked, and at the end of a packet there
is one more store.
-/

namespace Mcprog

open Cells

/-- The receiver after a step, whether it goes on or returns. -/
def Progress.receiver : Progress → Receiver
  | .next r => r
  | .done _ r _ => r

/-- Every store into the buffer was below `n`. -/
def StoresBelow (n : Nat) (b : Buffer Byte) : Prop := ∀ i ∈ b.stored, i < n

namespace Receiver

variable {r r' : Receiver} {c : Byte} {n h : Nat}

/-- What the first characters of a packet leave stored, up to the one that says what packet it is. -/
def HeadBound (r : Receiver) : Prop :=
  match r.state with
  | .seq1 => r.pktLen = 0
  | .seq2 => r.pktLen ≤ 1
  | .seqEnd => r.pktLen ≤ 2
  | .fourth => r.pktLen ≤ 3
  | _ => True

/-- The next character is stored at `n` or behind it: the header of a binary packet goes on, a packet ends
with the right checksum, or, where more than `n` binary packets have begun in the call, the limit has
wrapped around. The number of these is `h`. -/
def Overruns (n h : Nat) (r : Receiver) (c : Byte) : Prop :=
  match r.state with
  | .binaryHead => c ≠ ascii '$' ∧ n ≤ r.pktLen
  | .csum2 => ∃ nib, rpHexNibble c = some nib ∧ r.rxCsum = (r.calcCsum <<< 4) ||| nib ∧ n ≤ r.pktLen
  | .text => n < h ∧ c ≠ ascii '$' ∧ c ≠ ascii '#' ∧ n ≤ r.pktLen ∧ r.pktLen < r.bufLen
  | .binary => n < h ∧ c ≠ ascii '$' ∧ (r.escFound = true ∨ c ≠ ascii '}' ∧ c ≠ ascii '#') ∧
      n ≤ r.pktLen + 1 ∧ r.pktLen < r.bufLen
  | _ => False

/-- The limit before a step of a call with a buffer of `n` bytes in which `h` binary packets have
begun. -/
structure Limit (n h : Nat) (r : Receiver) : Prop where
  head : r.HeadBound
  limit : h ≤ n → r.bufLen = n - h
  begun : r.state = .binaryHead ∨ r.state = .binary → 0 < h

/-- A character is stored behind the others. -/
theorem storesBelow_put : StoresBelow n (r.put c).buf ↔ r.pktLen < n ∧ StoresBelow n r.buf :=
  List.forall_mem_cons

theorem storesBelow_set {b : Buffer Byte} {i : Nat} :
    StoresBelow n (b.set i c) ↔ i < n ∧ StoresBelow n b := List.forall_mem_cons

/-- Two digits are stored behind the others. -/
theorem storesBelow_putHex : StoresBelow n (r.putHex c).buf ↔
    r.pktLen + 1 < n ∧ StoresBelow n r.buf := by
  unfold putHex
  rw [storesBelow_put, storesBelow_put]
  change r.pktLen + 1 < n ∧ _ ∧ _ ↔ _
  constructor
  · exact fun h => ⟨h.1, h.2.2⟩
  · exact fun h => ⟨h.1, by omega, h.2⟩

/-- Up to the character that says what packet it is, and between packets, nothing is stored behind the
first four characters. -/
theorem receive_storesBelow_head (hn : 6 < n) (hr : r.HeadBound)
    (hs : r.state ∉ [ReceiverState.binaryHead, .csum2, .text, .binary]) :
    StoresBelow n (r.receive c).receiver.buf ↔ StoresBelow n r.buf := by
  have hput : ∀ {k : Nat}, r.pktLen ≤ k → k ≤ 3 →
      (StoresBelow n (r.put c).buf ↔ StoresBelow n r.buf) := by
    intro k hk hle
    rw [storesBelow_put]
    exact and_iff_right (by omega)
  unfold HeadBound at hr
  unfold receive
  cases hstate : r.state with
  | start =>
    dsimp only
    split_ifs <;> exact Iff.rfl
  | seq1 =>
    rw [hstate] at hr
    dsimp only
    split
    · exact Iff.rfl
    · exact hput hr.le (by decide)
  | seq2 =>
    rw [hstate] at hr
    dsimp only
    split
    · exact Iff.rfl
    · exact hput hr (by decide)
  | seqEnd =>
    rw [hstate] at hr
    dsimp only
    split
    · exact Iff.rfl
    split
    · exact Iff.rfl
    · exact hput hr (by decide)
  | fourth =>
    rw [hstate] at hr
    dsimp only
    split
    · exact Iff.rfl
    split
    · refine storesBelow_set.trans ((and_iff_right (by omega)).trans ?_)
      exact hput hr (by decide)
    · exact hput hr (by decide)
  | text => simp [hstate] at hs
  | binaryHead => simp [hstate] at hs
  | binary => simp [hstate] at hs
  | csum1 =>
    dsimp only
    split <;> exact Iff.rfl
  | csum2 => simp [hstate] at hs

section Limited

variable (hr : Limit n h r) (hchar : c ≠ ascii '$')

include hr hchar

/-- A character of a packet in text is stored below the limit. -/
theorem text_storesBelow_iff (hstate : r.state = .text) :
    StoresBelow n (r.receive c).receiver.buf ↔ StoresBelow n r.buf ∧ ¬ Overruns n h r c := by
  unfold receive Overruns
  rw [hstate]
  dsimp only
  split
  · rename_i hend
    exact (and_iff_left fun ho => ho.2.2.1 hend).symm
  split
  · rename_i hfull
    exact (and_iff_left fun ho => absurd ho.2.2.2.2 (not_lt.mpr hfull)).symm
  · rename_i hend hroom
    refine storesBelow_put.trans (and_comm.trans (and_congr_right fun _ => ?_))
    constructor
    · exact fun hlt ho => absurd hlt (not_lt.mpr ho.2.2.2.1)
    · intro hno
      by_contra hfull
      refine hno ⟨?_, hchar, hend, not_lt.mp hfull, not_le.mp hroom⟩
      by_contra hfew
      have hlimit := hr.limit (not_lt.mp hfew)
      omega

/-- A character of binary data is stored below the limit, with its second digit. -/
theorem binary_storesBelow_iff (hstate : r.state = .binary) :
    StoresBelow n (r.receive c).receiver.buf ↔ StoresBelow n r.buf ∧ ¬ Overruns n h r c := by
  have hmany : ¬ r.pktLen ≥ r.bufLen → n ≤ r.pktLen + 1 → n < h := by
    intro hroom hfull
    by_contra hfew
    have hlimit := hr.limit (not_lt.mp hfew)
    have hbegun := hr.begun (.inr hstate)
    omega
  have hputHex : ∀ x : Byte, ¬ r.pktLen ≥ r.bufLen →
      (r.escFound = true ∨ c ≠ ascii '}' ∧ c ≠ ascii '#') →
      (StoresBelow n (r.putHex x).buf ↔ StoresBelow n r.buf ∧ ¬ Overruns n h r c) := by
    intro x hroom hdata
    unfold Overruns
    rw [hstate]
    refine storesBelow_putHex.trans (and_comm.trans (and_congr_right fun _ => ?_))
    constructor
    · exact fun hlt ho => absurd hlt (not_lt.mpr ho.2.2.2.1)
    · intro hno
      by_contra hfull
      exact hno ⟨hmany hroom (not_lt.mp hfull), hchar, hdata, not_lt.mp hfull, not_le.mp hroom⟩
  have hskip : (Overruns n h r c → False) →
      (StoresBelow n r.buf ↔ StoresBelow n r.buf ∧ ¬ Overruns n h r c) := fun hno => (and_iff_left hno).symm
  have hoverruns : Overruns n h r c → r.pktLen < r.bufLen ∧
      (r.escFound = true ∨ c ≠ ascii '}' ∧ c ≠ ascii '#') := by
    unfold Overruns
    rw [hstate]
    exact fun ho => ⟨ho.2.2.2.2, ho.2.2.1⟩
  unfold receive
  rw [hstate]
  dsimp only
  split
  · rename_i hfull
    exact hskip fun ho => absurd (hoverruns ho).1 (not_lt.mpr hfull)
  rename_i hroom
  split
  · rename_i hesc
    exact hputHex _ hroom (.inl hesc)
  rename_i hesc
  split
  · rename_i hescape
    exact hskip fun ho => ((hoverruns ho).2.resolve_left hesc).1 hescape
  rename_i hescape
  split
  · rename_i hend
    exact hskip fun ho => ((hoverruns ho).2.resolve_left hesc).2 hend
  · rename_i hend
    exact hputHex _ hroom (.inr ⟨hescape, hend⟩)

omit hr in
/-- A character of a header is stored wherever it comes to. -/
theorem binaryHead_storesBelow_iff (hstate : r.state = .binaryHead) :
    StoresBelow n (r.receive c).receiver.buf ↔ StoresBelow n r.buf ∧ ¬ Overruns n h r c := by
  have hput : StoresBelow n (r.receive c).receiver.buf ↔ StoresBelow n (r.put c).buf := by
    unfold receive
    rw [hstate]
    dsimp only
    split <;> exact Iff.rfl
  rw [hput, storesBelow_put]
  unfold Overruns
  rw [hstate]
  refine and_comm.trans (and_congr_right fun _ => ?_)
  constructor
  · exact fun hlt ho => absurd hlt (not_lt.mpr ho.2)
  · exact fun hno => not_le.mp fun hfull => hno ⟨hchar, hfull⟩

omit hr hchar in
/-- The NUL behind a packet is stored wherever the packet ends. -/
theorem csum2_storesBelow_iff (hstate : r.state = .csum2) :
    StoresBelow n (r.receive c).receiver.buf ↔ StoresBelow n r.buf ∧ ¬ Overruns n h r c := by
  unfold receive Overruns
  rw [hstate]
  dsimp only
  cases hnib : rpHexNibble c with
  | none =>
    refine (and_iff_left ?_).symm
    rintro ⟨nib, hsome, -⟩
    cases hsome
  | some nib =>
    dsimp only
    split
    · rename_i hright
      refine storesBelow_set.trans (and_comm.trans (and_congr_right fun _ => ?_))
      constructor
      · rintro hlt ⟨nib', -, -, hfull⟩
        exact absurd hlt (not_lt.mpr hfull)
      · exact fun hno => not_le.mp fun hfull => hno ⟨nib, rfl, hright, hfull⟩
    · rename_i hwrong
      refine (and_iff_left ?_).symm
      rintro ⟨nib', hsome, hright, -⟩
      obtain rfl := Option.some.inj hsome
      exact hwrong hright

end Limited

/-- A step stores below `n` unless it overruns. -/
theorem receive_storesBelow_iff (hn : 6 < n) (hr : Limit n h r) (hc : r.state ≠ .start → c ≠ ascii '$') :
    StoresBelow n (r.receive c).receiver.buf ↔ StoresBelow n r.buf ∧ ¬ Overruns n h r c := by
  by_cases hs : r.state ∈ [ReceiverState.binaryHead, .csum2, .text, .binary]
  · have hchar : c ≠ ascii '$' := hc (by rintro hstart; simp [hstart] at hs)
    cases hstate : r.state with
    | text => exact text_storesBelow_iff hr hchar hstate
    | binaryHead => exact binaryHead_storesBelow_iff hchar hstate
    | binary => exact binary_storesBelow_iff hr hchar hstate
    | csum2 => exact csum2_storesBelow_iff hstate
    | _ => simp [hstate] at hs
  · rw [receive_storesBelow_head hn hr.head hs]
    refine (and_iff_left fun ho => hs ?_).symm
    unfold Overruns at ho
    cases hstate : r.state <;> simp_all

/-- The start of a packet overruns nothing. -/
theorem not_overruns_start (r : Receiver) : ¬ Overruns n h r (ascii '$') := by
  unfold Overruns
  cases r.state with
  | binaryHead => exact fun ho => ho.1 rfl
  | csum2 =>
    rintro ⟨nib, hsome, -⟩
    cases hsome
  | text => exact fun ho => ho.2.1 rfl
  | binary => exact fun ho => ho.2.1 rfl
  | _ => exact id

theorem step_storesBelow_iff (hn : 6 < n) (hr : Limit n h r) :
    StoresBelow n (r.step c).receiver.buf ↔ StoresBelow n r.buf ∧ ¬ Overruns n h r c := by
  unfold step
  split
  · rename_i hnew
    have hhead : r.restart.HeadBound := by
      change r.restart.pktLen = 0
      rfl
    rw [receive_storesBelow_head hn hhead (by simp [restart]), hnew.1]
    exact (and_iff_left (not_overruns_start r)).symm
  · rename_i hold
    exact receive_storesBelow_iff hn hr fun hstate hc => hold ⟨hc, hstate⟩

/-- The number of binary packets that have begun, after a step. -/
def begunAfter (r r' : Receiver) (h : Nat) : Nat :=
  if r.state = .fourth ∧ r'.state = .binaryHead then h + 1 else h

/-- A step keeps the limit, unless a binary packet begins. -/
theorem Limit.of_same (hr : Limit n h r) (hhead : r'.HeadBound) (hlen : r'.bufLen = r.bufLen)
    (hstate : r'.state = .binaryHead ∨ r'.state = .binary → r.state = .binaryHead ∨ r.state = .binary) :
    Limit n h r' :=
  ⟨hhead, fun hle => hlen.trans (hr.limit hle), fun hbinary => hr.begun (hstate hbinary)⟩

/-- Only the fourth character begins a binary packet. -/
theorem begunAfter_of_ne (h : Nat) (hs : r.state ≠ .fourth ∨ r'.state ≠ .binaryHead) : begunAfter r r' h = h :=
  if_neg fun hand => hs.elim (fun hne => hne hand.1) fun hne => hne hand.2

/-- In the other states nothing is said of the first characters. -/
theorem headBound_of_state (hs : r.state ∈ [ReceiverState.start, .text, .binaryHead, .binary, .csum1, .csum2]) :
    r.HeadBound := by
  unfold HeadBound
  cases hstate : r.state with
  | seq1 | seq2 | seqEnd | fourth => simp [hstate] at hs
  | _ => trivial

/-- In the states before and behind the fourth character no binary packet begins. -/
theorem Limit.receive_other (hr : Limit n h r) (hs : r.state ≠ .fourth) (hnext : r.receive c = .next r') :
    Limit n h r' := by
  have hhead := hr.head
  unfold HeadBound at hhead
  unfold Receiver.receive at hnext
  cases hstate : r.state with
  | start =>
    rw [hstate] at hnext
    dsimp only at hnext
    split_ifs at hnext
    · obtain rfl := Progress.next.inj hnext
      exact hr.of_same rfl rfl (by simp [restart])
    · obtain rfl := Progress.next.inj hnext
      exact hr
  | seq1 =>
    rw [hstate] at hnext hhead
    dsimp only at hnext hhead
    split_ifs at hnext <;> obtain rfl := Progress.next.inj hnext
    · exact hr.of_same trivial rfl (by simp)
    · exact hr.of_same (show r.pktLen + 1 ≤ 1 by omega) rfl (by simp)
  | seq2 =>
    rw [hstate] at hnext hhead
    dsimp only at hnext hhead
    split_ifs at hnext <;> obtain rfl := Progress.next.inj hnext
    · exact hr.of_same trivial rfl (by simp)
    · exact hr.of_same (show r.pktLen + 1 ≤ 2 by omega) rfl (by simp)
  | seqEnd =>
    rw [hstate] at hnext hhead
    dsimp only at hnext hhead
    split_ifs at hnext <;> obtain rfl := Progress.next.inj hnext
    · exact hr.of_same trivial rfl (by simp)
    · exact hr.of_same (show 0 ≤ 3 by decide) rfl (by simp)
    · exact hr.of_same (show r.pktLen + 1 ≤ 3 by omega) rfl (by simp)
  | fourth => exact absurd hstate hs
  | text =>
    rw [hstate] at hnext
    dsimp only at hnext
    split_ifs at hnext <;> obtain rfl := Progress.next.inj hnext
    · exact hr.of_same trivial rfl (by simp)
    · exact hr
    · refine hr.of_same (headBound_of_state ?_) rfl fun hbinary => hbinary
      change r.state ∈ _
      simp [hstate]
  | binaryHead =>
    rw [hstate] at hnext
    dsimp only at hnext
    split_ifs at hnext <;> obtain rfl := Progress.next.inj hnext
    · exact hr.of_same trivial rfl fun _ => .inl hstate
    · refine hr.of_same (headBound_of_state ?_) rfl fun hbinary => hbinary
      change r.state ∈ _
      simp [hstate]
  | binary =>
    have hbinary : r.state ∈ [ReceiverState.start, .text, .binaryHead, .binary, .csum1, .csum2] := by
      simp [hstate]
    rw [hstate] at hnext
    dsimp only at hnext
    split_ifs at hnext <;> obtain rfl := Progress.next.inj hnext
    · exact hr
    · exact hr.of_same (headBound_of_state hbinary) rfl fun _ => .inr hstate
    · exact hr.of_same (headBound_of_state hbinary) rfl fun _ => .inr hstate
    · exact hr.of_same trivial rfl (by simp)
    · exact hr.of_same (headBound_of_state hbinary) rfl fun _ => .inr hstate
  | csum1 =>
    rw [hstate] at hnext
    dsimp only at hnext
    split at hnext <;> obtain rfl := Progress.next.inj hnext <;> exact hr.of_same trivial rfl (by simp)
  | csum2 =>
    rw [hstate] at hnext
    dsimp only at hnext
    split at hnext
    · obtain rfl := Progress.next.inj hnext
      exact hr.of_same trivial rfl (by simp)
    · split at hnext
      · cases hnext
      · obtain rfl := Progress.next.inj hnext
        exact hr.of_same trivial rfl (by simp)

/-- The fourth character may begin a binary packet, for which the limit is made smaller. -/
theorem Limit.receive_fourth (hn : n < 2 ^ 64) (hr : Limit n h r) (hs : r.state = .fourth)
    (hnext : r.receive c = .next r') : Limit n (begunAfter r r' h) r' := by
  unfold Receiver.receive at hnext
  rw [hs] at hnext
  dsimp only at hnext
  split_ifs at hnext <;> obtain rfl := Progress.next.inj hnext
  · rw [begunAfter_of_ne h (.inr (by simp))]
    exact hr.of_same trivial rfl (by simp)
  · rw [begunAfter, if_pos ⟨hs, rfl⟩]
    refine ⟨trivial, fun hle => ?_, fun _ => Nat.succ_pos h⟩
    have hlimit := hr.limit (Nat.le_of_succ_le hle)
    change (r.bufLen + (2 ^ 64 - 1)) % 2 ^ 64 = _
    omega
  · rw [begunAfter_of_ne h (.inr (by simp))]
    exact hr.of_same trivial rfl (by simp)

/-- A step keeps what is known of the limit. -/
theorem Limit.step (hn : n < 2 ^ 64) (hr : Limit n h r) (hnext : r.step c = .next r') :
    Limit n (begunAfter r r' h) r' := by
  unfold Receiver.step at hnext
  split at hnext
  · rename_i hnew
    have hrestart : Limit n h r.restart := hr.of_same rfl rfl (by simp [restart])
    have hafter := hrestart.receive_other (by simp [restart]) hnext
    rw [hnew.1] at hnext
    obtain rfl := Progress.next.inj hnext
    rwa [begunAfter_of_ne h (.inr (by simp))]
  · by_cases hs : r.state = .fourth
    · exact hr.receive_fourth hn hs hnext
    · rw [begunAfter_of_ne h (.inl hs)]
      exact hr.receive_other hs hnext

end Receiver

/-- From a receiver and a number of binary packets that have begun, the loop comes to a character in
another receiver. -/
inductive Comes (blocking : Bool) : Receiver → Nat → List Arrival → Receiver → Nat → Byte → Prop
  | here {r : Receiver} {h : Nat} {c : Byte} {input : List Arrival} :
      Comes blocking r h (some c :: input) r h c
  | next {r r' r₁ : Receiver} {h h₁ : Nat} {c c₁ : Byte} {input : List Arrival} (goes : r.step c = .next r')
      (rest : Comes blocking r' (r.begunAfter r' h) input r₁ h₁ c₁) :
      Comes blocking r h (some c :: input) r₁ h₁ c₁
  | wait {r r₁ : Receiver} {h h₁ : Nat} {c₁ : Byte} {input : List Arrival}
      (waits : blocking ∨ r.state ≠ .start) (rest : Comes blocking r h input r₁ h₁ c₁) :
      Comes blocking r h (none :: input) r₁ h₁ c₁

variable {n : Nat}

/-- The loop stores below `n` exactly if no character that it comes to is stored behind. -/
theorem getpktFrom_storesBelow_iff (hsmall : 6 < n) (hlarge : n < 2 ^ 64) (blocking : Bool) {r : Receiver}
    {h : Nat} (hr : r.Limit n h) (input : List Arrival) :
    StoresBelow n (getpktFrom blocking r input).buf ↔ StoresBelow n r.buf ∧
      ∀ r₁ h₁ c₁, Comes blocking r h input r₁ h₁ c₁ → ¬ r₁.Overruns n h₁ c₁ := by
  induction input generalizing r h with
  | nil =>
    refine (and_iff_left ?_).symm
    rintro r₁ h₁ c₁ ⟨⟩
  | cons a input ih =>
    cases a with
    | none =>
      rw [getpktFrom]
      by_cases hwait : blocking ∨ r.state ≠ .start
      · rw [if_pos hwait, ih hr]
        refine and_congr_right fun _ => ⟨fun hrest r₁ h₁ c₁ hcomes => ?_, fun hall r₁ h₁ c₁ hcomes =>
          hall r₁ h₁ c₁ (.wait hwait hcomes)⟩
        cases hcomes with
        | wait _ rest => exact hrest r₁ h₁ c₁ rest
      · rw [if_neg hwait]
        refine (and_iff_left ?_).symm
        rintro r₁ h₁ c₁ (_ | _ | ⟨hwaits, -⟩)
        exact absurd hwaits hwait
    | some c =>
      have hstores := Receiver.step_storesBelow_iff (c := c) hsmall hr
      rw [getpktFrom]
      cases hstep : r.step c with
      | next r' =>
        rw [hstep] at hstores
        dsimp only
        rw [ih (hr.step hlarge hstep)]
        change StoresBelow n r'.buf ↔ _ at hstores
        rw [hstores, and_assoc]
        refine and_congr_right fun _ => ⟨?_, fun hall => ⟨hall r h c .here, fun r₁ h₁ c₁ hcomes =>
          hall r₁ h₁ c₁ (.next hstep hcomes)⟩⟩
        rintro ⟨hfirst, hrest⟩ r₁ h₁ c₁ hcomes
        cases hcomes with
        | here => exact hfirst
        | next goes rest =>
          obtain rfl := Progress.next.inj (hstep.symm.trans goes)
          exact hrest r₁ h₁ c₁ rest
      | done ret r' sent =>
        rw [hstep] at hstores
        refine hstores.trans (and_congr_right fun _ => ⟨fun hfirst r₁ h₁ c₁ hcomes => ?_, fun hall =>
          hall r h c .here⟩)
        cases hcomes with
        | here => exact hfirst
        | next goes => cases hstep.symm.trans goes

/-- A call with a buffer of `n` bytes stores inside it exactly if it comes to no character that is stored
behind. -/
theorem rpGetpkt_storesBelow_iff (hsmall : 6 < n) (hlarge : n < 2 ^ 64) (blocking : Bool) (buf : Nat → Byte)
    (input : List Arrival) : StoresBelow n (rpGetpkt blocking n ⟨buf, []⟩ input).buf ↔
      ∀ r h c, Comes blocking (.fresh n ⟨buf, []⟩) 0 input r h c → ¬ r.Overruns n h c := by
  have hfresh : (Receiver.fresh n ⟨buf, []⟩).Limit n 0 :=
    ⟨trivial, fun _ => rfl, fun hbinary => by simp [Receiver.fresh] at hbinary⟩
  refine (getpktFrom_storesBelow_iff hsmall hlarge blocking hfresh input).trans ?_
  exact and_iff_right fun i hi => absurd hi List.not_mem_nil

/-- A request for four bytes of the memory, which the call stores up to its NUL. -/
def readPacket : List Arrival :=
  ([ascii '$', ascii 'm', ascii '0', ascii ',', ascii '4', ascii '#', ascii 'f', ascii 'd'].map some)

/-- The call stores the characters of the packet and the NUL, and none behind the buffer. -/
theorem rpGetpkt_storesBelow_packet :
    (rpGetpkt true 7 ⟨fun _ => 0, []⟩ readPacket).buf.stored = [4, 3, 2, 1, 0] ∧
      ∀ r h c, Comes true (.fresh 7 ⟨fun _ => 0, []⟩) 0 readPacket r h c → ¬ r.Overruns 7 h c := by
  have hstored : (rpGetpkt true 7 ⟨fun _ => 0, []⟩ readPacket).buf.stored = [4, 3, 2, 1, 0] := by decide
  refine ⟨hstored, ?_⟩
  refine (rpGetpkt_storesBelow_iff (by decide) (by decide) true (fun _ => 0) readPacket).mp ?_
  rw [StoresBelow, hstored]
  decide

/-- The header of a binary packet that goes on behind the buffer. -/
theorem not_storesBelow_header : ¬ StoresBelow 7 (rpGetpkt true 7 ⟨fun _ => 0, []⟩
    ([ascii '$', ascii 'X', ascii '0', ascii '0', ascii '0', ascii '0', ascii '0', ascii '0',
      ascii '0'].map some)).buf := by
  intro hbelow
  exact absurd (hbelow 7 (by decide)) (by decide)

end Mcprog
