import Mcprog.Adapter.MpsseChip
import Mcprog.Adapter.OncdWrite

/-!
# Blocks read through the MPSSE adapter

`mpsse_read_block` sends the packets for ten words at a time and takes the words from one reply
to all of them. The library delivers the reply in pieces. However they are cut, the words are
those of the memory, and the buffers are large enough.
-/

namespace Mcprog

open Interaction Cells Jtag

variable {σ τ : Type} (pipe : BulkPipe σ)

/-- The packets for one word. -/
def mpsseLoad (fuel : Nat) (addr : Word) : UsbAction MpssePort σ Unit := do
  mpsseOncdWrite pipe fuel addr (BitVec.ofNat 32 oncdOmar) 32
  mpsseOncdWrite pipe fuel 0 (BitVec.ofNat 32 oncdMem) 0
  mpsseSend pipe fuel 0 0 (9 + 32) (BitVec.ofNat 64 (oncdOmdr ||| irdRead)) true

/-- The packets for the words from the `i`-th one on. -/
def mpsseLoads (fuel : Nat) (addr : Word) : Nat → (i : Nat) → UsbAction MpssePort σ Unit
  | 0, _ => pure ()
  | left + 1, i => do
    mpsseLoad pipe fuel (addr + BitVec.ofNat 32 (i * 4))
    mpsseLoads fuel addr left (i + 1)

/-- The words of the reply from the `i`-th one on. -/
def mpsseWordsFrom : Nat → (i : Nat) → UsbAction MpssePort σ (List Word)
  | 0, _ => pure []
  | left + 1, i => do
    let a ← getOwn
    if i * a.bytesPerWord + 8 > mpsseInputSize then
      Program.stop .overrun
    else
      let word := mpsseFixData a (loadWord a.input (i * a.bytesPerWord)) >>> 9
      let words ← mpsseWordsFrom left (i + 1)
      return word.setWidth 32 :: words

/-- The words, ten at a time. -/
def mpsseBatches (fuel : Nat) : Nat → (nwords : Nat) → (addr : Word) → UsbAction MpssePort σ (List Word)
  | 0, nwords, _ => if nwords > 0 then Program.stop .fuel else pure []
  | rounds + 1, nwords, addr => do
    if nwords > 0 then
      let n := if nwords > 10 then 10 else nwords
      mpsseLoads pipe fuel addr n 0
      mpsseFlushOutput pipe fuel
      let words ← mpsseWordsFrom n 0
      let more ← mpsseBatches fuel rounds (nwords - n) (addr + BitVec.ofNat 32 (n * 4))
      return words ++ more
    else pure []

/-- `mpsse_read_block`, with the cached control register of the adapter before and after it. -/
def mpsseBlock (fuel : Nat) (oscr nwords addr : Word) : UsbAction MpssePort σ (Word × List Word) := do
  let oscrNew := oscr ||| oscrSlctMem ||| oscrRo
  if oscrNew ≠ oscr then
    mpsseOncdWrite pipe fuel oscrNew (BitVec.ofNat 32 oncdOscr) 32
  mpsseFlushOutput pipe fuel
  let words ← mpsseBatches pipe fuel fuel nwords.toNat addr
  return (oscrNew, words)

variable {pipe}

/-- Behind the pipe there is the chip. What it sends back waits until it is delivered, in pieces
behind two status bytes each, and sooner or later some of it comes. -/
structure BulkPipe.Replies (pipe : BulkPipe σ) (R : DataRegister τ) (view : σ → Chip τ × List Byte) :
    Prop where
  write : ∀ bytes s, (pipe.write bytes s).1 = some bytes.length ∧
    ∃ reply, (view s).1.Runs R bytes (view (pipe.write bytes s).2).1 reply ∧
      (view (pipe.write bytes s).2).2 = (view s).2 ++ reply
  read : ∀ size s, 2 ≤ size → ∃ status data, (pipe.read size s).1 = some (status ++ data) ∧
    status.length = 2 ∧ (view s).2 = data ++ (view (pipe.read size s).2).2 ∧
      (view (pipe.read size s).2).1 = (view s).1
  delivers : ∀ size s, 2 < size → (view s).2 ≠ [] →
    ∃ n, (view ((fun s => (pipe.read size s).2)^[n] s)).2 ≠ (view s).2

variable {R : DataRegister τ} {view : σ → Chip τ × List Byte}

/-- Enough fuel for a loop is enough for it with more fuel. -/
def Eventually {α : Type} (m : Nat → UsbAction MpssePort σ α) (a : Attached MpssePort σ) (r : α)
    (a' : Attached MpssePort σ) : Prop :=
  ∃ enough, ∀ fuel ≥ enough, (m fuel).Reaches a r a'

/-- Two parts that each need enough fuel. -/
theorem Eventually.bind {α β : Type} {m : Nat → UsbAction MpssePort σ α}
    {f : Nat → α → UsbAction MpssePort σ β} {a a₁ a' : Attached MpssePort σ} {r : α} {r' : β}
    (hm : Eventually m a r a₁) (hf : Eventually (fun fuel => f fuel r) a₁ r' a') :
    Eventually (fun fuel => m fuel >>= f fuel) a r' a' := by
  obtain ⟨n, hn⟩ := hm
  obtain ⟨k, hk⟩ := hf
  refine ⟨max n k, fun fuel hfuel => ?_⟩
  exact (hn fuel ((le_max_left n k).trans hfuel)).bind (hk fuel ((le_max_right n k).trans hfuel))

theorem eventually_of_reaches {α : Type} {m : Nat → UsbAction MpssePort σ α} {a a' : Attached MpssePort σ}
    {r : α} (h : ∀ fuel, (m fuel).Reaches a r a') : Eventually m a r a' := ⟨0, fun fuel _ => h fuel⟩

/-- The reply is complete. -/
theorem reaches_mpsseReply_done {fuel bytesRead : Nat} {a : Attached MpssePort σ}
    (h : a.own.bytesToRead ≤ bytesRead) : (mpsseReply pipe fuel bytesRead).Reaches a () a := by
  have hnot : ¬ bytesRead < a.own.bytesToRead := Nat.not_lt.mpr h
  cases fuel with
  | zero =>
    refine getOwn_returns.reaches.bind ?_
    rw [if_neg hnot]
    exact Program.reaches_pure _ _
  | succ fuel =>
    refine getOwn_returns.reaches.bind ?_
    rw [if_neg hnot]
    exact Program.reaches_pure _ _

/-- One more piece of the reply. -/
theorem reaches_mpsseReply_step {fuel bytesRead : Nat} {a : Attached MpssePort σ} {status data : List Byte}
    {s' : σ} {own' : MpssePort} {a' : Attached MpssePort σ} (hmore : bytesRead < a.own.bytesToRead)
    (hroom : a.own.bytesToRead + 2 ≤ mpsseInputSize) (hstatus : status.length = 2)
    (hlen : bytesRead + data.length ≤ a.own.bytesToRead)
    (hread : pipe.read (a.own.bytesToRead - bytesRead + 2) a.usb = (some (status ++ data), s'))
    (hown : own' = { a.own with input := store a.own.input bytesRead data })
    (h : (mpsseReply pipe fuel (bytesRead + data.length)).Reaches ⟨own', s'⟩ () a') :
    (mpsseReply pipe (fuel + 1) bytesRead).Reaches a () a' := by
  have hbulk : (usbBulkRead pipe (a.own.bytesToRead - bytesRead + 2)).Reaches a (some (status ++ data))
      ⟨a.own, s'⟩ := Program.reaches_request (by rw [hread])
  have hsize : (status ++ data).length = 2 + data.length := by rw [List.length_append, hstatus]
  refine getOwn_returns.reaches.bind ?_
  rw [if_pos hmore]
  refine hbulk.bind ?_
  dsimp only
  rw [if_neg (by omega)]
  rcases Nat.eq_zero_or_pos data.length with hzero | hpos
  · rw [if_neg (by omega)]
    rw [List.length_eq_zero_iff.mp hzero, store_nil] at hown
    rw [hzero, hown] at h
    exact h
  · have hdrop : (status ++ data).drop 2 = data := List.drop_left' hstatus
    have hcount : (status ++ data).length - 2 = data.length := by omega
    rw [if_pos (by omega), if_neg (by omega), hdrop, hcount]
    refine (setOwn_returns (a := ⟨a.own, s'⟩) fun own : MpssePort =>
      { own with input := store own.input bytesRead data }).reaches.bind ?_
    rwa [hown] at h

/-- However the reply is cut, all of it is stored. -/
theorem BulkPipe.Replies.mpsseReply (h : pipe.Replies R view) (a : Attached MpssePort σ) (bytesRead : Nat)
    (hcount : bytesRead + (view a.usb).2.length = a.own.bytesToRead)
    (hroom : a.own.bytesToRead + 2 ≤ mpsseInputSize) :
    ∃ s', view s' = ((view a.usb).1, []) ∧ Eventually (fun fuel => mpsseReply pipe fuel bytesRead) a ()
      ⟨{ a.own with input := store a.own.input bytesRead (view a.usb).2 }, s'⟩ := by
  induction hk : (view a.usb).2.length using Nat.strong_induction_on generalizing a bytesRead with
  | _ k ih =>
    obtain ⟨own, s⟩ := a
    dsimp only at hcount hroom hk ⊢
    by_cases hempty : (view s).2 = []
    · refine ⟨s, by rw [← hempty], eventually_of_reaches fun fuel => ?_⟩
      rw [hempty, store_nil]
      rw [hempty, List.length_nil, Nat.add_zero] at hcount
      exact reaches_mpsseReply_done hcount.ge
    · have hpos : 0 < (view s).2.length := List.length_pos_iff.mpr hempty
      obtain ⟨n, hn⟩ := h.delivers (own.bytesToRead - bytesRead + 2) s (by omega) hempty
      -- on the number of reads until some of the reply comes
      induction n generalizing s with
      | zero => exact absurd rfl hn
      | succ n ihn =>
        obtain ⟨status, data, hread, hstatus, hpending, hchip⟩ :=
          h.read (own.bytesToRead - bytesRead + 2) s (by omega)
        obtain ⟨s₁, hs₁⟩ : ∃ s₁, s₁ = (pipe.read (own.bytesToRead - bytesRead + 2) s).2 := ⟨_, rfl⟩
        rw [← hs₁] at hpending hchip
        have hlen := congrArg List.length hpending
        rw [List.length_append] at hlen
        obtain ⟨s', hview, enough, henough⟩ : ∃ s', view s' = ((view s).1, []) ∧
            Eventually (fun fuel => Mcprog.mpsseReply pipe fuel (bytesRead + data.length))
              ⟨{ own with input := store own.input bytesRead data }, s₁⟩ ()
              ⟨{ own with input := store own.input bytesRead (view s).2 }, s'⟩ := by
          rcases Nat.eq_zero_or_pos data.length with hzero | hsome
          · obtain rfl := List.length_eq_zero_iff.mp hzero
            rw [List.nil_append] at hpending
            rw [Function.iterate_succ_apply, ← hs₁, hpending] at hn
            rw [List.length_nil, Nat.add_zero, store_nil, hpending, ← hchip]
            exact ihn s₁ (by rw [← hpending]; exact hcount) (by rw [← hpending]; exact hk)
              (by rwa [← hpending]) (by rwa [← hpending]) hn
          · obtain ⟨s', hview, hreply⟩ := ih (view s₁).2.length (by omega)
              ⟨{ own with input := store own.input bytesRead data }, s₁⟩ (bytesRead + data.length)
              (by dsimp only; omega) hroom rfl
            dsimp only at hview hreply
            rw [hchip] at hview
            rw [store_append, ← hpending] at hreply
            exact ⟨s', hview, hreply⟩
        refine ⟨s', hview, enough + 1, fun fuel hfuel => ?_⟩
        obtain ⟨fuel, rfl⟩ := Nat.exists_eq_succ_of_ne_zero (show fuel ≠ 0 by omega)
        exact reaches_mpsseReply_step (by dsimp only; omega) hroom hstatus (by dsimp only; omega)
          (Prod.ext hread hs₁.symm) rfl (henough fuel (by omega))

/-- The port when nothing waits any more and the reply has come. -/
def MpssePort.replied (own : MpssePort) (reply : List Byte) : MpssePort :=
  { own with output := [], input := store own.input 0 reply, bytesToRead := 0 }

/-- A flush lets the chip take what waits, and stores its reply. -/
theorem BulkPipe.Replies.mpsseFlushOutput (h : pipe.Replies R view) (a : Attached MpssePort σ)
    (hpending : (view a.usb).2 = []) :
    ∃ chip reply, (view a.usb).1.Runs R a.own.output chip reply ∧
      (reply.length = a.own.bytesToRead → a.own.bytesToRead + 2 ≤ mpsseInputSize →
        ∃ s', view s' = (chip, []) ∧
          Eventually (fun fuel => mpsseFlushOutput pipe fuel) a () ⟨a.own.replied reply, s'⟩) := by
  obtain ⟨own, s⟩ := a
  dsimp only at hpending ⊢
  by_cases hempty : own.output = []
  · refine ⟨(view s).1, [], by rw [hempty]; exact .done _, fun hlen _ => ⟨s, by rw [← hpending], ?_⟩⟩
    have hown : own.replied [] = own := by
      rw [MpssePort.replied, store_nil, ← hempty, show 0 = own.bytesToRead from hlen]
    rw [hown]
    refine eventually_of_reaches fun fuel => getOwn_returns.reaches.bind ?_
    rw [if_pos hempty]
    exact Program.reaches_pure _ _
  · obtain ⟨hwrite, reply, hruns, hsent⟩ := h.write own.output s
    obtain ⟨s₁, hs₁⟩ : ∃ s₁, s₁ = (pipe.write own.output s).2 := ⟨_, rfl⟩
    rw [← hs₁] at hruns hsent
    rw [hpending, List.nil_append] at hsent
    refine ⟨(view s₁).1, reply, hruns, fun hlen hroom => ?_⟩
    have hbulk : (bulkWrite pipe own.output).Reaches ⟨own, s⟩ () ⟨own, s₁⟩ := by
      refine Program.Reaches.bind (a := some own.output.length) (Program.reaches_request ?_)
        (Program.reaches_pure () _)
      rw [hwrite, hs₁]
    have hclear := setOwn_returns (a := ⟨own, s₁⟩) fun own : MpssePort => { own with output := [] }
    rcases Nat.eq_zero_or_pos own.bytesToRead with hzero | hpos
    · obtain rfl : reply = [] := List.length_eq_zero_iff.mp (hlen.trans hzero)
      refine ⟨s₁, by rw [← hsent], eventually_of_reaches fun fuel => getOwn_returns.reaches.bind ?_⟩
      have hown : own.replied [] = { own with output := [] } := by
        rw [MpssePort.replied, store_nil, ← hzero]
      rw [if_neg hempty, hown]
      refine hbulk.bind (hclear.reaches.bind ?_)
      rw [if_pos hzero]
      exact Program.reaches_pure _ _
    · obtain ⟨s', hview, enough, henough⟩ := h.mpsseReply ⟨{ own with output := [] }, s₁⟩ 0
        (by rw [Nat.zero_add, hsent]; exact hlen) hroom
      refine ⟨s', hview, enough, fun fuel hfuel => getOwn_returns.reaches.bind ?_⟩
      rw [if_neg hempty]
      refine hbulk.bind (hclear.reaches.bind ?_)
      rw [if_neg hpos.ne']
      refine (henough fuel hfuel).bind ?_
      rw [hsent]
      exact (setOwn_returns _).reaches

/-- A register without data behind its number. -/
def noData : RegLen := ⟨0, Or.inl rfl⟩

/-- A register of 32 bits. -/
def wholeWord : RegLen := ⟨32, Or.inr (Or.inr (Or.inr rfl))⟩

/-- The number of the data register, with the flag for a read. -/
def omdrRead : BitVec 64 := BitVec.ofNat 64 (oncdOmdr ||| irdRead)

/-- The flags of the control register under which an access to the memory is a read. -/
def reads (oscr : Word) : Prop := oscr &&& (oscrSlctMem ||| oscrRo) = oscrSlctMem ||| oscrRo

/-- The registers of the debug unit through which the memory is read. -/
structure DebugUnit (R : DataRegister τ) (mem : Word → Word) where
  oscr : τ → Word
  omar : τ → Word
  omdr : τ → Word
  oscr_write : ∀ t val, oscr (R.update t (oncdWriteBits val (BitVec.ofNat 32 oncdOscr) wholeWord)) = val
  omar_write : ∀ t val, omar (R.update t (oncdWriteBits val (BitVec.ofNat 32 oncdOmar) wholeWord)) = val ∧
    oscr (R.update t (oncdWriteBits val (BitVec.ofNat 32 oncdOmar) wholeWord)) = oscr t
  mem_access : ∀ t, reads (oscr t) →
    omdr (R.update t (oncdWriteBits 0 (BitVec.ofNat 32 oncdMem) noData)) = mem (omar t) ∧
      oscr (R.update t (oncdWriteBits 0 (BitVec.ofNat 32 oncdMem) noData)) = oscr t
  omdr_read : ∀ t i, i < 32 → R.out t (lowBits omdrRead (9 + i)) = (omdr t).getLsbD i
  oscr_read : ∀ t, oscr (R.update t (lowBits omdrRead 41)) = oscr t

/-- A register write. -/
structure RegWrite where
  value : Word
  reg : Word
  reglen : RegLen

/-- The bits that it shifts. -/
def RegWrite.bits (w : RegWrite) : List Bool := oncdWriteBits w.value w.reg w.reglen

/-- The commands of its packet. -/
def RegWrite.commands (w : RegWrite) : List Byte :=
  sendCommands (9 + w.reglen.val) (oncdWriteData w.value w.reg w.reglen.val) false

/-- What the unit comes to by register writes. -/
def updates (R : DataRegister τ) (t : τ) (writes : List RegWrite) : τ :=
  writes.foldl (fun t w => R.update t w.bits) t

variable {mem : Word → Word} {U : DebugUnit R mem} {c c' : Chip τ} {rest reply : List Byte}

/-- After an update of the data register the port may rest. -/
theorem rests_updateDr : TapState.Rests .updateDr := .inr (.inl rfl)

/-- The chip takes a register write. -/
theorem Chip.Runs.write {w : RegWrite} (hrests : c.chain.tap.Rests)
    (h : c.Runs R (w.commands ++ rest) c' reply) :
    ∃ c₁ : Chip τ, c₁.chain.tap.Rests ∧ c₁.chain.held = R.update c.chain.held w.bits ∧ c₁.Runs R rest c' reply := by
  have hlen := w.reglen.property
  obtain ⟨c₁, sent, more, rfl, htap, hheld, hsent, -, hmore⟩ := h.packet _ (by omega) (by omega) hrests
  obtain rfl : sent = [] := List.length_eq_zero_iff.mp hsent
  refine ⟨c₁, by rw [htap]; exact rests_updateDr, ?_, hmore⟩
  rw [hheld, lowBits_oncdWriteData]
  rfl

/-- The chip takes the register writes one after the other. -/
theorem Chip.Runs.writes {writes : List RegWrite} (hrests : c.chain.tap.Rests)
    (h : c.Runs R (writes.flatMap RegWrite.commands ++ rest) c' reply) :
    ∃ c₁ : Chip τ, c₁.chain.tap.Rests ∧ c₁.chain.held = updates R c.chain.held writes ∧ c₁.Runs R rest c' reply := by
  induction writes generalizing c with
  | nil => exact ⟨c, hrests, rfl, h⟩
  | cons w writes ih =>
    rw [List.flatMap_cons, List.append_assoc] at h
    obtain ⟨c₁, hrests₁, hheld₁, h₁⟩ := h.write hrests
    obtain ⟨c₂, hrests₂, hheld₂, h₂⟩ := ih hrests₁ h₁
    exact ⟨c₂, hrests₂, by rw [hheld₂, hheld₁]; rfl, h₂⟩

theorem Chip.Runs.nil (h : c.Runs R [] c' reply) : c' = c ∧ reply = [] := by
  cases h with
  | done => exact ⟨rfl, rfl⟩

/-- Between two methods register writes may wait in the buffer. Once they have taken effect `P`
holds of the unit. -/
structure Idle (R : DataRegister τ) (view : σ → Chip τ × List Byte) (P : τ → Prop)
    (a : Attached MpssePort σ) : Prop where
  bytesToRead : a.own.bytesToRead = 0
  output_le : a.own.output.length ≤ mpsseSize
  pending : (view a.usb).2 = []
  rests : (view a.usb).1.chain.tap.Rests
  waiting : ∃ writes : List RegWrite, a.own.output = writes.flatMap RegWrite.commands ∧
    P (updates R (view a.usb).1.chain.held writes)

variable {P Q : τ → Prop} {a : Attached MpssePort σ}

/-- A flush lets what waits take effect. -/
theorem Idle.flush (h : pipe.Replies R view) (hidle : Idle R view P a) :
    ∃ a', Eventually (fun fuel => mpsseFlushOutput pipe fuel) a () a' ∧ Idle R view P a' ∧
      a'.own.output = [] ∧ P (view a'.usb).1.chain.held := by
  obtain ⟨writes, hwrites, hP⟩ := hidle.waiting
  obtain ⟨chip, reply, hruns, hflush⟩ := h.mpsseFlushOutput a hidle.pending
  rw [hwrites, ← List.append_nil (writes.flatMap _)] at hruns
  obtain ⟨c₁, hrests, hheld, hruns₁⟩ := hruns.writes hidle.rests
  obtain ⟨rfl, rfl⟩ := hruns₁.nil
  obtain ⟨s', hview, heventually⟩ := hflush hidle.bytesToRead.symm (by rw [hidle.bytesToRead]; decide)
  rw [← hheld] at hP
  refine ⟨_, heventually, ⟨rfl, Nat.zero_le _, by rw [hview], by rw [hview]; exact hrests, [], rfl, ?_⟩, rfl, ?_⟩
  · rw [hview]
    exact hP
  · rw [hview]
    exact hP

/-- A register write waits behind the others. -/
theorem Idle.oncdWrite (h : pipe.Replies R view) (w : RegWrite) (hP : ∀ t, P t → Q (R.update t w.bits))
    (hidle : Idle R view P a) :
    ∃ a', Eventually (fun fuel => mpsseOncdWrite pipe fuel w.value w.reg w.reglen.val) a () a' ∧
      Idle R view Q a' := by
  have hlen := w.reglen.property
  have hsize : mpsseSize = 4096 := rfl
  have hput (a : Attached MpssePort σ) (hidle : Idle R view P a)
      (hroom : a.own.output.length ≤ mpsseSize - 23) :
      ∃ a', (∀ fuel, (mpsseOncdWrite pipe fuel w.value w.reg w.reglen.val).Reaches a () a') ∧
        Idle R view Q a' := by
    refine ⟨_, fun fuel => reaches_mpsseSend (by omega) (by omega) _ false hroom, hidle.bytesToRead, ?_,
      hidle.pending, hidle.rests, ?_⟩
    · have hcommands := length_sendCommands (show 9 + w.reglen.val ≤ 64 by omega)
        (oncdWriteData w.value w.reg w.reglen.val) false
      have houtput : (a.own.sent (9 + w.reglen.val) (oncdWriteData w.value w.reg w.reglen.val) false).output =
          a.own.output ++ w.commands := rfl
      dsimp only
      rw [houtput, List.length_append, RegWrite.commands]
      omega
    · obtain ⟨writes, hwrites, hheld⟩ := hidle.waiting
      refine ⟨writes ++ [w], ?_, ?_⟩
      · rw [List.flatMap_append, List.flatMap_singleton, ← hwrites]
        rfl
      · rw [updates, List.foldl_append]
        exact hP _ hheld
  rcases Nat.lt_or_ge (mpsseSize - 23) a.own.output.length with hfull | hroom
  · obtain ⟨a₁, ⟨enough, hflush⟩, hidle₁, hempty, -⟩ := hidle.flush h
    have hroom : a₁.own.output.length ≤ mpsseSize - 23 := by rw [hempty]; exact Nat.zero_le _
    obtain ⟨a', hreaches, hidle'⟩ := hput a₁ hidle₁ hroom
    exact ⟨a', ⟨enough, fun fuel hfuel =>
      reaches_mpsseSend_full hfull (hflush fuel hfuel) hroom (hreaches fuel)⟩, hidle'⟩
  · obtain ⟨a', hreaches, hidle'⟩ := hput a hidle hroom
    exact ⟨a', eventually_of_reaches hreaches, hidle'⟩

/-- The commands of the packets for one word. -/
def loadCommands (addr : Word) : List Byte :=
  RegWrite.commands ⟨addr, BitVec.ofNat 32 oncdOmar, wholeWord⟩ ++
    (RegWrite.commands ⟨0, BitVec.ofNat 32 oncdMem, noData⟩ ++ sendCommands 41 omdrRead true)

/-- The commands of the packets for the words from the `i`-th one on. -/
def loadsCommands (addr : Word) : Nat → (i : Nat) → List Byte
  | 0, _ => []
  | left + 1, i => loadCommands (addr + BitVec.ofNat 32 (i * 4)) ++ loadsCommands addr left (i + 1)

/-- The port waits for so many more words, behind more commands. -/
structure Loaded (own own' : MpssePort) (n : Nat) (commands : List Byte) : Prop where
  output : own'.output = own.output ++ commands
  bytesToRead : own'.bytesToRead = own.bytesToRead + 6 * n
  expects : 0 < n → own'.Expects 41

theorem length_loadCommands (addr : Word) : (loadCommands addr).length ≤ 60 := by
  have h₁ := length_sendCommands (show 9 + 32 ≤ 64 by decide)
    (oncdWriteData addr (BitVec.ofNat 32 oncdOmar) 32) false
  have h₂ := length_sendCommands (show 9 + 0 ≤ 64 by decide)
    (oncdWriteData 0 (BitVec.ofNat 32 oncdMem) 0) false
  have h₃ := length_sendCommands (show 41 ≤ 64 by decide) omdrRead true
  rw [loadCommands, List.length_append, List.length_append]
  unfold RegWrite.commands
  dsimp only [wholeWord, noData]
  omega

/-- The packets for one word go into the buffer. -/
theorem reaches_mpsseLoad (pipe : BulkPipe σ) (addr : Word)
    (hroom : a.own.output.length + 60 ≤ mpsseSize - 23) :
    ∃ own', (∀ fuel, (mpsseLoad pipe fuel addr).Reaches a () ⟨own', a.usb⟩) ∧
      Loaded a.own own' 1 (loadCommands addr) := by
  have hlen₁ := length_sendCommands (show 9 + 32 ≤ 64 by decide)
    (oncdWriteData addr (BitVec.ofNat 32 oncdOmar) 32) false
  have hlen₂ := length_sendCommands (show 9 + 0 ≤ 64 by decide)
    (oncdWriteData 0 (BitVec.ofNat 32 oncdMem) 0) false
  refine ⟨_, fun _ => (reaches_mpsseSend (by decide) (by decide) _ false ?_).bind
    ((reaches_mpsseSend (by decide) (by decide) _ false ?_).bind
      (reaches_mpsseSend (by decide) (by decide) _ true ?_)), ?_, ?_, fun _ => MpssePort.expects_sent _ _ _⟩
  · omega
  · rw [MpssePort.output_sent, List.length_append]
    omega
  · rw [MpssePort.output_sent, MpssePort.output_sent, List.length_append, List.length_append]
    omega
  · rw [MpssePort.output_sent, MpssePort.output_sent, MpssePort.output_sent, List.append_assoc, List.append_assoc]
    rfl
  · rw [MpssePort.bytesToRead_sent, MpssePort.bytesToRead_sent, MpssePort.bytesToRead_sent]
    rfl

/-- The packets for the words of a batch go into the buffer. -/
theorem reaches_mpsseLoads (pipe : BulkPipe σ) (addr : Word) (n i : Nat)
    (hroom : a.own.output.length + 60 * n ≤ mpsseSize - 23) :
    ∃ own', (∀ fuel, (mpsseLoads pipe fuel addr n i).Reaches a () ⟨own', a.usb⟩) ∧
      Loaded a.own own' n (loadsCommands addr n i) := by
  induction n generalizing a i with
  | zero =>
    refine ⟨a.own, fun _ => Program.reaches_pure _ _, ?_, rfl, fun h => absurd h (Nat.lt_irrefl 0)⟩
    exact (List.append_nil _).symm
  | succ n ih =>
    have hlen := length_loadCommands (addr + BitVec.ofNat 32 (i * 4))
    obtain ⟨own₁, h₁, hloaded₁⟩ := reaches_mpsseLoad pipe (addr + BitVec.ofNat 32 (i * 4))
      (a := a) (by omega)
    have hroom₁ : own₁.output.length + 60 * n ≤ mpsseSize - 23 := by
      rw [hloaded₁.output, List.length_append]
      omega
    obtain ⟨own', h', hloaded'⟩ := ih (a := ⟨own₁, a.usb⟩) (i + 1) hroom₁
    refine ⟨own', fun fuel => (h₁ fuel).bind (h' fuel), ?_, ?_, fun _ => ?_⟩
    · rw [hloaded'.output, hloaded₁.output, List.append_assoc]
      rfl
    · rw [hloaded'.bytesToRead, hloaded₁.bytesToRead]
      omega
    · rcases Nat.eq_zero_or_pos n with rfl | hpos
      · -- the last word: nothing was sent behind it
        obtain ⟨-, hsame⟩ := (Program.reaches_pure () _).unique (h' 0)
        rw [← (Attached.mk.inj hsame).1]
        exact hloaded₁.expects Nat.one_pos
      · exact hloaded'.expects hpos

/-- A reply with a word behind the number of its register. -/
def CarriesWord (w : Word) (reply : Nat → Byte) : Prop :=
  ∃ t, CarriesBits t 41 reply ∧ ∀ i < 32, t (9 + i) = w.getLsbD i

/-- Only six bytes of the reply count. -/
theorem CarriesWord.congr {w : Word} {reply reply' : Nat → Byte} (h : CarriesWord w reply)
    (heq : ∀ i < 6, reply i = reply' i) : CarriesWord w reply' := by
  obtain ⟨t, hbits, ht⟩ := h
  refine ⟨t, ⟨fun i hi => ?_, fun i hi => absurd hi (Nat.not_lt_zero i), ?_⟩, ht⟩
  · have hi' : i / 8 < 6 := by omega
    rw [← heq _ hi']
    exact hbits.whole i hi
  · rw [← heq _ (show replyBytes 41 < 6 by decide)]
    exact hbits.last

/-- The masks take the word from the reply. -/
theorem CarriesWord.fixData {w : Word} {own : MpssePort} {pos : Nat} (hown : own.Expects 41)
    (h : CarriesWord w fun i => own.input (pos + i)) :
    (mpsseFixData own (loadWord own.input pos) >>> 9).setWidth 32 = w := by
  obtain ⟨t, hbits, ht⟩ := h
  apply BitVec.eq_of_getLsbD_eq
  intro i hi
  rw [BitVec.getLsbD_setWidth, decide_eq_true hi, Bool.true_and, BitVec.getLsbD_ushiftRight,
    hown.getLsbD_fixData (by decide) (by decide) hbits, decide_eq_true (by omega), Bool.true_and, ht i hi]

/-- The words of the reply are taken one after the other. -/
theorem reaches_mpsseWordsFrom {w : Nat → Word} (hown : a.own.Expects 41) (n i : Nat)
    (hroom : (i + n) * 6 + 2 ≤ mpsseInputSize)
    (h : ∀ k < n, CarriesWord (w (i + k)) fun j => a.own.input ((i + k) * 6 + j)) :
    (mpsseWordsFrom n i : UsbAction MpssePort σ (List Word)).Reaches a ((List.range n).map fun k => w (i + k)) a := by
  induction n generalizing i with
  | zero => exact Program.reaches_pure _ _
  | succ n ih =>
    have hword : a.own.bytesPerWord = 6 := hown.bytesPerWord
    have hfirst : (mpsseFixData a.own (loadWord a.own.input (i * 6)) >>> 9).setWidth 32 = w i :=
      (h 0 (Nat.succ_pos n)).fixData hown
    have hrest := ih (i + 1) (by omega) fun k hk => by
      have hk' := h (k + 1) (by omega)
      rwa [show i + (k + 1) = i + 1 + k by omega] at hk'
    refine getOwn_returns.reaches.bind ?_
    rw [if_neg (by rw [hword]; omega), hword]
    refine hrest.bind ?_
    have hlist : (List.range (n + 1)).map (fun k => w (i + k)) =
        w i :: (List.range n).map fun k => w (i + 1 + k) := by
      rw [List.range_succ_eq_map, List.map_cons, List.map_map]
      refine congrArg (w i :: ·) (List.map_congr_left fun k _ => ?_)
      exact congrArg w (by simp only [Nat.succ_eq_add_one]; omega)
    rw [hlist, hfirst]
    exact Program.reaches_pure _ _

/-- The chip answers the packets for one word with the word of the memory. -/
theorem Chip.Runs.load (U : DebugUnit R mem) {addr : Word} (hrests : c.chain.tap.Rests)
    (hreads : reads (U.oscr c.chain.held)) (h : c.Runs R (loadCommands addr ++ rest) c' reply) :
    ∃ (c₁ : Chip τ) (sent more : List Byte), reply = sent ++ more ∧ c₁.chain.tap.Rests ∧
      U.oscr c₁.chain.held = U.oscr c.chain.held ∧ sent.length = 6 ∧
      CarriesWord (mem addr) (sent.getD · 0) ∧ c₁.Runs R rest c' more := by
  rw [loadCommands, List.append_assoc, List.append_assoc] at h
  obtain ⟨c₁, hrests₁, hheld₁, h₁⟩ := h.write hrests
  obtain ⟨c₂, hrests₂, hheld₂, h₂⟩ := h₁.write hrests₁
  obtain ⟨c₃, sent, more, rfl, htap₃, hheld₃, hlen, hbits, h₃⟩ :=
    h₂.packet omdrRead (by decide) (by decide) hrests₂
  obtain ⟨homar, hoscr₁⟩ := U.omar_write c.chain.held addr
  have hunit₁ : c₁.chain.held = R.update c.chain.held
      (oncdWriteBits addr (BitVec.ofNat 32 oncdOmar) wholeWord) := hheld₁
  rw [← hunit₁] at homar hoscr₁
  obtain ⟨homdr, hoscr₂⟩ := U.mem_access c₁.chain.held (by rwa [hoscr₁])
  have hunit₂ : c₂.chain.held = R.update c₁.chain.held
      (oncdWriteBits 0 (BitVec.ofNat 32 oncdMem) noData) := hheld₂
  rw [← hunit₂] at homdr hoscr₂
  refine ⟨c₃, sent, more, rfl, by rw [htap₃]; exact rests_updateDr, ?_, hlen, ⟨_, hbits rfl, ?_⟩, h₃⟩
  · rw [hheld₃, U.oscr_read, hoscr₂, hoscr₁]
  · intro i hi
    rw [U.omdr_read _ i hi, homdr, homar]

/-- The chip answers the packets of a batch with the words of the memory, six bytes for each. -/
theorem Chip.Runs.loads (U : DebugUnit R mem) {addr : Word} {n i : Nat} (hrests : c.chain.tap.Rests)
    (hreads : reads (U.oscr c.chain.held)) (h : c.Runs R (loadsCommands addr n i) c' reply) :
    c'.chain.tap.Rests ∧ U.oscr c'.chain.held = U.oscr c.chain.held ∧ reply.length = 6 * n ∧
      ∀ k < n, CarriesWord (mem (addr + BitVec.ofNat 32 ((i + k) * 4))) fun j => reply.getD (k * 6 + j) 0 := by
  induction n generalizing c i reply with
  | zero =>
    obtain ⟨rfl, rfl⟩ := h.nil
    exact ⟨hrests, rfl, rfl, fun k hk => absurd hk (Nat.not_lt_zero k)⟩
  | succ n ih =>
    obtain ⟨c₁, sent, more, rfl, hrests₁, hoscr₁, hlen₁, hword, h₁⟩ := h.load U hrests hreads
    obtain ⟨hrests', hoscr', hlen', hwords⟩ := ih hrests₁ (by rwa [hoscr₁]) h₁
    refine ⟨hrests', hoscr'.trans hoscr₁, by rw [List.length_append]; omega, fun k hk => ?_⟩
    cases k with
    | zero =>
      refine hword.congr fun j hj => ?_
      rw [Nat.zero_mul, Nat.zero_add, List.getD_append _ _ _ _ (by omega)]
    | succ k =>
      have hnext := hwords k (by omega)
      rw [show i + 1 + k = i + (k + 1) by omega] at hnext
      refine hnext.congr fun j _ => ?_
      rw [List.getD_append_right _ _ _ _ (by omega), hlen₁]
      exact congrArg (more.getD · 0) (by omega)

/-- The words of a block. -/
def blockWords (mem : Word → Word) (addr : Word) (n : Nat) : List Word :=
  (List.range n).map fun k => mem (addr + BitVec.ofNat 32 (k * 4))

/-- A block in two parts. -/
theorem blockWords_add (mem : Word → Word) (addr : Word) (m n : Nat) :
    blockWords mem addr (m + n) =
      blockWords mem addr m ++ blockWords mem (addr + BitVec.ofNat 32 (m * 4)) n := by
  unfold blockWords
  rw [List.range_add, List.map_append, List.map_map]
  refine congrArg _ (List.map_congr_left fun k _ => ?_)
  rw [Function.comp_apply, Nat.add_mul, BitVec.ofNat_add, BitVec.add_assoc]

/-- One batch reads its words. -/
theorem Idle.batch (h : pipe.Replies R view) (U : DebugUnit R mem) {oscr : Word} (addr : Word) {n : Nat}
    (hreads : reads oscr) (hn : n ≤ 10) (hpos : 0 < n) (hempty : a.own.output = [])
    (hidle : Idle R view (fun t => U.oscr t = oscr) a) :
    ∃ a', Eventually (fun fuel => do
        mpsseLoads pipe fuel addr n 0
        mpsseFlushOutput pipe fuel
        mpsseWordsFrom n 0) a (blockWords mem addr n) a' ∧
      a'.own.output = [] ∧ Idle R view (fun t => U.oscr t = oscr) a' := by
  have hsize : mpsseSize = 4096 := rfl
  have hroom : a.own.output.length + 60 * n ≤ mpsseSize - 23 := by
    rw [hempty, List.length_nil]
    omega
  obtain ⟨writes, hwrites, hoscr⟩ := hidle.waiting
  obtain rfl : writes = [] := by
    cases writes with
    | nil => rfl
    | cons w writes =>
      rw [hempty, List.flatMap_cons] at hwrites
      exact absurd (List.append_eq_nil_iff.mp hwrites.symm).1 (List.cons_ne_nil _ _)
  obtain ⟨own₁, hloads, hloaded⟩ := reaches_mpsseLoads pipe addr n 0 hroom
  obtain ⟨chip, reply, hruns, hflush⟩ := h.mpsseFlushOutput ⟨own₁, a.usb⟩ hidle.pending
  rw [hloaded.output, hempty, List.nil_append] at hruns
  have hheld : U.oscr (view a.usb).1.chain.held = oscr := hoscr
  obtain ⟨hrests, hoscr', hlen, hwords⟩ := hruns.loads U hidle.rests (by rwa [hheld])
  have hcount : own₁.bytesToRead = 6 * n := by rw [hloaded.bytesToRead, hidle.bytesToRead, Nat.zero_add]
  obtain ⟨s', hview, hreply⟩ := hflush (hlen.trans hcount.symm)
    (by rw [hcount, show mpsseInputSize = 64 from rfl]; omega)
  have hexpects := hloaded.expects hpos
  have hexpects' : (own₁.replied reply).Expects 41 := ⟨hexpects.highByteBits, hexpects.bytesPerWord,
    hexpects.fixHighBit, hexpects.highByteMask, hexpects.highBitMask⟩
  refine ⟨⟨own₁.replied reply, s'⟩, ?_, rfl, rfl, Nat.zero_le _, by rw [hview], by rw [hview]; exact hrests,
    [], rfl, ?_⟩
  · refine (eventually_of_reaches hloads).bind (hreply.bind (eventually_of_reaches fun _ => ?_))
    have htake := reaches_mpsseWordsFrom (a := ⟨own₁.replied reply, s'⟩)
      (w := fun k => mem (addr + BitVec.ofNat 32 (k * 4))) hexpects' n 0
      (by rw [show mpsseInputSize = 64 from rfl]; omega) fun k hk => ?_
    · simp only [Nat.zero_add] at htake
      exact htake
    · refine (hwords k hk).congr fun j hj => ?_
      have hin : k * 6 + j < reply.length := by omega
      rw [Nat.zero_add]
      change reply.getD (k * 6 + j) 0 = store own₁.input 0 reply (k * 6 + j)
      rw [store, placed_of_le (Nat.zero_le _), Nat.sub_zero, List.getD_eq_getElem?_getD,
        List.getElem?_eq_getElem hin]
      rfl
  · rw [hview]
    exact hoscr'.trans hoscr

/-- The batches read their words one after the other. -/
theorem Idle.batches (h : pipe.Replies R view) (U : DebugUnit R mem) {oscr : Word} (hreads : reads oscr)
    (nwords : Nat) (addr : Word) (hempty : a.own.output = [])
    (hidle : Idle R view (fun t => U.oscr t = oscr) a) :
    ∃ a', (∃ enough, ∀ fuel ≥ enough, ∀ rounds ≥ nwords,
        (mpsseBatches pipe fuel rounds nwords addr).Reaches a (blockWords mem addr nwords) a') ∧
      Idle R view (fun t => U.oscr t = oscr) a' := by
  induction nwords using Nat.strong_induction_on generalizing a addr with
  | _ nwords ih =>
    rcases Nat.eq_zero_or_pos nwords with rfl | hpos
    · refine ⟨a, ⟨0, fun fuel _ rounds _ => ?_⟩, hidle⟩
      cases rounds with
      | zero => exact Program.reaches_pure _ _
      | succ rounds => exact Program.reaches_pure _ _
    · obtain ⟨n, hn⟩ : ∃ n, n = if nwords > 10 then 10 else nwords := ⟨_, rfl⟩
      have hn10 : 0 < n ∧ n ≤ 10 ∧ n ≤ nwords := by
        rw [hn]
        split <;> omega
      obtain ⟨a₁, ⟨enough₁, h₁⟩, hempty₁, hidle₁⟩ := hidle.batch h U addr hreads hn10.2.1 hn10.1 hempty
      obtain ⟨a', ⟨enough₂, h₂⟩, hidle'⟩ :=
        ih (nwords - n) (by omega) (addr + BitVec.ofNat 32 (n * 4)) hempty₁ hidle₁
      refine ⟨a', ⟨max enough₁ enough₂, fun fuel hfuel rounds hrounds => ?_⟩, hidle'⟩
      obtain ⟨rounds, rfl⟩ := Nat.exists_eq_succ_of_ne_zero (show rounds ≠ 0 by omega)
      have hfirst := h₁ fuel ((le_max_left _ _).trans hfuel)
      have hrest := h₂ fuel ((le_max_right _ _).trans hfuel) rounds (by omega)
      have hwords : blockWords mem addr nwords =
          blockWords mem addr n ++ blockWords mem (addr + BitVec.ofNat 32 (n * 4)) (nwords - n) := by
        rw [← blockWords_add, Nat.add_sub_cancel' hn10.2.2]
      rw [mpsseBatches, if_pos hpos, ← hn, hwords]
      have hseq : (do
          let words ← (do mpsseLoads pipe fuel addr n 0; mpsseFlushOutput pipe fuel; mpsseWordsFrom n 0)
          let more ← mpsseBatches pipe fuel rounds (nwords - n) (addr + BitVec.ofNat 32 (n * 4))
          return words ++ more : UsbAction MpssePort σ (List Word)).Reaches a _ a' :=
        hfirst.bind (hrest.bind (Program.reaches_pure _ _))
      simpa only [bind_assoc] using hseq

/-- The words of the block are those of the memory, for every number of words and every address,
and however the reply is cut. The run comes to its end, so nothing is stored beyond the buffers. -/
theorem mpsseBlock_loads (h : pipe.Replies R view) (U : DebugUnit R mem) {oscr : Word} (nwords addr : Word)
    (hidle : Idle R view (fun t => U.oscr t = oscr) a) :
    ∃ a', (∃ enough, ∀ fuel ≥ enough, (mpsseBlock pipe fuel oscr nwords addr).Reaches a
        (oscr ||| oscrSlctMem ||| oscrRo, blockWords mem addr nwords.toNat) a') ∧
      Idle R view (fun t => U.oscr t = oscr ||| oscrSlctMem ||| oscrRo) a' := by
  obtain ⟨oscrNew, hnew⟩ : ∃ oscrNew, oscrNew = oscr ||| oscrSlctMem ||| oscrRo := ⟨_, rfl⟩
  have hreads : reads oscrNew := by
    rw [hnew, reads]
    apply BitVec.eq_of_getLsbD_eq
    intro i _
    simp only [BitVec.getLsbD_and, BitVec.getLsbD_or]
    cases oscr.getLsbD i <;> cases oscrSlctMem.getLsbD i <;> cases oscrRo.getLsbD i <;> rfl
  -- the control register allows the reads
  obtain ⟨a₁, hwrite, hidle₁⟩ : ∃ a₁, (oscrNew = oscr ∧ a₁ = a ∨ oscrNew ≠ oscr ∧
      Eventually (fun fuel => mpsseOncdWrite pipe fuel oscrNew (BitVec.ofNat 32 oncdOscr) 32) a () a₁) ∧
      Idle R view (fun t => U.oscr t = oscrNew) a₁ := by
    by_cases hsame : oscrNew = oscr
    · exact ⟨a, .inl ⟨hsame, rfl⟩, by rwa [hsame]⟩
    · obtain ⟨a₁, hwrite, hidle₁⟩ := hidle.oncdWrite (Q := fun t => U.oscr t = oscrNew) h
        ⟨oscrNew, BitVec.ofNat 32 oncdOscr, wholeWord⟩ fun t _ => U.oscr_write t oscrNew
      exact ⟨a₁, .inr ⟨hsame, hwrite⟩, hidle₁⟩
  obtain ⟨a₂, ⟨enough₂, h₂⟩, hidle₂, hempty₂, -⟩ := hidle₁.flush h
  obtain ⟨a', ⟨enough₃, h₃⟩, hidle'⟩ := hidle₂.batches h U hreads nwords.toNat addr hempty₂
  have hrest (fuel : Nat) (hfuel : max (max enough₂ enough₃) nwords.toNat ≤ fuel) : (do
      mpsseFlushOutput pipe fuel
      let words ← mpsseBatches pipe fuel fuel nwords.toNat addr
      return (oscrNew, words) : UsbAction MpssePort σ (Word × List Word)).Reaches a₁
        (oscrNew, blockWords mem addr nwords.toNat) a' := by
    simp only [max_le_iff] at hfuel
    obtain ⟨⟨hf₂, hf₃⟩, hf₄⟩ := hfuel
    exact (h₂ fuel hf₂).bind ((h₃ fuel hf₃ fuel hf₄).bind (Program.reaches_pure _ _))
  refine ⟨a', ?_, by rwa [← hnew]⟩
  rcases hwrite with ⟨hsame, rfl⟩ | ⟨hne, enough₁, h₁⟩
  · refine ⟨max (max enough₂ enough₃) nwords.toNat, fun fuel hfuel => ?_⟩
    rw [mpsseBlock, ← hnew]
    dsimp only
    rw [if_neg fun hne => hne hsame]
    exact hrest fuel hfuel
  · refine ⟨max enough₁ (max (max enough₂ enough₃) nwords.toNat), fun fuel hfuel => ?_⟩
    rw [mpsseBlock, ← hnew]
    dsimp only
    rw [if_pos hne]
    exact (h₁ fuel ((le_max_left _ _).trans hfuel)).bind (hrest fuel ((le_max_right _ _).trans hfuel))

/-- The registers of a debug unit. -/
structure OncdRegs where
  oscr : Word
  omar : Word
  omdr : Word

/-- What a write to a register does over a memory. -/
def OncdRegs.write (mem : Word → Word) (t : OncdRegs) (reg : Nat) (value : Word) : OncdRegs :=
  match reg with
  | 0x00 => { t with oscr := value }
  | 0x0B => { t with omar := value }
  | 0x0D => { t with omdr := mem t.omar }
  | _ => t

/-- A debug unit over a memory. The data register is what it shifts out. -/
def oncdRegister (mem : Word → Word) : DataRegister OncdRegs where
  out t bits := t.omdr.getLsbD (bits.length - 9)
  update t bits := t.write mem (ofBits 9 bits).toNat (ofBits 32 (bits.drop 9))

/-- The number of a debug register is not negative. -/
theorem signExtend_ofNat (reg : Fin 32) :
    (BitVec.ofNat 32 reg.val).signExtend 64 = BitVec.ofNat 64 reg.val := by
  decide +revert

/-- The number of the register in the bits of a write. -/
theorem ofBits_oncdWriteBits (val : Word) (reg : Fin 32) (reglen : RegLen) :
    ofBits 9 (oncdWriteBits val (BitVec.ofNat 32 reg.val) reglen) = BitVec.ofNat 9 reg.val := by
  apply BitVec.eq_of_getLsbD_eq
  intro i hi
  rw [getLsbD_ofBits _ hi, oncdWriteBits, getD_lowBits _ (by omega), signExtend_ofNat, BitVec.getLsbD_or,
    BitVec.getLsbD_ofNat, BitVec.getLsbD_ofNat, BitVec.getLsbD_shiftLeft, decide_eq_true hi,
    decide_eq_true (show i < 64 by omega)]
  simp

/-- The value in the bits of a write. -/
theorem ofBits_drop_oncdWriteBits (val : Word) (reg : Fin 32) :
    ofBits 32 ((oncdWriteBits val (BitVec.ofNat 32 reg.val) wholeWord).drop 9) = val := by
  apply BitVec.eq_of_getLsbD_eq
  intro i hi
  have hreg : reg.val.testBit (9 + i) = false :=
    Nat.testBit_lt_two_pow (reg.isLt.trans_le (Nat.pow_le_pow_right (show 0 < 2 by decide) (by omega : 5 ≤ 9 + i)))
  have hdrop : ((oncdWriteBits val (BitVec.ofNat 32 reg.val) wholeWord).drop 9).getD i false =
      (oncdWriteBits val (BitVec.ofNat 32 reg.val) wholeWord).getD (9 + i) false := by
    rw [List.getD_eq_getElem?_getD, List.getElem?_drop, List.getD_eq_getElem?_getD]
  rw [getLsbD_ofBits _ hi, hdrop, oncdWriteBits, getD_lowBits _ (show 9 + i < 9 + wholeWord.val from
    Nat.add_lt_add_left hi 9), signExtend_ofNat, BitVec.getLsbD_or, BitVec.getLsbD_ofNat, hreg, BitVec.getLsbD_shiftLeft,
    BitVec.getLsbD_setWidth, Nat.add_sub_cancel_left]
  have hin : 9 + i < 64 := by omega
  have hnot : ¬ 9 + i < 9 := by omega
  have hin' : i < 64 := by omega
  simp [hin, hnot, hin']

/-- A write of 32 bits. -/
theorem update_oncdWriteBits (mem : Word → Word) (t : OncdRegs) (val : Word) (reg : Fin 32) :
    (oncdRegister mem).update t (oncdWriteBits val (BitVec.ofNat 32 reg.val) wholeWord) =
      t.write mem (BitVec.ofNat 9 reg.val).toNat val := by
  change t.write mem _ _ = _
  rw [ofBits_oncdWriteBits, ofBits_drop_oncdWriteBits]

/-- Its registers are those of a debug unit. -/
def oncdUnit (mem : Word → Word) : DebugUnit (oncdRegister mem) mem where
  oscr := OncdRegs.oscr
  omar := OncdRegs.omar
  omdr := OncdRegs.omdr
  oscr_write t val := congrArg OncdRegs.oscr (update_oncdWriteBits mem t val 0)
  omar_write t val := ⟨congrArg OncdRegs.omar (update_oncdWriteBits mem t val 0x0B),
    (congrArg OncdRegs.oscr (update_oncdWriteBits mem t val 0x0B)).trans rfl⟩
  mem_access t _ := by
    have hreg := ofBits_oncdWriteBits 0 0x0D noData
    have hupdate : (oncdRegister mem).update t (oncdWriteBits 0 (BitVec.ofNat 32 oncdMem) noData) =
        { t with omdr := mem t.omar } := by
      change t.write mem (ofBits 9 (oncdWriteBits 0 (BitVec.ofNat 32 (0x0D : Fin 32).val) noData)).toNat
        (ofBits 32 ((oncdWriteBits 0 (BitVec.ofNat 32 (0x0D : Fin 32).val) noData).drop 9)) = _
      rw [hreg]
      rfl
    rw [hupdate]
    exact ⟨rfl, rfl⟩
  omdr_read t i _ := by
    change t.omdr.getLsbD ((lowBits omdrRead (9 + i)).length - 9) = _
    rw [length_lowBits, Nat.add_sub_cancel_left]
  oscr_read t := by
    have hreg : ofBits 9 (lowBits omdrRead 41) = 0x4C := by decide
    change (t.write mem (ofBits 9 _).toNat _).oscr = _
    rw [hreg]
    rfl

/-- The chip in front of the debug unit, with the bytes that it has sent and the number of reads. -/
structure PieceDevice where
  chip : Chip OncdRegs
  pending : List Byte
  reads : Nat

/-- A device that delivers nothing at every other read, and five bytes at most at the others. -/
def piecePipe (mem : Word → Word) : BulkPipe PieceDevice where
  write bytes s :=
    let (chip, reply) := Chip.run (oncdRegister mem) bytes.length s.chip bytes
    (some bytes.length, { s with chip := chip, pending := s.pending ++ reply })
  read size s :=
    let count := if s.reads % 2 = 0 then 0 else min (size - 2) 5
    (some (([0x32, 0x60] ++ s.pending.take count).take size),
      { s with pending := s.pending.drop count, reads := s.reads + 1 })
  write_le h := (Option.some.inj h).symm.le
  read_le h := by
    rw [← Option.some.inj h]
    exact List.length_take_le _ _

/-- It is a device with a chip whose reply is cut into pieces. -/
theorem replies_piecePipe (mem : Word → Word) :
    (piecePipe mem).Replies (oncdRegister mem) fun s => (s.chip, s.pending) where
  write bytes s := ⟨rfl, _, Chip.runs_run _ s.chip (le_refl bytes.length), rfl⟩
  read size s hsize := by
    obtain ⟨count, hcount⟩ : ∃ count, count = if s.reads % 2 = 0 then 0 else min (size - 2) 5 := ⟨_, rfl⟩
    refine ⟨[0x32, 0x60], s.pending.take count, ?_, rfl, ?_, rfl⟩
    · have hle : count ≤ size - 2 := by
        rw [hcount]
        split <;> omega
      have hlen : ([0x32, 0x60] ++ s.pending.take count).length ≤ size := by
        rw [List.length_append, List.length_take]
        simp only [List.length_cons, List.length_nil]
        omega
      change some _ = _
      rw [← hcount, List.take_of_length_le hlen]
    · change s.pending = s.pending.take count ++ s.pending.drop _
      rw [← hcount, List.take_append_drop]
  delivers size s hsize hpending := by
    have hdrop (s : PieceDevice) (hodd : s.reads % 2 ≠ 0) (hpending : s.pending ≠ []) :
        ((piecePipe mem).read size s).2.pending ≠ s.pending := by
      change s.pending.drop (if s.reads % 2 = 0 then 0 else min (size - 2) 5) ≠ s.pending
      rw [if_neg hodd]
      intro hsame
      have hlen := congrArg List.length hsame
      rw [List.length_drop] at hlen
      have hpos := List.length_pos_iff.mpr hpending
      omega
    by_cases heven : s.reads % 2 = 0
    · refine ⟨2, ?_⟩
      have hfirst : ((piecePipe mem).read size s).2 = { s with reads := s.reads + 1 } := by
        change { s with pending := s.pending.drop (if s.reads % 2 = 0 then 0 else _), reads := _ } = _
        rw [if_pos heven]
        rfl
      change ((piecePipe mem).read size ((piecePipe mem).read size s).2).2.pending ≠ s.pending
      rw [hfirst]
      exact hdrop _ (by dsimp only; omega) hpending
    · exact ⟨1, hdrop s heven hpending⟩

/-- The device and the port when they are switched on. -/
def freshPort : Attached MpssePort PieceDevice :=
  ⟨⟨[], fun _ => 0, 0, 0, 0, 0, 0, 0⟩, ⟨⟨⟨true, true⟩, ⟨.runTestIdle, [], ⟨0, 0, 0⟩⟩⟩, [], 0⟩⟩

/-- Twelve words, in two batches. -/
theorem mpsseBlock_loads_twelve : ∃ enough a', ∀ fuel ≥ enough,
    (mpsseBlock (piecePipe (~~~ ·)) fuel 0 12 0xBFC00000).Reaches freshPort
      (0x3, blockWords (~~~ ·) 0xBFC00000 12) a' := by
  have hidle : Idle (oncdRegister (~~~ ·)) (fun s : PieceDevice => (s.chip, s.pending))
      (fun t => (oncdUnit (~~~ ·)).oscr t = 0) freshPort :=
    ⟨rfl, by decide, rfl, .inl rfl, [], rfl, rfl⟩
  obtain ⟨a', ⟨enough, h⟩, -⟩ := mpsseBlock_loads (replies_piecePipe _) _ 12 0xBFC00000 hidle
  exact ⟨enough, a', h⟩

end Mcprog
