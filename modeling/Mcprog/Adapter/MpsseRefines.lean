import Mcprog.Adapter.MpsseWaiting

/-!
# The MPSSE adapter and the processor behind its port

Whatever a caller asks of the methods, the answers are those of the register-level adapter that has
the processor in its hand, and once what waits in the buffer has taken effect the processor is in
the same state.
-/

namespace Mcprog

open Interaction Cells Jtag

variable {σ τ : Type} {pipe : BulkPipe σ} {P : DebugPort τ} {view : σ → Chip τ × List Byte}
  {a a' : Attached MpssePort σ} {t : τ}

/-- A command for the lines takes effect at once. -/
theorem BulkPipe.Drives.moveLines (h : pipe.Drives P view) {c c₁ : Chip τ} {s : σ} {commands : List Byte}
    (hview : view s = (c, [])) (hstep : Chip.moveLines P c commands = some (c₁, [])) (own : MpssePort) :
    ∃ s', (bulkWrite pipe commands).Reaches ⟨own, s⟩ () ⟨own, s'⟩ ∧ view s' = (c₁, []) := by
  obtain ⟨hwrite, reply, hrun, hsent⟩ := h.write commands s
  rw [hview] at hrun hsent
  obtain ⟨hsame, rfl⟩ := (hrun.step_lines hstep).nil
  refine ⟨(pipe.write commands s).2, ?_, Prod.ext hsame hsent⟩
  refine Program.Reaches.bind (a := some commands.length) (Program.reaches_request ?_) (Program.reaches_pure () _)
  rw [hwrite]

/-- The two commands of `mpsse_reset`. -/
theorem BulkPipe.Drives.reset (h : pipe.Drives P view) {c : Chip τ} {s : σ} (hview : view s = (c, []))
    (sysrst led : Bool) (own : MpssePort) :
    ∃ (c' : Chip τ) (s' : σ), (Mpsse.reset pipe false sysrst led).Reaches ⟨own, s⟩ () ⟨own, s'⟩ ∧
      view s' = (c', []) ∧ c'.chain.tap = c.chain.tap ∧
      c'.chain.held = if sysrst then P.hardReset c.chain.held else c.chain.held := by
  have hlow : Chip.moveLines P c [0x80, 0x08, 0x1b] = some (⟨⟨true, false⟩, c.chain⟩, []) := rfl
  obtain ⟨s₁, h₁, hview₁⟩ := h.moveLines hview hlow own
  have hhigh : Chip.moveLines P ⟨⟨true, false⟩, c.chain⟩ [0x82, Mpsse.highOutput false sysrst led, 0x0f] =
      some (⟨⟨true, false⟩, { c.chain with held := if sysrst then P.hardReset c.chain.held else c.chain.held }⟩, []) := by
    cases sysrst <;> cases led <;> rfl
  obtain ⟨s₂, h₂, hview₂⟩ := h.moveLines hview₁ hhigh own
  exact ⟨_, s₂, h₁.bind h₂, hview₂, rfl, rfl⟩

namespace Waiting

/-- The adapter is closed, with no bytes left over. -/
theorem close (h : pipe.Drives P view) (hw : Waiting P view a t) :
    ∃ a', Eventually (fun fuel => Mpsse.close pipe fuel) a () a' ∧ Waiting P view a' t := by
  obtain ⟨a₁, hflush, hsettled⟩ := hw.flush h
  obtain ⟨c', s', hreset, hview, htap, hheld⟩ := h.reset hsettled.view_eq false false a₁.own
  refine ⟨_, hflush.bind (eventually_of_reaches fun _ => hreset), Settled.waiting ⟨hsettled.bytesToRead,
    hsettled.output, by rw [hview], ?_, ?_⟩⟩
  · rw [hview, htap]
    exact hsettled.rests
  · rw [hview, hheld]
    exact hsettled.held

/-- The processor is reset by the line for it. -/
theorem resetCpu (h : pipe.Drives P view) (hw : Waiting P view a t) :
    ∃ a', Eventually (fun fuel => Mpsse.resetCpu pipe fuel) a () a' ∧ Waiting P view a' (P.hardReset t) := by
  obtain ⟨a₁, hflush, hsettled⟩ := hw.flush h
  obtain ⟨c₁, s₁, hreset₁, hview₁, htap₁, hheld₁⟩ := h.reset hsettled.view_eq true true a₁.own
  obtain ⟨c₂, s₂, hreset₂, hview₂, htap₂, hheld₂⟩ := h.reset hview₁ false true a₁.own
  refine ⟨_, hflush.bind (eventually_of_reaches fun _ => hreset₁.bind hreset₂), Settled.waiting
    ⟨hsettled.bytesToRead, hsettled.output, by rw [hview₂], ?_, ?_⟩⟩
  · rw [hview₂, htap₂, htap₁]
    exact hsettled.rests
  · rw [hview₂, hheld₂, hheld₁, hsettled.held]
    rfl

/-- The number of the processor comes from the scan behind the reset. -/
theorem getIdcode (h : pipe.Drives P view) (hw : Waiting P view a t) :
    ∃ a', Eventually (fun fuel => Mpsse.getIdcode pipe fuel) a (P.getIdcode t).1 a' ∧
      Waiting P view a' (P.getIdcode t).2 := by
  obtain ⟨a', hrecv, hw'⟩ := hw.recv h leads_resetPacket (by decide : 0 < 32) (by decide) 0
  rw [lowBits_zero] at hrecv hw'
  refine ⟨a', ?_, hw'⟩
  have hcode : (P.getIdcode t).1 =
      (ofBits 64 (P.scan .data (List.replicate 32 false) (P.reset t)).1).setWidth 32 := by
    rw [setWidth_ofBits]
    rfl
  rw [hcode]
  have hgoal := hrecv.bind (f := fun _ word => pure (word.setWidth 32))
    (eventually_of_reaches fun _ => Program.reaches_pure _ _)
  simp only [bind_assoc] at hgoal
  exact hgoal

/-- A scan of the instruction register. -/
theorem recvInstr (h : pipe.Drives P view) (newinst : Word) (hw : Waiting P view a t) :
    ∃ word a', Eventually (fun fuel => do
        Mpsse.sendInstr pipe fuel newinst true
        mpsseRecv pipe fuel) a word a' ∧ word.setWidth 32 = (P.instr newinst t).1 ∧
      Waiting P view a' (P.instr newinst t).2 := by
  obtain ⟨a', hrecv, hw'⟩ := hw.recv h leads_instrPacket (by decide : 0 < 4) (by decide)
    (newinst.setWidth 64)
  rw [lowBits_setWidth newinst (by decide)] at hrecv hw'
  exact ⟨_, a', hrecv, setWidth_ofBits _, hw'⟩

/-- The bits of the instruction register tell whether the processor is stopped. -/
theorem cpuStopped (h : pipe.Drives P view) (hw : Waiting P view a t) :
    ∃ a', Eventually (fun fuel => (do return (← Mpsse.cpuStopped pipe fuel) ≠ 0 : UsbAction MpssePort σ Bool)) a
        (P.cpuStopped t).1 a' ∧ Waiting P view a' (P.cpuStopped t).2 := by
  obtain ⟨word, a', hrecv, hword, hw'⟩ := hw.recvInstr h tapDebugEnable
  refine ⟨a', ?_, hw'⟩
  have hstopped : (P.cpuStopped t).1 = decide (word.setWidth 32 &&& 4 ≠ 0) := by
    rw [hword]
    rfl
  rw [hstopped]
  have hgoal := hrecv.bind (f := fun _ word => pure (decide (word.setWidth 32 &&& (4 : Word) ≠ 0)))
    (eventually_of_reaches fun _ => Program.reaches_pure _ _)
  simp only [bind_assoc] at hgoal
  unfold Mpsse.cpuStopped
  simp only [bind_assoc, pure_bind]
  exact hgoal

/-- The polls of `mpsse_stop_cpu` come to the same, and so does their end. -/
theorem stopped (h : pipe.Drives P view) (tries : Nat) (hw : Waiting P view a t) :
    Corresponds (Waiting P view) (fun fuel => (Mpsse.stopped pipe fuel tries).handle a) (P.stopped tries t) := by
  induction tries generalizing a t with
  | zero => exact ⟨0, fun _ _ => rfl⟩
  | succ tries ih =>
    obtain ⟨word, a', ⟨enough, hrecv⟩, hword, hw'⟩ := hw.recvInstr h tapDebugEnable
    have hpoll (fuel : Nat) (hfuel : fuel ≥ enough) : (Mpsse.stopped pipe fuel (tries + 1)).handle a =
        (if word.setWidth 32 = (5 : Word) then pure () else Mpsse.stopped pipe fuel tries :
          UsbAction MpssePort σ Unit).handle a' := by
      have hfirst := (hrecv fuel hfuel).handle_bind (f := fun word : BitVec 64 =>
        if word.setWidth 32 = (5 : Word) then pure () else Mpsse.stopped pipe fuel tries)
      rw [← hfirst, Mpsse.stopped]
      simp only [bind_assoc]
    rw [DebugPort.stopped, ← hword]
    split
    · rename_i hstop
      refine ⟨a', hw', enough, fun fuel hfuel => (hpoll fuel hfuel).trans ?_⟩
      rw [if_pos hstop]
      rfl
    · rename_i hgo
      refine (ih hw').congr ⟨enough, fun fuel hfuel => (hpoll fuel hfuel).trans ?_⟩
      rw [if_neg hgo]

/-- The processor is stopped, or the looks for the debug mode run out. -/
theorem stopCpu (h : pipe.Drives P view) (hw : Waiting P view a t) :
    Corresponds (Waiting P view) (fun fuel => (Mpsse.stopCpu pipe fuel).handle a) (P.stopCpu t) := by
  obtain ⟨a₁, ⟨enough, hsend⟩, hw₁⟩ := hw.send h leads_instrPacket (by decide : 0 < 4)
    (by decide) (tapDebugRequest.setWidth 64)
  rw [lowBits_setWidth tapDebugRequest (by decide)] at hw₁
  refine (hw₁.stopped h 50).congr ⟨enough, fun fuel hfuel => ?_⟩
  exact (hsend fuel hfuel).handle_bind

/-- A register read. -/
theorem oncdRead (h : pipe.Drives P view) (reg : Word) (reglen : RegLen) (hw : Waiting P view a t) :
    ∃ a', Eventually (fun fuel => Mpsse.oncdRead pipe fuel reg reglen.val) a (P.oncdRead reg reglen.val t).1 a' ∧
      Waiting P view a' (P.oncdRead reg reglen.val t).2 := by
  have hlen := reglen.property
  obtain ⟨a', hrecv, hw'⟩ := hw.recv h leads_dataPacket (by omega : 0 < 9 + reglen.val)
    (by omega) ((reg ||| BitVec.ofNat 32 irdRead).signExtend 64)
  refine ⟨a', ?_, hw'⟩
  have hvalue : (P.oncdRead reg reglen.val t).1 =
      (ofBits 64 (P.scan .data (DebugPort.readBits reg reglen.val) t).1 >>> 9).setWidth 32 :=
    (setWidth_ushiftRight_ofBits _ (by decide)).symm
  rw [hvalue]
  have hgoal := hrecv.bind (f := fun _ (word : BitVec 64) => pure ((word >>> 9 : BitVec 64).setWidth 32))
    (eventually_of_reaches fun _ => Program.reaches_pure _ _)
  simp only [bind_assoc] at hgoal
  exact hgoal

/-- A register write. -/
theorem oncdWrite (h : pipe.Drives P view) (value reg : Word) {reglen : Nat} (hlen : reglen ≤ 32)
    (hw : Waiting P view a t) :
    ∃ a', Eventually (fun fuel => mpsseOncdWrite pipe fuel value reg reglen) a () a' ∧
      Waiting P view a' (P.oncdWrite value reg reglen t) :=
  hw.send h leads_dataPacket (by omega) (by omega) _

end Waiting

namespace DebugPort

variable (P)

/-- Write the control register where it changes. -/
def allow (oscr oscrNew : Word) (t : τ) : τ :=
  if oscrNew ≠ oscr then P.oncdWrite oscrNew (BitVec.ofNat 32 oncdOscr) 32 t else t

/-- One store. -/
def store (addr data : Word) (t : τ) : τ :=
  P.oncdWrite 0 (BitVec.ofNat 32 oncdMem) 0 (P.oncdWrite data (BitVec.ofNat 32 oncdOmdr) 32
    (P.oncdWrite addr (BitVec.ofNat 32 oncdOmar) 32 t))

/-- Stores in their order. -/
def stores (args : List (Word × Word)) (t : τ) : τ := args.foldl (fun t w => P.store w.1 w.2 t) t

/-- One load. -/
def load (addr : Word) (t : τ) : Word × τ :=
  P.oncdRead (BitVec.ofNat 32 oncdOmdr) 32 (P.oncdWrite 0 (BitVec.ofNat 32 oncdMem) 0
    (P.oncdWrite addr (BitVec.ofNat 32 oncdOmar) 32 t))

/-- Loads at consecutive words. -/
def loads : Nat → Word → τ → List Word × τ
  | 0, _, t => ([], t)
  | n + 1, addr, t =>
    ((P.load addr t).1 :: (loads n (addr + 4) (P.load addr t).2).1, (loads n (addr + 4) (P.load addr t).2).2)

variable {P} {oscr : Word}

theorem length_loads (n : Nat) (addr : Word) (t : τ) : (P.loads n addr t).1.length = n := by
  induction n generalizing addr t with
  | zero => rfl
  | succ n ih => exact congrArg (· + 1) (ih (addr + 4) _)

/-- The next address, with its steps in front. -/
theorem add_four (addr : Word) (i : Nat) :
    addr + BitVec.ofNat 32 (i * 4) + 4 = addr + BitVec.ofNat 32 ((i + 1) * 4) := by
  rw [Nat.add_mul, BitVec.ofNat_add, BitVec.add_assoc]
  rfl

/-- The next address, with its steps behind. -/
theorem four_add (addr : Word) (i : Nat) :
    addr + 4 + BitVec.ofNat 32 (i * 4) = addr + BitVec.ofNat 32 ((i + 1) * 4) := by
  rw [BitVec.add_assoc, BitVec.add_comm 4, ← BitVec.add_assoc, add_four]

/-- Loads in two parts. -/
theorem loads_add (m n : Nat) (addr : Word) (t : τ) : P.loads (m + n) addr t =
    ((P.loads m addr t).1 ++ (P.loads n (addr + BitVec.ofNat 32 (m * 4)) (P.loads m addr t).2).1,
      (P.loads n (addr + BitVec.ofNat 32 (m * 4)) (P.loads m addr t).2).2) := by
  induction m generalizing addr t with
  | zero =>
    rw [Nat.zero_add, Nat.zero_mul, BitVec.add_zero]
    rfl
  | succ m ih =>
    rw [Nat.add_right_comm, loads, ih, four_add]
    rfl

/-- A debug register is written by one access. -/
theorem reaches_oncdWrite (value : Word) (reg nbits : Nat) (s : Session τ) :
    (Mcprog.oncdWrite P.adapter value reg nbits).Reaches s ()
      { s with device := P.oncdWrite value (BitVec.ofNat 32 reg) nbits s.device } :=
  Program.reaches_request rfl

/-- A debug register is read by one access. -/
theorem reaches_oncdRead (reg nbits : Nat) (s : Session τ) :
    (Mcprog.oncdRead P.adapter reg nbits).Reaches s (P.oncdRead (BitVec.ofNat 32 reg) nbits s.device).1
      { s with device := (P.oncdRead (BitVec.ofNat 32 reg) nbits s.device).2 } :=
  Program.reaches_request rfl

/-- The control register is written, and remembered. -/
theorem reaches_allowMemory (f : Word → Word) (s : Session τ) :
    (allowMemory P.adapter f).Reaches s () ⟨f s.oscr, P.allow s.oscr (f s.oscr) s.device⟩ := by
  obtain ⟨oscr, t⟩ := s
  refine (Program.Reaches.bind (Program.reaches_read _) (Program.reaches_pure _ _)).bind ?_
  dsimp only
  unfold DebugPort.allow
  split
  · exact (Program.reaches_update _ _).bind (reaches_oncdWrite _ _ _ _)
  · rename_i hsame
    rw [not_not.mp hsame]
    exact Program.reaches_pure _ _

/-- Words are stored one after the other, by induction on them. -/
theorem reaches_mpsseWords (args : List (Word × Word)) (s : Session τ) :
    (mpsseWords P.adapter args).Reaches s () { s with device := P.stores args s.device } := by
  induction args generalizing s with
  | nil => exact Program.reaches_pure _ _
  | cons w args ih =>
    obtain ⟨addr, data⟩ := w
    exact (reaches_oncdWrite _ _ _ _).bind ((reaches_oncdWrite _ _ _ _).bind
      ((reaches_oncdWrite _ _ _ _).bind (ih _)))

/-- Words are loaded one after the other, by induction on their number. -/
theorem reaches_mpsseReadWords (n : Nat) (addr : Word) (s : Session τ) :
    (mpsseReadWords P.adapter n addr).Reaches s (P.loads n addr s.device).1
      { s with device := (P.loads n addr s.device).2 } := by
  induction n generalizing addr s with
  | zero => exact Program.reaches_pure _ _
  | succ n ih =>
    exact (reaches_oncdWrite _ _ _ _).bind ((reaches_oncdWrite _ _ _ _).bind
      ((reaches_oncdRead _ _ _).bind ((ih _ _).bind (Program.reaches_pure _ _))))

/-- The stores of a block method. -/
theorem reaches_stores (args : List (Word × Word)) (s : Session τ) :
    (do
      allowMemory P.adapter fun oscr => (oscr &&& ~~~oscrRo) ||| oscrSlctMem
      mpsseWords P.adapter args : Action τ Unit).Reaches s ()
      ⟨Mpsse.writable s.oscr, P.stores args (P.allow s.oscr (Mpsse.writable s.oscr) s.device)⟩ :=
  (reaches_allowMemory _ s).bind (reaches_mpsseWords args _)

/-- The loads of a block. -/
theorem reaches_mpsseReadBlock (nwords addr : Word) (s : Session τ) :
    (mpsseReadBlock P.adapter nwords addr).Reaches s
      (fun i => (P.loads nwords.toNat addr
        (P.allow s.oscr (s.oscr ||| oscrSlctMem ||| oscrRo) s.device)).1.getD i 0)
      ⟨s.oscr ||| oscrSlctMem ||| oscrRo, (P.loads nwords.toNat addr
        (P.allow s.oscr (s.oscr ||| oscrSlctMem ||| oscrRo) s.device)).2⟩ :=
  (reaches_allowMemory _ s).bind ((reaches_mpsseReadWords _ _ _).bind (Program.reaches_pure _ _))

end DebugPort

/-- A program that answers, as a method. -/
theorem method_of_reaches {α : Type} {m : Action τ α} {s s' : Session τ} {r : α} (h : m.Reaches s r s') :
    method m s = .ok (r, s') := by
  rw [method, h.result, h.state]

namespace Mpsse

/-- The stores of the block methods are stores at the addresses of their words. -/
theorem storeWords_eq (fuel : Nat) (addr : Word) (data : List Word) :
    storeWords pipe fuel addr data = storeNwords pipe fuel (consecutive addr data) := by
  induction data generalizing addr with
  | nil => rfl
  | cons word data ih =>
    rw [storeWords, ih]
    rfl

/-- The words of a block are programmed by stores of pairs. -/
theorem programWords_eq (fuel : Nat) (args : ProgramArgs) (addr : Word) (data : List Word) :
    programWords pipe fuel args addr data = storeNwords pipe fuel ((consecutive addr data).flatMap fun a =>
      [(args.base + args.addrOdd, args.cmdAA), (args.base + args.addrEven, args.cmd55),
        (args.base + args.addrOdd, args.cmdA0), a]) := by
  induction data generalizing addr with
  | nil => rfl
  | cons word data ih =>
    rw [programWords, ih]
    rfl

end Mpsse

namespace Waiting

/-- The control register is written when it changes. -/
theorem allow (h : pipe.Drives P view) (oscr oscrNew : Word) (hw : Waiting P view a t) :
    ∃ a', Eventually (fun fuel => Mpsse.allow pipe fuel oscr oscrNew) a () a' ∧
      Waiting P view a' (P.allow oscr oscrNew t) := by
  unfold Mpsse.allow DebugPort.allow
  split
  · exact hw.oncdWrite h _ _ (le_refl 32)
  · exact ⟨a, eventually_of_reaches fun _ => Program.reaches_pure _ _, hw⟩

/-- A word is stored: the address, the data and the cycle. -/
theorem store (h : pipe.Drives P view) (addr data : Word) (hw : Waiting P view a t) :
    ∃ a', Eventually (fun fuel => Mpsse.store pipe fuel addr data) a () a' ∧
      Waiting P view a' (P.store addr data t) := by
  obtain ⟨a₁, h₁, hw₁⟩ := hw.oncdWrite h addr (BitVec.ofNat 32 oncdOmar) (le_refl 32)
  obtain ⟨a₂, h₂, hw₂⟩ := hw₁.oncdWrite h data (BitVec.ofNat 32 oncdOmdr) (le_refl 32)
  obtain ⟨a₃, h₃, hw₃⟩ := hw₂.oncdWrite h 0 (BitVec.ofNat 32 oncdMem) (Nat.zero_le 32)
  exact ⟨a₃, h₁.bind (h₂.bind h₃), hw₃⟩

/-- Words are stored one after the other, by induction on them. -/
theorem storeNwords (h : pipe.Drives P view) (args : List (Word × Word)) (hw : Waiting P view a t) :
    ∃ a', Eventually (fun fuel => Mpsse.storeNwords pipe fuel args) a () a' ∧
      Waiting P view a' (P.stores args t) := by
  induction args generalizing a t with
  | nil => exact ⟨a, eventually_of_reaches fun _ => Program.reaches_pure _ _, hw⟩
  | cons w args ih =>
    obtain ⟨a₁, h₁, hw₁⟩ := hw.store h w.1 w.2
    obtain ⟨a', h', hw'⟩ := ih hw₁
    exact ⟨a', h₁.bind h', hw'⟩

/-- The stores of a block method, and the cached control register that it returns. -/
theorem stores (h : pipe.Drives P view) (oscr : Word) (args : List (Word × Word)) (hw : Waiting P view a t) :
    ∃ a', Eventually (fun fuel => do
        Mpsse.allow pipe fuel oscr (Mpsse.writable oscr)
        Mpsse.storeNwords pipe fuel args
        return Mpsse.writable oscr) a (Mpsse.writable oscr) a' ∧
      Waiting P view a' (P.stores args (P.allow oscr (Mpsse.writable oscr) t)) := by
  obtain ⟨a₁, h₁, hw₁⟩ := hw.allow h oscr (Mpsse.writable oscr)
  obtain ⟨a', h', hw'⟩ := hw₁.storeNwords h args
  exact ⟨a', h₁.bind (h'.bind (eventually_of_reaches fun _ => Program.reaches_pure _ _)), hw'⟩

end Waiting

/-- The chip answers the packets for one word with what the load gives. -/
theorem Chip.completes_load {c : Chip τ} (addr : Word) (hrests : c.chain.tap.Rests) :
    c.Completes P (loadCommands addr) fun c₁ sent => c₁.chain.tap.Rests ∧
      c₁.chain.held = (P.load addr c.chain.held).2 ∧ sent.length = 6 ∧
      CarriesWord (P.load addr c.chain.held).1 (sent.getD · 0) := by
  refine (Chip.completes_packet leads_data (show 0 < 9 + 32 by decide) (show 9 + 32 ≤ 64 by decide)
    (oncdWriteData addr (BitVec.ofNat 32 oncdOmar) 32) false hrests).append fun c₁ sent hQ => ?_
  obtain ⟨hrests₁, hheld₁, hlen₁, -⟩ := hQ
  refine (Chip.completes_packet leads_data (show 0 < 9 + 0 by decide) (show 9 + 0 ≤ 64 by decide)
    (oncdWriteData 0 (BitVec.ofNat 32 oncdMem) 0) false hrests₁).append fun c₂ sent₂ hQ => ?_
  obtain ⟨hrests₂, hheld₂, hlen₂, -⟩ := hQ
  refine (Chip.completes_packet leads_data (show 0 < 41 by decide) (show 41 ≤ 64 by decide) omdrRead true
    hrests₂).mono fun c₃ sent₃ hQ => ?_
  obtain ⟨hrests₃, hheld₃, hlen₃, hbits⟩ := hQ
  obtain rfl : sent = [] := List.length_eq_zero_iff.mp hlen₁
  obtain rfl : sent₂ = [] := List.length_eq_zero_iff.mp hlen₂
  have hread : DebugPort.readBits (BitVec.ofNat 32 oncdOmdr) 32 = lowBits omdrRead 41 := by decide
  have hload : P.load addr c.chain.held = P.oncdRead (BitVec.ofNat 32 oncdOmdr) 32 c₂.chain.held := by
    rw [hheld₂, id, hheld₁, id]
    rfl
  rw [hload, DebugPort.oncdRead, hread]
  refine ⟨hrests₃, hheld₃, hlen₃, _, hbits rfl, fun i hi => ?_⟩
  rw [getLsbD_ofBits _ hi, List.getD_eq_getElem?_getD, List.getD_eq_getElem?_getD, List.getElem?_drop]
  rfl

/-- The chip answers the packets of a batch with what the loads give, six bytes for each. -/
theorem Chip.completes_loads {c : Chip τ} (addr : Word) (n i : Nat) (hrests : c.chain.tap.Rests) :
    c.Completes P (loadsCommands addr n i) fun c₁ sent => c₁.chain.tap.Rests ∧
      c₁.chain.held = (P.loads n (addr + BitVec.ofNat 32 (i * 4)) c.chain.held).2 ∧ sent.length = 6 * n ∧
      ∀ k < n, CarriesWord ((P.loads n (addr + BitVec.ofNat 32 (i * 4)) c.chain.held).1.getD k 0)
        fun j => sent.getD (k * 6 + j) 0 := by
  induction n generalizing c i with
  | zero => exact Chip.completes_nil ⟨hrests, rfl, rfl, fun k hk => absurd hk (Nat.not_lt_zero k)⟩
  | succ n ih =>
    refine (Chip.completes_load (addr + BitVec.ofNat 32 (i * 4)) hrests).append fun c₁ sent hQ => ?_
    obtain ⟨hrests₁, hheld₁, hlen₁, hword⟩ := hQ
    refine (ih (i + 1) hrests₁).mono fun c₂ sent₂ hQ => ?_
    obtain ⟨hrests₂, hheld₂, hlen₂, hwords⟩ := hQ
    rw [hheld₁, ← DebugPort.add_four] at hheld₂ hwords
    refine ⟨hrests₂, hheld₂, by rw [List.length_append]; omega, fun k hk => ?_⟩
    cases k with
    | zero =>
      refine hword.congr fun j hj => ?_
      rw [Nat.zero_mul, Nat.zero_add, List.getD_append _ _ _ _ (by omega)]
    | succ k =>
      refine (hwords k (by omega)).congr fun j _ => ?_
      rw [List.getD_append_right _ _ _ _ (by omega), hlen₁]
      exact congrArg (sent₂.getD · 0) (by omega)

/-- The words of a list, by their index. -/
theorem map_getD_range (words : List Word) : (List.range words.length).map (words.getD · 0) = words := by
  refine List.ext_getElem (by rw [List.length_map, List.length_range]) fun i hi hi' => ?_
  rw [List.getElem_map, List.getElem_range, List.getD_eq_getElem _ _ hi']

namespace Settled

/-- One batch reads its words. -/
theorem batch (h : pipe.Drives P view) (addr : Word) {n : Nat} (hn : n ≤ 10) (hpos : 0 < n)
    (hs : Settled view a t) :
    ∃ a', Eventually (fun fuel => do
        mpsseLoads pipe fuel addr n 0
        mpsseFlushOutput pipe fuel
        mpsseWordsFrom n 0) a (P.loads n addr t).1 a' ∧ Settled view a' (P.loads n addr t).2 := by
  have hsize : mpsseSize = 4096 := rfl
  have hinput : mpsseInputSize = 64 := rfl
  obtain ⟨own₁, hloads, hloaded⟩ := reaches_mpsseLoads (a := a) pipe addr n 0
    (by rw [hs.output, List.length_nil]; omega)
  have hcount : own₁.bytesToRead = 6 * n := by rw [hloaded.bytesToRead, hs.bytesToRead, Nat.zero_add]
  have hcompletes := Chip.completes_loads (P := P) addr n 0 hs.rests
  have houtput := hloaded.output
  rw [hs.output, List.nil_append] at houtput
  rw [Nat.zero_mul, BitVec.add_zero, hs.held, ← houtput] at hcompletes
  obtain ⟨c, sent, s', ⟨hrests, hheld, hlen, hwords⟩, hview, hflush⟩ := h.flush (a := ⟨own₁, a.usb⟩)
    hs.pending hcompletes (fun c sent hQ => hQ.2.2.1.trans hcount.symm) (by rw [hcount]; omega)
  have hexpects := hloaded.expects hpos
  have hreplied : (own₁.replied sent).Expects 41 := ⟨hexpects.highByteBits, hexpects.bytesPerWord,
    hexpects.fixHighBit, hexpects.highByteMask, hexpects.highBitMask⟩
  refine ⟨⟨own₁.replied sent, s'⟩, (eventually_of_reaches hloads).bind (hflush.bind
    (eventually_of_reaches fun _ => ?_)), rfl, rfl, by rw [hview], by rwa [hview], by rwa [hview]⟩
  have htake := reaches_mpsseWordsFrom (a := ⟨own₁.replied sent, s'⟩)
    (w := fun k => (P.loads n addr t).1.getD k 0) hreplied n 0 (by omega) fun k hk => by
      rw [Nat.zero_add]
      exact (hwords k hk).congr fun j hj => (input_replied own₁ (by omega)).symm
  simp only [Nat.zero_add] at htake
  have hall := map_getD_range (P.loads n addr t).1
  rw [DebugPort.length_loads] at hall
  rwa [hall] at htake

/-- The batches read their words one after the other. -/
theorem batches (h : pipe.Drives P view) (nwords : Nat) (addr : Word) (hs : Settled view a t) :
    ∃ a', (∃ enough, ∀ fuel ≥ enough, ∀ rounds ≥ nwords,
        (mpsseBatches pipe fuel rounds nwords addr).Reaches a (P.loads nwords addr t).1 a') ∧
      Settled view a' (P.loads nwords addr t).2 := by
  induction nwords using Nat.strong_induction_on generalizing a t addr with
  | _ nwords ih =>
    rcases Nat.eq_zero_or_pos nwords with rfl | hpos
    · refine ⟨a, ⟨0, fun fuel _ rounds _ => ?_⟩, hs⟩
      cases rounds with
      | zero => exact Program.reaches_pure _ _
      | succ rounds => exact Program.reaches_pure _ _
    · obtain ⟨n, hn⟩ : ∃ n, n = if nwords > 10 then 10 else nwords := ⟨_, rfl⟩
      have hn10 : 0 < n ∧ n ≤ 10 ∧ n ≤ nwords := by
        rw [hn]
        split <;> omega
      obtain ⟨a₁, ⟨enough₁, h₁⟩, hs₁⟩ := hs.batch h addr hn10.2.1 hn10.1
      obtain ⟨a', ⟨enough₂, h₂⟩, hs'⟩ := ih (nwords - n) (by omega) (addr + BitVec.ofNat 32 (n * 4)) hs₁
      have hloads := DebugPort.loads_add (P := P) n (nwords - n) addr t
      rw [Nat.add_sub_cancel' hn10.2.2] at hloads
      refine ⟨a', ⟨max enough₁ enough₂, fun fuel hfuel rounds hrounds => ?_⟩, by rw [hloads]; exact hs'⟩
      obtain ⟨rounds, rfl⟩ := Nat.exists_eq_succ_of_ne_zero (show rounds ≠ 0 by omega)
      have hfirst := h₁ fuel ((le_max_left _ _).trans hfuel)
      have hrest := h₂ fuel ((le_max_right _ _).trans hfuel) rounds (by omega)
      rw [mpsseBatches, if_pos hpos, ← hn, hloads]
      have hseq := hfirst.bind (f := fun words => do
        let more ← mpsseBatches pipe fuel rounds (nwords - n) (addr + BitVec.ofNat 32 (n * 4))
        return words ++ more) (hrest.bind (Program.reaches_pure _ _))
      simpa only [bind_assoc] using hseq

end Settled

/-- A block is read as by loads. -/
theorem Waiting.block (h : pipe.Drives P view) (oscr nwords addr : Word) (hw : Waiting P view a t) :
    ∃ a', Eventually (fun fuel => mpsseBlock pipe fuel oscr nwords addr) a (oscr ||| oscrSlctMem ||| oscrRo,
        (P.loads nwords.toNat addr (P.allow oscr (oscr ||| oscrSlctMem ||| oscrRo) t)).1) a' ∧
      Waiting P view a' (P.loads nwords.toNat addr (P.allow oscr (oscr ||| oscrSlctMem ||| oscrRo) t)).2 := by
  obtain ⟨oscrNew, hnew⟩ : ∃ oscrNew, oscrNew = oscr ||| oscrSlctMem ||| oscrRo := ⟨_, rfl⟩
  rw [← hnew]
  obtain ⟨a₁, h₁, hw₁⟩ := hw.allow h oscr oscrNew
  obtain ⟨a₂, h₂, hs₂⟩ := hw₁.flush h
  obtain ⟨a', ⟨enough, h₃⟩, hs'⟩ := hs₂.batches h nwords.toNat addr
  have hbatches : Eventually (fun fuel => mpsseBatches pipe fuel fuel nwords.toNat addr) a₂ _ a' :=
    ⟨max enough nwords.toNat, fun fuel hfuel => h₃ fuel ((le_max_left _ _).trans hfuel) fuel
      ((le_max_right _ _).trans hfuel)⟩
  have hblock (fuel : Nat) : mpsseBlock pipe fuel oscr nwords addr = (do
      Mpsse.allow pipe fuel oscr oscrNew
      mpsseFlushOutput pipe fuel
      let words ← mpsseBatches pipe fuel fuel nwords.toNat addr
      return (oscrNew, words)) := by
    unfold mpsseBlock Mpsse.allow
    rw [← hnew]
    dsimp only
    split <;> rfl
  simp only [hblock]
  exact ⟨a', h₁.bind (h₂.bind (hbatches.bind (eventually_of_reaches fun _ => Program.reaches_pure _ _))),
    hs'.waiting⟩

end Mcprog
