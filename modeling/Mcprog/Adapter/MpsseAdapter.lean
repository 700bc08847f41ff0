import Mcprog.Adapter.PortMemory

/-!
# The MPSSE adapter as its callers see it

Every call of the adapter does to the processor behind the port what the register-level adapter
does to it, so no caller can tell the one from the other: not by the answers, and not by an exit.
-/

namespace Mcprog

open Interaction Jtag

variable {σ τ α : Type} {pipe : BulkPipe σ} {P : DebugPort τ} {view : σ → Chip τ × List Byte}
  {s : Session (Attached MpssePort σ)} {m : Session τ}

/-- A block method that answers. -/
theorem corresponds_serialExtension {f : Nat → Word → UsbAction MpssePort σ (Word × α)} {oscr : Word} {answer : α}
    {a' : Attached MpssePort σ} {t : τ} (h : Eventually (fun fuel => f fuel s.oscr) s.device (oscr, answer) a')
    (hw : Waiting P view a' t) :
    Corresponds (Session.Pairs (Waiting P view)) (fun fuel => serialExtension (f fuel) s) (.ok (answer, ⟨oscr, t⟩)) := by
  obtain ⟨enough, henough⟩ := h
  refine ⟨⟨oscr, a'⟩, ⟨rfl, hw⟩, enough, fun fuel hfuel => ?_⟩
  dsimp only
  rw [serialExtension, (henough fuel hfuel).handle]
  rfl

/-- The stores of a block method match those of the register-level adapter. -/
theorem corresponds_stores (h : pipe.Drives P view) (hs : Session.Pairs (Waiting P view) s m) (args : List (Word × Word)) :
    Corresponds (Session.Pairs (Waiting P view))
      (fun fuel => serialStores (fun oscr => do
        Mpsse.allow pipe fuel oscr (Mpsse.writable oscr)
        Mpsse.storeNwords pipe fuel args
        return Mpsse.writable oscr) s)
      (method (do
        allowMemory P.adapter fun oscr => (oscr &&& ~~~oscrRo) ||| oscrSlctMem
        mpsseWords P.adapter args : Action τ Unit) m) := by
  obtain ⟨a', hstores, hw⟩ := hs.2.stores h m.oscr args
  rw [method_of_reaches (DebugPort.reaches_stores args m)]
  refine corresponds_serialExtension ?_ hw
  rw [hs.1]
  exact hstores.bind (eventually_of_reaches fun _ => Program.reaches_pure _ _)

/-- The block of a read corresponds to the loads of the register-level adapter. -/
theorem corresponds_block (h : pipe.Drives P view) (hs : Session.Pairs (Waiting P view) s m) (nwords addr : Word) :
    Corresponds (Session.Pairs (Waiting P view))
      (fun fuel => serialExtension (fun oscr => do
        let (oscr, words) ← mpsseBlock pipe fuel oscr nwords addr
        return (oscr, fun i => words.getD i 0)) s)
      (method (mpsseReadBlock P.adapter nwords addr) m) := by
  obtain ⟨a', hblock, hw⟩ := hs.2.block h m.oscr nwords addr
  rw [method_of_reaches (DebugPort.reaches_mpsseReadBlock nwords addr m)]
  refine corresponds_serialExtension ?_ hw
  rw [hs.1]
  exact hblock.bind (f := fun _ r => pure (r.1, fun i => r.2.getD i 0))
    (eventually_of_reaches fun _ => Program.reaches_pure _ _)

/-- At every call the adapter corresponds to the register-level one. -/
theorem mpsseAdapter_corresponds (h : pipe.Drives P view) (call : AdapterCall)
    (hs : Session.Pairs (Waiting P view) s m) :
    Corresponds (Session.Pairs (Waiting P view)) (fun fuel => (mpsseAdapter pipe fuel).device call s)
      ((ft2232 P.adapter).device call m) := by
  cases call with
  | close =>
    obtain ⟨a', hclose, hw⟩ := hs.2.close h
    exact hs.lift (f := fun fuel => (mpsseAdapter pipe fuel).close) (g := P.adapter.close)
      (corresponds_of_reaches hclose hw)
  | getIdcode =>
    obtain ⟨a', hcode, hw⟩ := hs.2.getIdcode h
    exact hs.lift (f := fun fuel => (mpsseAdapter pipe fuel).getIdcode) (g := P.adapter.getIdcode)
      (corresponds_of_reaches hcode hw)
  | cpuStopped =>
    obtain ⟨a', hstopped, hw⟩ := hs.2.cpuStopped h
    exact hs.lift (f := fun fuel => (mpsseAdapter pipe fuel).cpuStopped) (g := P.adapter.cpuStopped)
      (corresponds_of_reaches hstopped hw)
  | stopCpu =>
    refine hs.lift ?_
    exact hs.2.stopCpu h
  | resetCpu =>
    obtain ⟨a', hreset, hw⟩ := hs.2.resetCpu h
    exact hs.lift (f := fun fuel => (mpsseAdapter pipe fuel).resetCpu) (g := P.adapter.resetCpu)
      (corresponds_of_reaches hreset hw)
  | oncdWrite value reg nbits =>
    have hlen := nbits.property
    obtain ⟨a', hwrite, hw⟩ := hs.2.oncdWrite h value (BitVec.ofNat 32 reg.val) (show nbits.val ≤ 32 by omega)
    exact hs.lift (f := fun fuel => (mpsseAdapter pipe fuel).oncdWrite value reg.val nbits.val)
      (g := P.adapter.oncdWrite value reg.val nbits.val) (corresponds_of_reaches hwrite hw)
  | oncdRead reg nbits =>
    obtain ⟨a', hread, hw⟩ := hs.2.oncdRead h (BitVec.ofNat 32 reg.val) nbits
    exact hs.lift (f := fun fuel => (mpsseAdapter pipe fuel).oncdRead reg.val nbits.val)
      (g := P.adapter.oncdRead reg.val nbits.val) (corresponds_of_reaches hread hw)
  | readBlock nwords addr => exact corresponds_block h hs nwords addr
  | writeBlock addr data =>
    have hstores := corresponds_stores h hs (consecutive addr data)
    simp only [← Mpsse.storeWords_eq] at hstores
    exact hstores
  | writeNwords args => exact corresponds_stores h hs args
  | programBlock32 args =>
    have hstores := corresponds_stores h hs ((consecutive args.addr args.data).flatMap fun a =>
      [(args.base + args.addrOdd, args.cmdAA), (args.base + args.addrEven, args.cmd55),
        (args.base + args.addrOdd, args.cmdA0), a])
    simp only [← Mpsse.programWords_eq] at hstores
    exact hstores
  | stepCpu => exact corresponds_nullMethod
  | runCpu => exact corresponds_nullMethod
  | programBlock32Unprotect args => exact corresponds_nullMethod
  | programBlock32Protect args => exact corresponds_nullMethod
  | programBlock64 args => exact corresponds_nullMethod
  | programBlock32Micron addr data => exact corresponds_nullMethod

/-- Whatever a caller asks, and however it goes on with the replies, its run over the bulk transfers
ends as its run over the registers does, with what waits in the buffer still to take effect. -/
theorem mpsseAdapter_run (h : pipe.Drives P view) (caller : Caller AdapterCall.Reply α)
    (hs : Session.Pairs (Waiting P view) s m) :
    Corresponds (Session.Pairs (Waiting P view)) (fun fuel => caller.run (mpsseAdapter pipe fuel).device s)
      (caller.run (ft2232 P.adapter).device m) :=
  caller.corresponds_run (fun call _ _ hs => mpsseAdapter_corresponds h call hs) hs

/-- The chip in front of a processor, with the bytes that it has sent. -/
structure PortDevice (τ : Type) where
  chip : Chip τ
  pending : List Byte

/-- A device that delivers five bytes at most at each read. -/
def portPipe (P : DebugPort τ) : BulkPipe (PortDevice τ) where
  write bytes s :=
    (some bytes.length, ⟨(s.chip.execute P bytes.length bytes).1,
      s.pending ++ (s.chip.execute P bytes.length bytes).2⟩)
  read size s :=
    (some (([0x32, 0x60] ++ s.pending.take (min (size - 2) 5)).take size),
      { s with pending := s.pending.drop (min (size - 2) 5) })
  write_le h := (Option.some.inj h).symm.le
  read_le h := by
    rw [← Option.some.inj h]
    exact List.length_take_le _ _

theorem drives_portPipe (P : DebugPort τ) : (portPipe P).Drives P fun s => (s.chip, s.pending) where
  write bytes s := ⟨rfl, _, Chip.executes_execute P s.chip (le_refl bytes.length), rfl⟩
  read size s hsize := by
    refine ⟨[0x32, 0x60], s.pending.take (min (size - 2) 5), ?_, rfl, (List.take_append_drop _ _).symm, rfl⟩
    have hlen : ([0x32, 0x60] ++ s.pending.take (min (size - 2) 5)).length ≤ size := by
      rw [List.length_append, List.length_take]
      simp only [List.length_cons, List.length_nil]
      omega
    exact congrArg some (List.take_of_length_le hlen)
  delivers size s hsize hpending := by
    refine ⟨1, fun hsame => ?_⟩
    have hlen : (s.pending.drop (min (size - 2) 5)).length = s.pending.length := congrArg List.length hsame
    have hpos : 0 < s.pending.length := List.length_pos_iff.mpr hpending
    rw [List.length_drop] at hlen
    omega

/-- The adapter and the device when they are switched on. -/
def freshDevice (t : τ) : Attached MpssePort (PortDevice τ) :=
  ⟨⟨[], fun _ => 0, 0, 0, 0, 0, 0, 0⟩, ⟨⟨⟨true, true⟩, ⟨.runTestIdle, [], t⟩⟩, []⟩⟩

theorem waiting_freshDevice (P : DebugPort τ) (t : τ) :
    Waiting P (fun s : PortDevice τ => (s.chip, s.pending)) (freshDevice t) t :=
  Settled.waiting ⟨rfl, rfl, rfl, .inl rfl, rfl⟩

/-- The processor is asked for its number, stopped, and asked whether it is stopped. -/
def stopCaller : Caller AdapterCall.Reply (Word × Bool) :=
  .call .getIdcode fun idcode => .call .stopCpu fun _ => .call .cpuStopped fun stopped => .done (idcode, stopped)

set_option maxRecDepth 4000 in
theorem mpsseAdapter_run_stop : ∃ s' enough, ∀ fuel ≥ enough,
    stopCaller.run (mpsseAdapter (portPipe (ramPort 0x20777001)) fuel).device
      ⟨0, freshDevice ⟨3, false, 0, 0, 0, fun _ => 0⟩⟩ = .ok ((0x20777001, true), s') := by
  have hrun := mpsseAdapter_run (drives_portPipe (ramPort 0x20777001)) stopCaller
    (s := ⟨0, freshDevice ⟨3, false, 0, 0, 0, fun _ => 0⟩⟩) (m := ⟨0, ⟨3, false, 0, 0, 0, fun _ => 0⟩⟩)
    ⟨rfl, waiting_freshDevice _ _⟩
  have hend : stopCaller.run (ft2232 (ramPort 0x20777001).adapter).device ⟨0, ⟨3, false, 0, 0, 0, fun _ => 0⟩⟩ =
      .ok ((0x20777001, true), ⟨0, ⟨5, true, 0, 0, 0, fun _ => 0⟩⟩) := rfl
  rw [hend] at hrun
  obtain ⟨s', -, enough, henough⟩ := hrun
  exact ⟨s', enough, henough⟩

/-- Write a block and read it back. -/
def writeRead (addr : Word) (data : List Word) : Caller AdapterCall.Reply (Nat → Word) :=
  .call (.writeBlock addr data) fun _ => .call (.readBlock (BitVec.ofNat 32 data.length) addr) fun words => .done words

/-- A block is read back as it was written, and the rest of the memory is left alone. -/
theorem mpsseAdapter_writeRead (h : pipe.Drives P view) (U : PortMemory P) {mem : Word → Word}
    (hs : Session.Pairs (Waiting P view) s m) (hm : U.Holds m.oscr mem m.device) (addr : Word)
    {data : List Word} (hlen : data.length ≤ 2 ^ 30) :
    ∃ words s' t', (∃ enough, ∀ fuel ≥ enough,
        (writeRead addr data).run (mpsseAdapter pipe fuel).device s = .ok (words, s')) ∧
      (∀ i < data.length, words i = data.getD i 0) ∧
      Waiting P view s'.device t' ∧ (∀ i < data.length, U.mem t' (addr + BitVec.ofNat 32 (i * 4)) = data.getD i 0) ∧
      ∀ a, (∀ i < data.length, a ≠ addr + BitVec.ofNat 32 (i * 4)) → U.mem t' a = mem a := by
  obtain ⟨oscr, t⟩ := m
  have hstores := (hm.allow (Mpsse.writable oscr)).stores (PortMemory.writesMem_writable oscr) (consecutive addr data)
  obtain ⟨t₁, ht₁⟩ : ∃ t₁, t₁ = P.stores (consecutive addr data) (P.allow oscr (Mpsse.writable oscr) t) := ⟨_, rfl⟩
  obtain ⟨oscr₁, hoscr₁⟩ : ∃ oscr₁, oscr₁ = Mpsse.writable oscr := ⟨_, rfl⟩
  obtain ⟨oscr₂, hoscr₂⟩ : ∃ oscr₂, oscr₂ = oscr₁ ||| oscrSlctMem ||| oscrRo := ⟨_, rfl⟩
  rw [← ht₁, ← hoscr₁] at hstores
  have hcount : (BitVec.ofNat 32 data.length).toNat = data.length := by
    rw [BitVec.toNat_ofNat, Nat.mod_eq_of_lt (by omega)]
  obtain ⟨hwords, hloads⟩ := (hstores.allow oscr₂).loads (by rw [hoscr₂]; exact PortMemory.reads_readable oscr₁)
    data.length addr
  obtain ⟨r, hr⟩ : ∃ r, r = P.loads data.length addr (P.allow oscr₁ oscr₂ t₁) := ⟨_, rfl⟩
  rw [← hr] at hwords hloads
  have hend : (writeRead addr data).run (ft2232 P.adapter).device ⟨oscr, t⟩ =
      .ok (fun i => r.1.getD i 0, ⟨oscr₂, r.2⟩) := by
    have hwrite : (ft2232 P.adapter).device (.writeBlock addr data) ⟨oscr, t⟩ = .ok ((), ⟨oscr₁, t₁⟩) := by
      rw [hoscr₁, ht₁]
      exact method_of_reaches (DebugPort.reaches_stores (consecutive addr data) ⟨oscr, t⟩)
    have hread : (ft2232 P.adapter).device (.readBlock (BitVec.ofNat 32 data.length) addr) ⟨oscr₁, t₁⟩ =
        .ok (fun i => r.1.getD i 0, ⟨oscr₂, r.2⟩) := by
      have hblock := method_of_reaches (DebugPort.reaches_mpsseReadBlock (P := P) (BitVec.ofNat 32 data.length) addr
        ⟨oscr₁, t₁⟩)
      rw [hcount] at hblock
      rw [hr, hoscr₂]
      exact hblock
    exact (Caller.run_call hwrite).trans (Caller.run_call hread)
  have hrun : Corresponds (Session.Pairs (Waiting P view))
      (fun fuel => (writeRead addr data).run (mpsseAdapter pipe fuel).device s)
      ((writeRead addr data).run (ft2232 P.adapter).device ⟨oscr, t⟩) :=
    (writeRead addr data).corresponds_run (fun call _ _ hs => mpsseAdapter_corresponds h call hs) hs
  rw [hend] at hrun
  obtain ⟨s', ⟨-, hw⟩, hreach⟩ := hrun
  refine ⟨_, s', r.2, hreach, fun i hi => ?_, hw, fun i hi => ?_, fun a ha => ?_⟩
  · exact (hwords i hi).trans (PortMemory.stored_consecutive mem addr hlen hi)
  · rw [hloads.mem]
    exact PortMemory.stored_consecutive mem addr hlen hi
  · rw [hloads.mem, PortMemory.stored_of_ne]
    intro w hw
    obtain ⟨i, hi, hwa⟩ := PortMemory.mem_consecutive hw
    rw [hwa]
    exact (ha i hi).symm

/-- Three words over the bulk transfers. -/
theorem mpsseAdapter_writeRead_three : ∃ words s' enough, (∀ fuel ≥ enough,
    (writeRead 0xA0000000 [7, 8, 9]).run (mpsseAdapter (portPipe (ramPort 0x20777001)) fuel).device
      ⟨0, freshDevice ⟨5, true, 0, 0, 0, fun _ => 0⟩⟩ = .ok (words, s')) ∧ words 0 = 7 ∧ words 1 = 8 ∧ words 2 = 9 := by
  have hzero : (ramMemory 0x20777001).Holds 0 (fun _ => 0) ⟨5, true, 0, 0, 0, fun _ => 0⟩ :=
    ⟨by change (5 : BitVec 4) ≠ 3; decide, rfl, rfl⟩
  obtain ⟨words, s', -, ⟨enough, henough⟩, hwords, -⟩ :=
    mpsseAdapter_writeRead (drives_portPipe (ramPort 0x20777001)) (ramMemory 0x20777001)
      (s := ⟨0, freshDevice ⟨5, true, 0, 0, 0, fun _ => 0⟩⟩) (m := ⟨0, ⟨5, true, 0, 0, 0, fun _ => 0⟩⟩)
      ⟨rfl, waiting_freshDevice _ _⟩ hzero 0xA0000000 (by decide : [(7 : Word), 8, 9].length ≤ 2 ^ 30)
  exact ⟨words, s', enough, henough, hwords 0 (by decide), hwords 1 (by decide), hwords 2 (by decide)⟩

end Mcprog
