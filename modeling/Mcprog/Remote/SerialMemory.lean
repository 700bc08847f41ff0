import Mcprog.Adapter.PortRam
import Mcprog.Adapter.Serial
import Mcprog.Remote.MemoryRuns

/-!
# Memory packets over the serial adapters

What a debugger writes into ordinary memory it reads back, from its packets through the proxy, the
accesses to the target and the methods of the adapter down to the bytes of the bulk endpoints.
-/

namespace Mcprog

open Interaction Jtag

variable {σ τ μ χ : Type} {M : AddressSpace μ} {p : Proxy}

/-- A range of ordinary memory that is within one segment. -/
theorem plainWords_of_range {base : Word} {len : Nat} (hpos : 0 < len)
    (hcross : ∀ b ∈ [0x80000000, 0xA0000000, 2 ^ 32], ¬Crosses base.toNat len b)
    (hord : M.Ordinary (RangeWords base.toNat len)) :
    M.PlainWords (base.toNat / 4) ((base.toNat + len + 3) / 4) := by
  have hno := hcross (2 ^ 32) (by decide)
  have hlt := base.isLt
  rw [Crosses] at hno
  exact plainWords_of_ordinary hord hpos (by omega) (hcross _ (by decide)) (hcross _ (by decide))

variable {pipe : BulkPipe σ} {P : DebugPort τ} {view : σ → Chip τ × List Byte} {respond : χ → Byte → χ × Byte}
  {pins : χ → PortPins τ} {view' : σ → χ × List Byte}

/-- Over the bulk transfers of the MPSSE adapter the memory is reached by blocks. -/
theorem mpsseAdapter_reaches (h : pipe.Drives P view) (U : PortRam P M) :
    ReachesMemoryAs (Relation.Comp (Waiting P view) U.Shows) (mpsseAdapter pipe) (ft2232 (memoryPort M)) :=
  (mpsseAdapter_standsFor h).toReachesMemoryAs.trans U.reaches.ft2232

/-- Over those of the bitbang adapter it is reached word by word. -/
theorem bitbangAdapter_reaches (h : pipe.Samples P respond pins view') (U : PortRam P M) :
    ReachesMemoryAs (Relation.Comp (Clocked P pins view' []) U.Shows) (bitbangAdapter pipe) (memoryPort M) :=
  (bitbangAdapter_standsFor h).toReachesMemoryAs.trans U.reaches

section Runs

variable {base : Word} {len : Nat} {m : μ}

/-- The proxy over the MPSSE adapter answers packets for a range of ordinary memory that is within one
segment as an array of bytes does, and leaves the bytes of the array in the memory. -/
theorem mpsseProxy_replies (h : pipe.Drives P view) (U : PortRam P M) (hpos : 0 < len)
    (hcross : ∀ b ∈ [0x80000000, 0xA0000000, 2 ^ 32], ¬Crosses base.toNat len b)
    (hord : M.Ordinary (RangeWords base.toNat len)) (hp : p.Serving) (requests : List Requested)
    (hin : ∀ r ∈ requests, r.1.Within base.toNat len) {s : Session (Attached MpssePort σ)}
    (hs : (ft2232_serves M).Behind (Relation.Comp (Waiting P view) U.Shows) m s) :
    ∃ tr s' m', (∃ enough, ∀ fuel ≥ enough,
        (proxyTurns (mpsseAdapter pipe fuel) p (requests.map Requested.input)).Returns s p tr s') ∧
      tr.filterMap ProxyEvent.answer = MemoryRequest.replies (M.byteAt m) (requests.map Prod.fst) ∧
      (ft2232_serves M).Behind (Relation.Comp (Waiting P view) U.Shows) m' s' ∧
      ∀ x, base.toNat ≤ x → x < base.toNat + len →
        M.byteAt m' x = (requests.map Prod.fst).foldl MemoryRequest.change (M.byteAt m) x := by
  obtain ⟨tr, s', m', hrun, hreplies, hs', hm'⟩ := behind_replies (mpsseAdapter_reaches h U) (ft2232_serves M)
    (plainWords_of_range hpos hcross hord) hp (fun _ _ _ => rfl) requests hin hs
  exact ⟨tr, s', m', hrun, hreplies, hs', fun x hlo hhi => hm' x (by omega) (by omega)⟩

/-- So does the proxy over the bitbang adapter. -/
theorem bitbangProxy_replies (h : pipe.Samples P respond pins view') (U : PortRam P M) (hpos : 0 < len)
    (hcross : ∀ b ∈ [0x80000000, 0xA0000000, 2 ^ 32], ¬Crosses base.toNat len b)
    (hord : M.Ordinary (RangeWords base.toNat len)) (hp : p.Serving) (requests : List Requested)
    (hin : ∀ r ∈ requests, r.1.Within base.toNat len) {s : Session (Attached Bitbang σ)}
    (hs : (memoryPort_serves M).Behind (Relation.Comp (Clocked P pins view' []) U.Shows) m s) :
    ∃ tr s' m', (∃ enough, ∀ fuel ≥ enough,
        (proxyTurns (bitbangAdapter pipe fuel) p (requests.map Requested.input)).Returns s p tr s') ∧
      tr.filterMap ProxyEvent.answer = MemoryRequest.replies (M.byteAt m) (requests.map Prod.fst) ∧
      (memoryPort_serves M).Behind (Relation.Comp (Clocked P pins view' []) U.Shows) m' s' ∧
      ∀ x, base.toNat ≤ x → x < base.toNat + len →
        M.byteAt m' x = (requests.map Prod.fst).foldl MemoryRequest.change (M.byteAt m) x := by
  obtain ⟨tr, s', m', hrun, hreplies, hs', hm'⟩ := behind_replies (bitbangAdapter_reaches h U) (memoryPort_serves M)
    (plainWords_of_range hpos hcross hord) hp (fun _ _ _ => rfl) requests hin hs
  exact ⟨tr, s', m', hrun, hreplies, hs', fun x hlo hhi => hm' x (by omega) (by omega)⟩

end Runs

/-- The registers of the processor that has a memory. -/
def RamRegs.interface (t : RamRegs) : MemoryInterface (Word → Word) := ⟨t.omar, t.omdr, t.oscr, t.mem⟩

/-- A register that is written leaves the instruction. -/
theorem RamRegs.instruction_write (t : RamRegs) (reg : Nat) (val : Word) :
    (t.write reg val).instruction = t.instruction := by
  unfold RamRegs.write
  split
  · rfl
  · rfl
  · rfl
  · split
    · split <;> rfl
    · rfl
  · rfl

/-- A cycle of the port is one of the memory. -/
theorem RamRegs.interface_access (t : RamRegs) : (t.write 0x0D 0).interface = ram.access t.interface := by
  change RamRegs.interface (if t.oscr.getLsbD 0 then _ else t) =
    if t.oscr.getLsbD 0 then ram.cycle t.interface else t.interface
  split
  · rw [AddressSpace.cycle]
    change RamRegs.interface (if t.oscr.getLsbD 1 then _ else _) = if t.oscr.getLsbD 1 then _ else _
    split
    · rfl
    · rfl
  · rfl

/-- The control register shows that the memory is ready. -/
theorem oncdRead_ramPort_oscr {idcode : Word} {t : RamRegs} (h : t.instruction ≠ 3) :
    (ramPort idcode).oncdRead (BitVec.ofNat 32 oncdOscr) 32 t = (t.oscr ||| oscrRdym, t) := by
  have hreg : (ofBits 9 (DebugPort.readBits (BitVec.ofNat 32 oncdOscr) 32)).toNat = 0x40 := by decide
  have htake : (ofBits 9 ((DebugPort.readBits (BitVec.ofNat 32 oncdOscr) 32).take 9)).toNat = 0x40 := by decide
  rw [oncdRead_ramPort h fun value => by rw [hreg]; rfl, htake]
  rfl

/-- The processor with a memory of words. -/
def ramPortRam (idcode : Word) : PortRam (ramPort idcode) ram where
  selected t := t.instruction ≠ 3
  view := RamRegs.interface
  write t val reg h hreg := by
    rcases hreg with rfl | rfl | rfl
    · rw [oncdWrite_ramPort_omar h]
      exact ⟨h, rfl⟩
    · rw [oncdWrite_ramPort_omdr h]
      exact ⟨h, rfl⟩
    · rw [oncdWrite_ramPort_oscr h]
      exact ⟨h, rfl⟩
  access t h := by
    rw [oncdWrite_ramPort_mem h]
    refine ⟨?_, t.interface_access⟩
    rw [t.instruction_write]
    exact h
  read t reg h hreg := by
    rcases hreg with rfl | rfl
    · rw [oncdRead_ramPort_omdr h]
      exact ⟨rfl, h, rfl⟩
    · rw [oncdRead_ramPort_oscr h]
      exact ⟨rfl, h, rfl⟩

/-- The processor with its registers selected. -/
def ramStopped : RamRegs := ⟨5, true, 0, 0, 0, fun _ => 0⟩

theorem shows_ramStopped : (ramPortRam 0x20777001).Shows ramStopped ramStopped.interface := by
  refine ⟨?_, rfl⟩
  change (5 : BitVec 4) ≠ 3
  decide

/-- The proxy with a debugger. -/
def servingProxy : Proxy := { Proxy.started Target.allocated with doReinitialize := false, doConnect := 0 }

/-- Seven bytes from an odd address on, two of them written again, and a read across both. -/
def writesAndRead : List Requested :=
  [(.write 0x80000003 [1, 2, 3, 4, 5, 6, 7], [], ⟨⟨⟨fun _ => 0, []⟩, ⟨fun _ => 0, []⟩, 0⟩, 0, false⟩),
    (.write 0x80000005 [0xAA, 0xBB], [], ⟨⟨⟨fun _ => 0, []⟩, ⟨fun _ => 0, []⟩, 0⟩, 0, false⟩),
    (.read 0x80000004 4, [], ⟨⟨⟨fun _ => 0, []⟩, ⟨fun _ => 0, []⟩, 0⟩, 0, false⟩)]

theorem replies_writesAndRead : MemoryRequest.replies (ram.byteAt fun _ => 0) (writesAndRead.map Prod.fst) =
    [asciiText "OK", asciiText "OK", asciiText "02aabb05"] := by decide

/-- Through the bulk endpoints of the FT2232. -/
theorem mpsseProxy_replies_three : ∃ enough, ∀ fuel ≥ enough,
    (proxyTurns (mpsseAdapter (portPipe (ramPort 0x20777001)) fuel) servingProxy (writesAndRead.map Requested.input)
      ⟨0, freshDevice ramStopped⟩).trace.filterMap ProxyEvent.answer =
        [asciiText "OK", asciiText "OK", asciiText "02aabb05"] := by
  obtain ⟨tr, s', m', ⟨enough, henough⟩, hreplies, -⟩ := mpsseProxy_replies (drives_portPipe (ramPort 0x20777001))
    (ramPortRam 0x20777001) (by decide : 0 < 7)
    (by decide : ∀ b ∈ [0x80000000, 0xA0000000, 2 ^ 32], ¬Crosses (0x80000003 : Word).toNat 7 b) (ram_ordinary _)
    (p := servingProxy) ⟨rfl, rfl, rfl⟩ writesAndRead (by decide) (m := fun _ => 0)
    (s := ⟨0, freshDevice ramStopped⟩)
    ⟨⟨0, ramStopped.interface⟩, ⟨rfl, ramStopped, waiting_freshDevice _ _, shows_ramStopped⟩, ⟨rfl, rfl⟩, rfl⟩
  refine ⟨enough, fun fuel hfuel => ?_⟩
  have hrun := congrArg Outcome.trace (henough fuel hfuel)
  rw [hrun, hreplies, replies_writesAndRead]

/-- Through the pins of the FT232R. -/
theorem bitbangProxy_replies_three : ∃ enough, ∀ fuel ≥ enough,
    (proxyTurns (bitbangAdapter (pinPipe (ramPort 0x20777001)) fuel) servingProxy (writesAndRead.map Requested.input)
      ⟨0, freshPins ramStopped⟩).trace.filterMap ProxyEvent.answer =
        [asciiText "OK", asciiText "OK", asciiText "02aabb05"] := by
  obtain ⟨tr, s', m', ⟨enough, henough⟩, hreplies, -⟩ := bitbangProxy_replies (samples_pinPipe (ramPort 0x20777001))
    (ramPortRam 0x20777001) (by decide : 0 < 7)
    (by decide : ∀ b ∈ [0x80000000, 0xA0000000, 2 ^ 32], ¬Crosses (0x80000003 : Word).toNat 7 b) (ram_ordinary _)
    (p := servingProxy) ⟨rfl, rfl, rfl⟩ writesAndRead (by decide) (m := fun _ => 0)
    (s := ⟨0, freshPins ramStopped⟩)
    ⟨⟨0, ramStopped.interface⟩, ⟨rfl, ramStopped, clocked_freshPins _ _, shows_ramStopped⟩, ⟨rfl, rfl⟩, rfl⟩
  refine ⟨enough, fun fuel hfuel => ?_⟩
  have hrun := congrArg Outcome.trace (henough fuel hfuel)
  rw [hrun, hreplies, replies_writesAndRead]

end Mcprog
