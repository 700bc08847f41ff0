import Mcprog.Adapter.BitbangPieces
import Mcprog.Adapter.BitbangScan
import Mcprog.Adapter.PortAdapter

/-!
# The bitbang adapter in front of a processor

Each sample sets the pins of the port once: where TCK rises the port is clocked, and while the
reset line is low the processor is reset. The byte that comes back shows the pins before the sample
takes effect, so TDO is read with the sample by which TCK rises.
-/

namespace Mcprog

open Interaction Cells Jtag

variable {σ τ χ : Type}

/-- The processor and the level of TCK. -/
structure PortPins (τ : Type) where
  chain : Chain τ
  level : Bool

/-- What a sample does. TRST stays high. -/
def DebugPort.pinStep (P : DebugPort τ) (p : PortPins τ) (b : Byte) : PortPins τ :=
  let chain := if p.level = false ∧ b &&& tck ≠ 0 then P.clock p.chain ⟨b &&& tms ≠ 0, b &&& tdi ≠ 0⟩ else p.chain
  let held := if b &&& nsysrst = 0 then P.hardReset chain.held else chain.held
  ⟨{ chain with held }, b &&& tck ≠ 0⟩

/-- Behind the pipe there are the pins of a processor. What waits comes in one piece where there is
room for it. -/
structure BulkPipe.Samples (pipe : BulkPipe σ) (P : DebugPort τ) (respond : χ → Byte → χ × Byte)
    (pins : χ → PortPins τ) (view : σ → χ × List Byte) : Prop extends pipe.Echoes respond view where
  step : ∀ c b, pins (respond c b).1 = P.pinStep (pins c) b
  tdo : ∀ c b, decide ((respond c b).2 &&& readTdo ≠ 0) = P.tdo (pins c).chain
  whole : ∀ size s, (view s).2 ≠ [] → (view s).2.length + 2 ≤ size →
    ∃ reply, (pipe.read size s).1 = some reply ∧ reply.length = (view s).2.length + 2

variable {pipe : BulkPipe σ} {P : DebugPort τ} {respond : χ → Byte → χ × Byte} {pins : χ → PortPins τ}
  {view : σ → χ × List Byte}

/-- While TCK is low nothing happens. -/
theorem DebugPort.pinStep_low (p : PortPins τ) (mode data : Bool) :
    P.pinStep p (sample false mode data) = ⟨p.chain, false⟩ := by
  have hlow : sample false mode data &&& tck = 0 := by cases mode <;> cases data <;> decide
  have hrst : sample false mode data &&& nsysrst ≠ 0 := by cases mode <;> cases data <;> decide
  unfold DebugPort.pinStep
  dsimp only
  rw [if_neg hrst, if_neg fun h => h.2 hlow, hlow]
  rfl

/-- Where TCK rises the port is clocked. -/
theorem DebugPort.pinStep_high (c : Chain τ) (mode data : Bool) :
    P.pinStep ⟨c, false⟩ (sample true mode data) = ⟨P.clock c ⟨mode, data⟩, true⟩ := by
  have hhigh : sample true mode data &&& tck ≠ 0 := by cases mode <;> cases data <;> decide
  have hrst : sample true mode data &&& nsysrst ≠ 0 := by cases mode <;> cases data <;> decide
  have hmode : decide (sample true mode data &&& tms ≠ 0) = mode := by cases mode <;> cases data <;> rfl
  have hdata : decide (sample true mode data &&& tdi ≠ 0) = data := by cases mode <;> cases data <;> rfl
  unfold DebugPort.pinStep
  dsimp only
  rw [if_neg hrst, if_pos ⟨rfl, hhigh⟩, hmode, hdata, decide_eq_true hhigh]

/-- The samples of clocks clock the port, and TCK is low at last. -/
theorem DebugPort.pins_clockSamples (p : PortPins τ) (clocks : List Clock) :
    (clockSamples clocks ++ [lastSample]).foldl P.pinStep p = ⟨P.after p.chain clocks, false⟩ := by
  induction clocks generalizing p with
  | nil => exact pinStep_low p true true
  | cons k clocks ih =>
    have hcons : clockSamples (k :: clocks) ++ [lastSample] =
        sample false k.tms k.tdi :: sample true k.tms k.tdi :: (clockSamples clocks ++ [lastSample]) := rfl
    rw [hcons, List.foldl_cons, List.foldl_cons, pinStep_low, pinStep_high, ih]
    rfl

namespace BulkPipe.Samples

/-- The pins follow the samples. -/
theorem pins_echo (h : pipe.Samples P respond pins view) (c : χ) (bytes : List Byte) :
    pins (echo respond c bytes).1 = bytes.foldl P.pinStep (pins c) := by
  induction bytes generalizing c with
  | nil => rfl
  | cons b bytes ih =>
    rw [echo, ih, h.step]
    rfl

/-- Every second byte shows the bit before its clock. -/
theorem tdo_echo (h : pipe.Samples P respond pins view) (c : χ) {clocks : List Clock} (rest : List Byte) {i : Nat}
    (hi : i < clocks.length) :
    decide ((echo respond c (clockSamples clocks ++ rest)).2.getD (2 * i + 1) 0 &&& readTdo ≠ 0) =
      (P.captured (pins c).chain clocks).getD i false := by
  induction clocks generalizing c i with
  | nil => exact absurd hi (Nat.not_lt_zero i)
  | cons k clocks ih =>
    obtain ⟨c₁, hc₁⟩ : ∃ c₁, c₁ = (respond c (sample false k.tms k.tdi)).1 := ⟨_, rfl⟩
    obtain ⟨c₂, hc₂⟩ : ∃ c₂, c₂ = (respond c₁ (sample true k.tms k.tdi)).1 := ⟨_, rfl⟩
    have hpins₁ : pins c₁ = ⟨(pins c).chain, false⟩ := by rw [hc₁, h.step, DebugPort.pinStep_low]
    have hpins₂ : (pins c₂).chain = P.clock (pins c).chain k := by
      rw [hc₂, h.step, hpins₁, DebugPort.pinStep_high]
    have hecho : (echo respond c (clockSamples (k :: clocks) ++ rest)).2 =
        (respond c (sample false k.tms k.tdi)).2 :: (respond c₁ (sample true k.tms k.tdi)).2 ::
          (echo respond c₂ (clockSamples clocks ++ rest)).2 := by
      rw [hc₂, hc₁]
      rfl
    rw [hecho, TapUnit.captured]
    cases i with
    | zero =>
      have hbit := h.tdo c₁ (sample true k.tms k.tdi)
      rw [hpins₁] at hbit
      exact hbit
    | succ i =>
      have hnext := ih c₂ (Nat.lt_of_succ_lt_succ hi)
      rw [hpins₂] at hnext
      exact hnext

/-- Each packet is answered in one piece. -/
theorem wholeReplies (h : pipe.Samples P respond pins view) (bytes : List Byte) {s : σ} (hpending : (view s).2 = []) :
    WholeReplies pipe bytes s := by
  have hfifo : fifoSize = 62 := rfl
  induction hk : bytes.length using Nat.strong_induction_on generalizing bytes s with
  | _ k ih =>
    by_cases hempty : bytes = []
    · rw [hempty]
      exact .done s
    · have hpos := List.length_pos_iff.mpr hempty
      obtain ⟨s₁, htakes⟩ := h.takes (bytes.take fifoSize) s
      have hview := htakes.view_eq h.toEchoes
      rw [hpending, List.nil_append] at hview
      have hcount : (view s₁).2.length = (bytes.take fifoSize).length := by rw [hview, length_echo]
      have htake : 0 < (bytes.take fifoSize).length := by
        rw [List.length_take]
        omega
      have hwaits : (view s₁).2 ≠ [] := List.length_pos_iff.mp (by rwa [hcount])
      obtain ⟨reply, hread, hlen⟩ := h.whole ((bytes.take fifoSize).length + 2) s₁ hwaits (by rw [hcount])
      obtain ⟨status, data, hread', hstatus, hdata, -, -⟩ :=
        h.read ((bytes.take fifoSize).length + 2) s₁ (by omega)
      obtain rfl := Option.some.inj (hread.symm.trans hread')
      rw [List.length_append, hstatus] at hlen
      have hsplit := congrArg List.length hdata
      rw [List.length_append] at hsplit
      refine .packet hempty htakes hread (by rw [List.length_append, hstatus]; omega) ?_
      exact ih _ (by rw [List.length_drop]; omega) (bytes.drop fifoSize)
        (List.length_eq_zero_iff.mp (by omega)) rfl

end BulkPipe.Samples

/-- A reply leaves the device as it is. -/
theorem chip_readReply (h : pipe.Echoes respond view) {a a' : Attached Bitbang σ} {tr : List Transfer}
    {fuel bytesToRead bytesRead rxdone rxdone' : Nat}
    (hr : (readReply pipe fuel bytesToRead bytesRead rxdone).Returns a rxdone' tr a') :
    (view a'.usb).1 = (view a.usb).1 := by
  induction fuel generalizing bytesRead rxdone a tr with
  | zero =>
    rw [readReply] at hr
    split at hr
    · exact absurd hr Program.not_returns_stop
    · obtain ⟨-, -, rfl⟩ := Program.returns_pure_iff.mp hr
      rfl
  | succ fuel ih =>
    rw [readReply] at hr
    split at hr
    · obtain ⟨reply, tr₁, a₁, tr₂, h₁, h₂, rfl⟩ := Program.returns_bind_iff.mp hr
      obtain ⟨heq, -⟩ := Program.returns_request_iff.mp h₁
      obtain ⟨hreply, rfl⟩ := Prod.mk.inj (Except.ok.inj heq)
      obtain ⟨status, data, hread, -, -, hchip, -⟩ :=
        h.read _ a.usb (show 2 < bytesToRead - bytesRead + 2 by omega)
      obtain rfl := hreply.symm.trans hread
      dsimp only at h₂
      split at h₂
      · split at h₂
        · exact absurd h₂ Program.not_returns_stop
        · obtain ⟨_, tr₃, a₃, tr₄, h₃, h₄, rfl⟩ := Program.returns_bind_iff.mp h₂
          obtain ⟨rfl, rfl⟩ := Program.returns_update_iff.mp h₃
          exact (ih h₄).trans hchip
      · exact (ih h₂).trans hchip
    · obtain ⟨-, -, rfl⟩ := Program.returns_pure_iff.mp hr
      rfl

/-- The device has answered every sample that it has taken. -/
theorem chip_exchange (h : pipe.Echoes respond view) {a a' : Attached Bitbang σ} {tr : List Transfer}
    {fuel txdone rxdone emptyRxfifo : Nat}
    (hr : (exchange pipe fuel txdone rxdone emptyRxfifo).Returns a () tr a') :
    (view a'.usb).1 = (echo respond (view a.usb).1 (taken tr)).1 := by
  induction fuel generalizing a txdone rxdone emptyRxfifo tr with
  | zero => exact absurd hr Program.not_returns_stop
  | succ fuel ih =>
    rw [exchange] at hr
    obtain ⟨own, tr₁, a₁, tr₂, h₁, h₂, rfl⟩ := Program.returns_bind_iff.mp hr
    obtain ⟨rfl, rfl, rfl⟩ := getOwn_returns.unique h₁
    rw [taken_append, show taken [] = [] from rfl, List.nil_append]
    split at h₂
    · obtain ⟨_, tr₃, a₃, tr₄, h₃, h₄, rfl⟩ := Program.returns_bind_iff.mp h₂
      have hchip := congrArg Prod.fst ((takes_of_writePacket h₃).view_eq h)
      rw [taken_append, (writePacket_returns h₃).1, echo_append]
      dsimp only at hchip ⊢
      rw [← hchip]
      dsimp only at h₄
      split at h₄
      · obtain ⟨rxdone', tr₅, a₅, tr₆, h₅, h₆, rfl⟩ := Program.returns_bind_iff.mp h₄
        rw [taken_append, (readReply_returns h₅).1, List.nil_append, ← chip_readReply h h₅]
        exact ih h₆
      · exact ih h₄
    · obtain ⟨-, rfl, rfl⟩ := Program.returns_pure_iff.mp h₂
      rfl

variable {a : Attached Bitbang σ}

/-- The buffer is exchanged for what comes back. -/
theorem BulkPipe.Samples.sendRecv (h : pipe.Samples P respond pins view) (hroom : a.own.outputLen < bitbangSize)
    (hpending : (view a.usb).2 = []) :
    ∃ a', Program.Eventual (bitbangSendRecv pipe) a () a' ∧ a'.own.outputLen = 0 ∧ (view a'.usb).2 = [] ∧
      (view a'.usb).1 = (echo respond (view a.usb).1 (samples a.own)).1 ∧
      a'.own.bytes 0 (a.own.outputLen + 1) = (echo respond (view a.usb).1 (samples a.own)).2 := by
  obtain ⟨own₁, hown₁⟩ : ∃ own₁, own₁ = [lastSample].foldl Bitbang.push a.own := ⟨_, rfl⟩
  have hlen₁ : own₁.outputLen = a.own.outputLen + 1 := by
    rw [hown₁]
    exact outputLen_foldl_push a.own [lastSample]
  have hbytes₁ : samples a.own = own₁.bytes 0 (own₁.outputLen - 0) := by rw [hown₁, bytes_samples]
  obtain ⟨s', enough, hpending', henough⟩ := (h.wholeReplies (samples a.own) hpending).exchange own₁ h.toEchoes
    hbytes₁ (Nat.zero_le _) (by omega) hpending
  obtain ⟨received, hreceived⟩ : ∃ received, received = (echo respond (view a.usb).1 (samples a.own)).2 := ⟨_, rfl⟩
  rw [← hreceived] at henough ⊢
  have hcount : received.length = a.own.outputLen + 1 := by
    rw [hreceived, length_echo, samples, List.length_append, length_repliesBytes]
    rfl
  have hchip : (view s').1 = (echo respond (view a.usb).1 (samples a.own)).1 := by
    obtain ⟨tr, hr⟩ := henough enough (le_refl enough)
    have htaken := exchange_returns hr (Nat.zero_le _) (le_refl _) (le_refl _)
    rw [hbytes₁, ← htaken]
    exact chip_exchange h.toEchoes hr
  refine ⟨⟨⟨store own₁.output 0 received, 0⟩, s'⟩, ⟨enough, fun fuel hfuel => ?_⟩, rfl, hpending', hchip, ?_⟩
  · have hfirst := (adds_bitbangWrite false true true) a hroom
    rw [show (⟨[sample false true true].foldl Bitbang.push a.own, a.usb⟩ : Attached Bitbang σ) =
      ⟨own₁, a.usb⟩ by rw [hown₁]; rfl] at hfirst
    exact hfirst.reaches.bind ((henough fuel hfuel).bind (setOwn_returns _).reaches)
  · have hmap := map_store own₁.output 0 received
    rwa [hcount] at hmap

end Mcprog
