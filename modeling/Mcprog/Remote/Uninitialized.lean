import Mcprog.Remote.Assertions

/-!
# Variables that are not initialized

The handlers of the packets `g` and `T` have local variables that they answer from. What is in
them before may be anything.
-/

namespace Mcprog

open Cells Interaction Program

variable {σ : Type} {A : Adapter σ} {p : Proxy} {t : Target}

/-- The answers that a run sends. -/
def replies (o : Outcome ProxyEvent (Session σ) Fatal Proxy) : List (List Byte) :=
  o.trace.filterMap ProxyEvent.answer

/-- A register in the answer to `g` has the digits of its value, or is marked as unavailable. -/
def RegisterShown (A : Adapter σ) (t : Target) (s : Session σ) (reply : List Byte) (n : Nat) : Prop :=
  (reply.drop (8 * n)).take 8 = List.replicate 8 (ascii 'x') ∨
    ∃ val t' s', (targetReadRegister A t n).Reaches s (val, t') s' ∧
      (reply.drop (8 * n)).take 8 = byteDigits (wordBytes val)

/-- Whatever the local variables hold, the answers are the same, and the answer to `g` has only
registers with their values or marked as unavailable. -/
structure Determined (A : Adapter σ) (p : Proxy) (pkt : Packet) (s : Session σ) : Prop where
  same : ∀ amb amb', replies (processPacket A p pkt amb s) = replies (processPacket A p pkt amb' s)
  shown : pkt.text.headD 0 = ascii 'g' → ∀ amb, ∀ reply ∈ replies (processPacket A p pkt amb s),
    ∀ n < numRegs, RegisterShown A p.target s reply n

/-- Read `n` registers from the one with the number `i` on. -/
def registerValues (A : Adapter σ) (i : Nat) : Nat → Target → Action σ (List Word × Target)
  | 0, t => return ([], t)
  | n + 1, t => do
    let (val, t) ← targetReadRegister A t i
    let (vals, t) ← registerValues A (i + 1) n t
    return (val :: vals, t)

/-- Store registers from the one with the number `i` on. -/
def ReadData.putAll (d : ReadData) (i : Nat) : List Word → ReadData
  | [] => d
  | val :: vals => (d.put (i * 4) val).putAll (i + 1) vals

theorem readRegistersFrom_eq (n i : Nat) (t : Target) (d : ReadData) :
    readRegistersFrom A i n t d = do
      let r ← registerValues A i n t
      return (d.putAll i r.1, r.2) := by
  induction n generalizing i t d with
  | zero => rfl
  | succ n ih =>
    rw [readRegistersFrom, registerValues, bind_assoc]
    congr 1
    funext ⟨val, t⟩
    dsimp only
    rw [ih, bind_assoc]
    rfl

theorem registerValues_length (n i : Nat) (t : Target) :
    (registerValues A i n t).Ensures fun r => r.1.length = n := by
  induction n generalizing i t with
  | zero => exact ensures_pure rfl
  | succ n ih =>
    refine ensures_bind fun r => (ih _ _).bind fun vals h => ensures_pure ?_
    rw [List.length_cons, h]

/-- What lies behind the registers that are stored stays. -/
theorem ReadData.get_putAll (vals : List Word) (d : ReadData) (i : Nat) {j : Nat}
    (h : i * 4 + 4 * vals.length ≤ j) :
    (d.putAll i vals).data.get j = d.data.get j ∧ (d.putAll i vals).avail.get j = d.avail.get j := by
  induction vals generalizing d i with
  | nil => exact ⟨rfl, rfl⟩
  | cons val vals ih =>
    rw [List.length_cons] at h
    obtain ⟨hdata, havail⟩ := ih (d.put (i * 4) val) (i + 1) (by omega)
    rw [putAll, hdata, havail]
    exact ⟨Buffer.get_setAll_of_ge _ (by change i * 4 + 4 ≤ j; omega),
      Buffer.get_setAll_of_ge _ (by change i * 4 + 4 ≤ j; omega)⟩

/-- The digits of a byte in the answer to `g`. -/
def shownByte (d : ReadData) (i : Nat) : List Byte :=
  if d.avail.get i ≠ 0 then rpEncodeByte (d.data.get i) else [ascii 'x', ascii 'x']

/-- The answer to `g`, from the buffers and the values that have been read. -/
def registersReply (d : ReadData) (vals : List Word) : List Byte :=
  (List.range regBytes).flatMap (shownByte (d.putAll 0 vals))

/-- The handler reads the registers, and then answers from its buffers. -/
theorem handleReadRegistersCommand_eq (amb : Ambient) (outBuf : List Byte) :
    handleReadRegistersCommand A t amb outBuf = (do
      let r ← calls (registerValues A 0 regnoFp0 t)
      answerWith r.2 (registersReply amb.read r.1)) := by
  rw [handleReadRegistersCommand, elveesReadRegisters, readRegistersFrom_eq, calls, mapEvents_bind,
    mapEvents_bind, bind_assoc, bind_assoc]
  refine bind_congr fun r => ?_
  obtain ⟨vals, t'⟩ := r
  change answerRegs (.ok, { amb.read.putAll 0 vals with len := regBytes }, t') outBuf = _
  rw [answerRegs]
  dsimp only
  have hroom : ¬regBytes * 2 ≥ inOutBufSize := by decide
  rw [assert, if_pos (by decide), assert, if_pos (by decide), rpEncodeRegs, if_neg hroom]
  rfl

/-- What a packet for the target comes to. -/
theorem replies_handled {m : Control σ Handled} (s : Session σ) :
    replies (processHandled p m s) = match (m s).result with
      | .error _ => []
      | .ok h => if p.inputError then [] else [h.outBuf] := by
  have hnone : ∀ tr : List ControlEvent, (tr.map ProxyEvent.control).filterMap ProxyEvent.answer = [] := by
    intro tr
    rw [List.filterMap_map]
    exact List.filterMap_eq_nil_iff.mpr fun _ _ => rfl
  have hconsole : ∀ texts : List (List Byte),
      (texts.map ProxyEvent.console).filterMap ProxyEvent.answer = [] := by
    intro texts
    rw [List.filterMap_map]
    exact List.filterMap_eq_nil_iff.mpr fun _ _ => rfl
  have hresult : (onTarget m s).result = (m s).result := rfl
  rw [replies, processHandled, bind_apply, hresult]
  cases hr : (m s).result with
  | error e => exact hnone (m s).trace
  | ok h =>
    dsimp only
    rw [bind_apply, consoleOutput_apply, putAnswer_apply]
    simp only [List.filterMap_append, hconsole]
    rw [onTarget, mapEvents]
    simp only [hnone]
    cases p.inputError with
    | false => rfl
    | true => rfl

/-- A packet without a byte 0 goes to its handler. -/
theorem processPacket_of_nonzero {pkt : Packet} (hzero : 0 ∉ pkt.text) {c : Byte}
    (hc : c ∈ asciiText "gT") (hkind : pkt.text.headD 0 = c) (amb : Ambient) :
    processPacket A p pkt amb =
      processHandled p (handlePacket A p.target amb pkt (rpWriteRetval .nosupp)) := by
  have hne : ∀ k ∈ asciiText "!?CSWcswDkR", pkt.text.headD 0 ≠ k := by
    intro k hk heq
    have hboth : ∀ c ∈ asciiText "gT", c ∉ asciiText "!?CSWcswDkR" := by decide
    exact hboth c hc (hkind ▸ heq ▸ hk)
  have hrun : pkt.text.headD 0 ∉ asciiText "CSWcsw" := by
    intro hmem
    have hsub : asciiText "CSWcsw" ⊆ asciiText "!?CSWcswDkR" := by decide
    exact hne _ (hsub hmem) rfl
  rw [processPacket, assert, if_pos hzero, pure_bind]
  dsimp only
  rw [if_neg (hne _ (by decide)), if_neg (hne _ (by decide)), if_neg hrun, if_neg (hne _ (by decide)),
    if_neg (hne _ (by decide)), if_neg (hne _ (by decide))]

/-- The answers to `g`. -/
theorem replies_readRegisters (hp : p.inputError = false) {pkt : Packet} (hzero : 0 ∉ pkt.text)
    (hkind : pkt.text.headD 0 = ascii 'g') (amb : Ambient) (s : Session σ) :
    replies (processPacket A p pkt amb s) =
      match (registerValues A 0 regnoFp0 p.target s).result with
      | .error _ => []
      | .ok r => [registersReply amb.read r.1] := by
  have hhandle : handlePacket A p.target amb pkt (rpWriteRetval .nosupp) =
      handleReadRegistersCommand A p.target amb (rpWriteRetval .nosupp) := by
    rw [handlePacket]
    exact if_pos hkind
  have hresult : (calls (registerValues A 0 regnoFp0 p.target) s).result =
      (registerValues A 0 regnoFp0 p.target s).result := rfl
  rw [processPacket_of_nonzero hzero (by decide) hkind, hhandle, replies_handled,
    handleReadRegistersCommand_eq, bind_apply, hresult]
  cases (registerValues A 0 regnoFp0 p.target s).result with
  | error e => rfl
  | ok r => exact if_neg (by rw [hp]; exact Bool.false_ne_true)

/-- The answer to `T`. -/
theorem replies_threadAlive (hp : p.inputError = false) {pkt : Packet} (hzero : 0 ∉ pkt.text)
    (hkind : pkt.text.headD 0 = ascii 'T') (amb : Ambient) (s : Session σ) :
    replies (processPacket A p pkt amb s) = [handleThreadAliveCommand amb pkt.text] := by
  have hhandle : handlePacket A p.target amb pkt (rpWriteRetval .nosupp) =
      answerWith p.target (handleThreadAliveCommand amb pkt.text) := by
    rw [handlePacket]
    simp only [hkind]
    rfl
  rw [processPacket_of_nonzero hzero (by decide) hkind, hhandle, replies_handled, hp]
  rfl

/-- Where a packet has an answer it is taken without an error before. -/
theorem ready_of_replies {pkt : Packet} {amb : Ambient} {s : Session σ} {c : Byte}
    (hc : c ∈ asciiText "gT") (hkind : pkt.text.headD 0 = c)
    (h : replies (processPacket A p pkt amb s) ≠ []) : 0 ∉ pkt.text ∧ p.inputError = false := by
  have hzero : 0 ∉ pkt.text := by
    intro hmem
    apply h
    rw [processPacket, assert, if_neg (not_not.mpr hmem)]
    rfl
  refine ⟨hzero, ?_⟩
  by_contra hp
  rw [Bool.not_eq_false] at hp
  apply h
  rw [processPacket_of_nonzero hzero hc hkind, replies_handled]
  split
  · rfl
  · rw [if_pos hp]

/-- Bytes with two digits each. -/
theorem slice_flatMap {f : Nat → List Byte} (hf : ∀ i, (f i).length = 2) {n k : Nat} (hk : k < n) :
    (((List.range n).flatMap f).drop (2 * k)).take 2 = f k := by
  have hlen : ((List.range k).flatMap f).length = 2 * k := by
    rw [List.length_flatMap]
    simp only [hf, List.map_const', List.sum_replicate, List.length_range, smul_eq_mul]
    omega
  obtain ⟨j, rfl⟩ := Nat.exists_eq_add_of_lt hk
  rw [Nat.add_assoc, List.range_add, List.flatMap_append, List.drop_left' hlen, Nat.add_comm j,
    List.range_add, List.map_append, List.flatMap_append]
  have hone : ((List.range 1).map fun i => k + i).flatMap f = f k := List.append_nil _
  rw [hone]
  exact List.take_left' (hf k)

/-- A byte behind the registers that are read is answered from the buffers as they were. -/
theorem registersReply_slice (d : ReadData) {vals : List Word} (hvals : vals.length = regnoFp0)
    {k : Nat} (hlo : 4 * regnoFp0 ≤ k) (hhi : k < regBytes) :
    ((registersReply d vals).drop (2 * k)).take 2 = shownByte d k := by
  have hlen : ∀ i, (shownByte (d.putAll 0 vals) i).length = 2 := by
    intro i
    rw [shownByte]
    split
    · rfl
    · rfl
  obtain ⟨hdata, havail⟩ := d.get_putAll vals 0 (j := k) (by rw [hvals]; omega)
  rw [registersReply, slice_flatMap hlen hhi, shownByte, hdata, havail, shownByte]

/-- Local variables that hold the same value everywhere. -/
def Ambient.filled (b : Byte) (alive : Word) : Ambient :=
  ⟨⟨⟨fun _ => b, []⟩, ⟨fun _ => b, []⟩, 0⟩, alive, false⟩

/-- The answer to `g` depends on what the buffers hold before. -/
theorem not_determined_readRegisters {pkt : Packet} (hkind : pkt.text.headD 0 = ascii 'g')
    {s : Session σ} {amb : Ambient} (h : replies (processPacket A p pkt amb s) ≠ []) :
    ¬Determined A p pkt s := by
  intro hdet
  obtain ⟨hzero, hp⟩ := ready_of_replies (by decide) hkind h
  have hsame := hdet.same (.filled 0 0) (.filled 1 0)
  rw [replies_readRegisters hp hzero hkind] at h
  rw [replies_readRegisters hp hzero hkind, replies_readRegisters hp hzero hkind] at hsame
  cases hr : (registerValues A 0 regnoFp0 p.target s).result with
  | error e =>
    rw [hr] at h
    exact h rfl
  | ok r =>
    have hvals := registerValues_length (A := A) regnoFp0 0 p.target s r _ _ (by
      rw [Returns, ← hr])
    rw [hr] at hsame
    have hreply := List.singleton_inj.mp hsame
    have hslice := registersReply_slice (Ambient.filled 0 0).read hvals (k := 152) (by decide) (by decide)
    rw [hreply, registersReply_slice _ hvals (by decide) (by decide)] at hslice
    exact absurd hslice (by decide)

/-- The answer to `T` depends on what the variable holds before, unless the number of the thread is
refused. -/
theorem determined_threadAlive_iff {pkt : Packet} (hkind : pkt.text.headD 0 = ascii 'T')
    {s : Session σ} {amb : Ambient} (h : replies (processPacket A p pkt amb s) ≠ []) :
    Determined A p pkt s ↔ rpDecodeUint64 none pkt.text.tail = none := by
  obtain ⟨hzero, hp⟩ := ready_of_replies (by decide) hkind h
  have hreply := fun amb => replies_threadAlive (A := A) hp hzero hkind amb s
  constructor
  · intro hdet
    by_contra hdec
    obtain ⟨⟨ref, rest⟩, href⟩ := Option.ne_none_iff_exists'.mp hdec
    have hsame := hdet.same (.filled 0 0) (.filled 0 1)
    rw [hreply, hreply, handleThreadAliveCommand, handleThreadAliveCommand, href] at hsame
    have htext : rpWriteRetval .err = rpWriteRetval .ok := List.singleton_inj.mp hsame
    exact absurd htext (by decide)
  · intro hdec
    refine ⟨fun amb amb' => ?_, fun hg => ?_⟩
    · rw [hreply, hreply, handleThreadAliveCommand, handleThreadAliveCommand, hdec]
    · rw [hkind] at hg
      exact absurd hg (by decide)

/-- A packet `g` or `T` that is answered has an answer that follows from the packet and the target
exactly where it is a `T` with a bad number of a thread. -/
theorem determined_iff (A : Adapter σ) (p : Proxy) (pkt : Packet) (amb : Ambient) (s : Session σ)
    (hkind : pkt.text.headD 0 ∈ asciiText "gT") (h : replies (processPacket A p pkt amb s) ≠ []) :
    Determined A p pkt s ↔
      pkt.text.headD 0 = ascii 'T' ∧ rpDecodeUint64 none pkt.text.tail = none := by
  rcases List.mem_cons.mp hkind with hg | hT
  · have hno : ¬Determined A p pkt s := not_determined_readRegisters hg h
    refine iff_of_false hno fun hT => ?_
    exact absurd (hg.symm.trans hT.1) (by decide)
  · have hT' : pkt.text.headD 0 = ascii 'T' := List.mem_singleton.mp hT
    rw [determined_threadAlive_iff hT' h]
    exact (and_iff_right hT').symm

/-- A packet `T` with a good number is answered from a variable that nothing has been stored in. -/
theorem determined_iff_thread :
    Determined (scripted mc12Id 0) Proxy.fresh ⟨asciiText "T1", []⟩ ⟨0, []⟩ ↔
      (asciiText "T1").headD 0 = ascii 'T' ∧ rpDecodeUint64 none (asciiText "T1").tail = none :=
  determined_iff (scripted mc12Id 0) Proxy.fresh ⟨asciiText "T1", []⟩ .zero ⟨0, []⟩ (by decide)
    (by decide)

/-- The answer to `g` from a target that has just been connected. -/
theorem not_determined_fresh :
    ¬Determined (scripted mc12Id 0) Proxy.fresh ⟨asciiText "g", []⟩ ⟨0, []⟩ := by
  have hreply : replies (processPacket (scripted mc12Id 0) Proxy.fresh ⟨asciiText "g", []⟩ .zero
      ⟨0, []⟩) ≠ [] := by
    rw [replies_readRegisters rfl (by decide) rfl]
    exact List.cons_ne_nil _ _
  exact not_determined_readRegisters rfl hreply

end Mcprog
