import Mcprog.Remote.MemoryRuns
import Mcprog.Target.RegisterAccess

/-!
# Runs of register packets

A debugger connects to a running program, reads and writes registers by packets, and detaches. The
proxy answers it as an array of words does, and the program goes on with the registers that were
written, and with its own memory.
-/

namespace Mcprog

open Interaction Program

/-- What a debugger asks of the registers. -/
inductive RegisterRequest
  | read (regno : Nat)
  | write (regno : Nat) (val : Word)
  deriving DecidableEq, Repr

namespace RegisterRequest

/-- The number of the register. -/
def regno : RegisterRequest → Nat
  | read regno => regno
  | write regno _ => regno

/-- The text of the packet. -/
def text : RegisterRequest → List Byte
  | read regno => ascii 'p' :: hexNumber regno
  | write regno val => ascii 'P' :: (hexNumber regno ++ ascii '=' :: byteDigits (wordBytes val))

/-- The access to the processor. -/
def op : RegisterRequest → DebugOp
  | read regno => .readRegister regno
  | write regno val => .writeRegister regno val

/-- What an array answers. -/
def reply (f : Nat → Word) : RegisterRequest → List Byte
  | read regno => byteDigits (wordBytes (f regno))
  | write _ _ => asciiText "OK"

/-- How an array changes. -/
def change (f : Nat → Word) : RegisterRequest → Nat → Word
  | read _ => f
  | write regno val => Function.update f regno val

/-- The answers of an array to requests one after the other. -/
def replies (f : Nat → Word) : List RegisterRequest → List (List Byte)
  | [] => []
  | r :: rs => r.reply f :: replies (r.change f) rs

end RegisterRequest

/-- The registers that can be written are those of the array. -/
def Machine.Shows (m : Machine) (f : Nat → Word) : Prop := ∀ regno, Covered regno → m.register regno = f regno

/-- After an access the registers are those of the changed array. -/
theorem Machine.Shows.afterOp {m : Machine} {f : Nat → Word} (h : m.Shows f) (r : RegisterRequest) :
    (m.afterOp r.op).Shows (r.change f) := by
  intro regno hcov
  rw [register_afterOp hcov, h regno hcov]
  cases r with
  | read regno' => rfl
  | write regno' val =>
    change (if regno' = regno then some val else none).getD _ = Function.update f regno' val regno
    by_cases heq : regno' = regno
    · subst heq
      rw [if_pos rfl, Function.update_self]
      rfl
    · rw [if_neg heq, Function.update_of_ne (Ne.symm heq)]
      rfl

/-- A register that is covered has a number for the debugger. -/
theorem covered_lt {regno : Nat} (h : Covered regno) : regno < numRegs := by
  unfold Covered at h
  unfold numRegs
  omega

/-- The number of a register is read back. -/
theorem rpDecodeUint32_regno {regno : Nat} (h : regno < numRegs) :
    rpDecodeUint32 none (hexNumber regno) = some (BitVec.ofNat 32 regno, []) := by
  have hlen : (hexNumber regno).length ≤ 8 := length_hexNumber_le (by decide) (h.trans (by decide))
  have hdecode : rpDecodeUint 32 8 _ _ = _ := rpDecodeUint_hexNumber regno [] hlen (by simp)
  rwa [List.append_nil] at hdecode

/-- The text of a request to write is read as it was written. -/
theorem rpDecodeRegAssignment_write {regno : Nat} (h : regno < numRegs) (val : Word) :
    rpDecodeRegAssignment (hexNumber regno ++ ascii '=' :: byteDigits (wordBytes val)) dataBytesMax =
      some (BitVec.ofNat 32 regno, wordBytes val) := by
  have hlen : (hexNumber regno).length ≤ 8 := length_hexNumber_le (by decide) (h.trans (by decide))
  have hdecode : rpDecodeUint 32 8 _ _ = _ := rpDecodeUint_hexNumber regno
    (ascii '=' :: byteDigits (wordBytes val)) hlen fun c hc => by
      obtain rfl := Option.some.inj hc
      rfl
  have hdata := rpDecodeData_byteDigits (wordBytes val) (dataBytesMax - 8 - 1)
  have hroom : (wordBytes val).length ≤ dataBytesMax - 8 - 1 := show 4 ≤ dataBytesMax - 8 - 1 by decide
  rw [if_pos hroom] at hdata
  rw [rpDecodeRegAssignment, rpDecodeUint32]
  rw [List.head?_cons] at hdecode
  rw [hdecode]
  change (rpDecodeData (byteDigits (wordBytes val)) (dataBytesMax - 8 - 1)).bind _ = _
  rw [hdata]
  rfl

/-- There is no NUL in the text of a request. -/
theorem zero_notMem_text (r : RegisterRequest) : 0 ∉ r.text := by
  have hnumber : ∀ n, (0 : Byte) ∉ hexNumber n := by
    intro n h
    obtain ⟨b, hb⟩ := exists_of_mem_hexNumber h
    exact hexChar_ne_zero b hb.symm
  have hdigits : ∀ data, (0 : Byte) ∉ byteDigits data := by
    intro data h
    obtain ⟨b, hb⟩ := exists_of_mem_byteDigits h
    exact hexChar_ne_zero b hb.symm
  cases r with
  | read regno => exact List.not_mem_cons_of_ne_of_not_mem (by decide) (hnumber regno)
  | write regno val =>
    have hrest : 0 ∉ ascii '=' :: byteDigits (wordBytes val) :=
      List.not_mem_cons_of_ne_of_not_mem (by decide) (hdigits _)
    exact List.not_mem_cons_of_ne_of_not_mem (by decide)
      fun h => (List.mem_append.mp h).elim (hnumber regno) hrest

/-- The bytes of a word make it again. -/
theorem setBytes_wordBytes (w val : Word) : setBytes w 0 (wordBytes val) = val := by
  refine word_ext fun k hk => ?_
  rw [byteOf_setBytes _ _ _ (le_refl 4) hk, if_pos ⟨Nat.zero_le k, hk⟩, wordBytes_eq]
  rcases (by omega : k = 0 ∨ k = 1 ∨ k = 2 ∨ k = 3) with rfl | rfl | rfl | rfl <;> rfl

/-- The digits of a register that has been put into the buffers. -/
theorem rpEncodeRegs_put (d : ReadData) (val : Word) :
    rpEncodeRegs { d.put 0 val with len := 4 } inOutBufSize = some (byteDigits (wordBytes val)) := by
  have hroom : ¬4 * 2 ≥ inOutBufSize := by decide
  rw [rpEncodeRegs, if_neg hroom, wordBytes_eq]
  rfl

section Packets

variable {b : Bool} {m : Machine} {ops : List DebugOp} {t : Target} {c : Core} {f : Nat → Word} {p : Proxy}

/-- A packet is handled as the array answers it. -/
theorem Debugged.handlePacket (h : Debugged m ops t c) (r : RegisterRequest) (hcov : Covered r.regno)
    (hgp : ∀ regno, r.op = .readRegister regno → Uncached ops regno →
      m.AddressesCram ((lastWritten 28 ops).getD cramAddr))
    (hf : (m.afterOps ops).Shows f) (behind : List Byte) (amb : Ambient) :
    ∃ t' c', Performs At (Mcprog.handlePacket (mc12 b) t amb ⟨r.text, behind⟩ (rpWriteRetval .nosupp)) c
      ⟨r.reply f, t', []⟩ c' ∧ Debugged m (ops ++ [r.op]) t' c' := by
  have hnum (n : Nat) (h : n < numRegs) : (BitVec.ofNat 32 n).toNat = n := by
    rw [BitVec.toNat_ofNat]
    exact Nat.mod_eq_of_lt (h.trans (by decide))
  cases r with
  | read regno =>
    have hlt : regno < numRegs := covered_lt hcov
    obtain ⟨val, t', c', hread, hd, hval⟩ := h.readRegister (b := b) regno (hgp regno rfl)
    obtain ⟨slot, hslot, -, hzero⟩ : ∃ slot, slotOf regno = some slot ∧ slot.writable ∧ slot ≠ .cpu 0 :=
      slotOf_of_covered hcov
    have hreply : val = f regno := by
      rw [hval slot hslot hzero, ← hf regno hcov, Machine.register, hslot]
    refine ⟨t', c', ?_, hd⟩
    change Performs At (handleReadSingleRegisterCommand (mc12 b) t amb (ascii 'p' :: hexNumber regno) _) c _ c'
    rw [handleReadSingleRegisterCommand, List.tail_cons, rpDecodeUint32_regno hlt]
    have hsingle : Performs At (elveesReadSingleRegister (mc12 b) t (BitVec.ofNat 32 regno) amb.read) c
        (.ok, { amb.read.put 0 val with len := 4 }, t') c' := by
      rw [elveesReadSingleRegister, hnum regno hlt, if_neg (not_le.mpr hlt)]
      exact hread.bind (performs_pure _ c')
    refine (hsingle.mapEvents _).bind ?_
    change Performs At (do
      assert ((4 : Nat) ≤ dataBytesMax) "len <= RP_PARAM_DATABYTES_MAX"
      assert ((4 : Nat) > 0) "data_len > 0"
      answerWith t' ((rpEncodeRegs { amb.read.put 0 val with len := 4 } inOutBufSize).getD _)) c' _ c'
    rw [rpEncodeRegs_put, hreply, assert, if_pos (by decide), assert, if_pos (by decide)]
    exact (performs_pure () c').bind ((performs_pure () c').bind (performs_pure _ c'))
  | write regno val =>
    have hlt : regno < numRegs := covered_lt hcov
    obtain ⟨t', c', hwrite, hd⟩ := h.writeRegister (b := b) regno val
    refine ⟨t', c', ?_, hd⟩
    change Performs At (handleWriteSingleRegisterCommand (mc12 b) t
      (ascii 'P' :: (hexNumber regno ++ ascii '=' :: byteDigits (wordBytes val)))) c _ c'
    rw [handleWriteSingleRegisterCommand, List.tail_cons, rpDecodeRegAssignment_write hlt]
    have hsingle : Performs At (elveesWriteSingleRegister (mc12 b) t (BitVec.ofNat 32 regno) (wordBytes val)) c
        (.ok, t') c' := by
      have hsize : (wordBytes val).length = 4 := rfl
      rw [elveesWriteSingleRegister, assert, if_pos hsize, hnum regno hlt, if_neg (not_le.mpr hlt), setBytes_wordBytes]
      exact (performs_pure () c).bind (hwrite.bind (performs_pure _ c'))
    have hless : (wordBytes val).length < dataBytesMax := show 4 < dataBytesMax by decide
    dsimp only
    rw [assert, if_pos hless]
    exact (performs_pure () c).bind ((hsingle.mapEvents _).bind (performs_pure _ c'))

/-- The operations on the target are no answers. -/
theorem filterMap_control (tr : List ControlEvent) :
    (tr.map ProxyEvent.control).filterMap ProxyEvent.answer = [] := by
  rw [List.filterMap_map]
  exact List.filterMap_eq_nil_iff.mpr fun _ _ => rfl

/-- A packet that only the target answers, and that leaves it in another state. -/
theorem processHandled_returns {σ : Type} {handler : Control σ Handled} {reply : List Byte} {t' : Target}
    (hp : p.inputError = false) {s s' : Session σ} (h : handler.Reaches s ⟨reply, t', []⟩ s') :
    ∃ tr, (processHandled p handler).Returns s { p with target := t' } tr s' ∧
      tr.filterMap ProxyEvent.answer = [reply] := by
  obtain ⟨tr, hr⟩ := h
  have htarget : (onTarget handler).Returns s ⟨reply, t', []⟩ (tr.map .control) s' :=
    returns_mapEvents_iff.mpr ⟨tr, hr, rfl⟩
  have hconsole : (consoleOutput [] : ProxyProgram σ Unit).Returns s' () [] s' := rfl
  have hanswer : (putAnswer { p with target := t' } (.reply reply) : ProxyProgram σ Proxy).Returns
      s' { p with target := t' } [.reply reply] s' := by
    rw [Returns, putAnswer_apply, hp]
    rfl
  refine ⟨_, htarget.bind (hconsole.bind hanswer), ?_⟩
  rw [List.filterMap_append, filterMap_control]
  rfl

/-- A packet is answered as the array answers it. -/
theorem Debugged.answers (h : Debugged m ops p.target c) (hp : p.inputError = false) (r : RegisterRequest)
    (hcov : Covered r.regno) (hgp : ∀ regno, r.op = .readRegister regno → Uncached ops regno →
      m.AddressesCram ((lastWritten 28 ops).getD cramAddr))
    (hf : (m.afterOps ops).Shows f) (behind : List Byte) (amb : Ambient) {s : Session Mc12} (hs : At c s) :
    ∃ tr s' t' c', (processPacket (mc12 b) p ⟨r.text, behind⟩ amb).Returns s { p with target := t' } tr s' ∧
      tr.filterMap ProxyEvent.answer = [r.reply f] ∧ At c' s' ∧ Debugged m (ops ++ [r.op]) t' c' := by
  obtain ⟨t', c', hhandle, hd⟩ := h.handlePacket (b := b) r hcov hgp hf behind amb
  obtain ⟨s', hr, hs'⟩ := hhandle s hs
  obtain ⟨tr, hreturns, hanswer⟩ := processHandled_returns hp hr
  refine ⟨tr, s', t', c', ?_, hanswer, hs', hd⟩
  rw [processPacket, assert, if_pos (zero_notMem_text r)]
  cases r with
  | read regno => exact hreturns
  | write regno val => exact hreturns

end Packets

/-- A request with what lies behind its packet and what the handlers find around them. -/
abbrev RegisterRequested : Type := RegisterRequest × List Byte × Ambient

/-- What the loop takes in for it. -/
def RegisterRequested.input (r : RegisterRequested) : Input := .packet ⟨r.1.text, r.2.1⟩ r.2.2

section Sessions

variable {b : Bool} {m : Machine} {ops : List DebugOp} {c : Core} {f : Nat → Word} {p : Proxy}

/-- Packet by packet the proxy answers as the array does. -/
theorem Debugged.replies (h : Debugged m ops p.target c) (hp : p.Serving) (hf : (m.afterOps ops).Shows f)
    (requests : List RegisterRequested) (hcov : ∀ r ∈ requests, Covered r.1.regno)
    (hgp : GpAddressesCram m (ops ++ requests.map fun r => r.1.op)) {s : Session Mc12} (hs : At c s) :
    ∃ tr s' t' c', (proxyTurns (mc12 b) p (requests.map RegisterRequested.input)).Returns s
        { p with target := t' } tr s' ∧
      tr.filterMap ProxyEvent.answer = RegisterRequest.replies f (requests.map Prod.fst) ∧ At c' s' ∧
      Debugged m (ops ++ requests.map fun r => r.1.op) t' c' ∧
      (m.afterOps (ops ++ requests.map fun r => r.1.op)).Shows
        ((requests.map Prod.fst).foldl RegisterRequest.change f) := by
  induction requests generalizing ops f p c s with
  | nil =>
    simp only [List.map_nil, List.append_nil]
    exact ⟨[], s, p.target, c, rfl, rfl, hs, h, hf⟩
  | cons r requests ih =>
    have hfirst : ∀ regno, r.1.op = .readRegister regno → Uncached ops regno →
        m.AddressesCram ((lastWritten 28 ops).getD cramAddr) := fun regno heq =>
      hgp ops regno (requests.map fun r => r.1.op) (by rw [List.map_cons, heq])
    obtain ⟨tr₁, s₁, t₁, c₁, hturn, hanswer, hs₁, hd₁⟩ := h.answers (b := b) hp.inputError r.1
      (hcov r List.mem_cons_self) hfirst hf r.2.1 r.2.2 hs
    have hshows : (m.afterOps (ops ++ [r.1.op])).Shows (r.1.change f) := by
      rw [afterOps_concat]
      exact hf.afterOp r.1
    have hsplit : ops ++ (r :: requests).map (fun r => r.1.op) =
        ops ++ [r.1.op] ++ requests.map fun r => r.1.op := by
      rw [List.map_cons, List.append_assoc, List.singleton_append]
    rw [hsplit] at hgp ⊢
    obtain ⟨tr, s', t', c', hturns, hreplies, hs', hd', hshows'⟩ := ih (p := { p with target := t₁ }) hd₁
      ⟨hp.inputError, hp.doReinitialize, hp.doConnect⟩ hshows (fun r hr => hcov r (List.mem_cons_of_mem _ hr)) hgp hs₁
    refine ⟨.received r.1.text :: tr₁ ++ tr, s', t', c', (hp.turn hturn).bind hturns, ?_, hs', hd', hshows'⟩
    have hhead : (ProxyEvent.received r.1.text :: tr₁).filterMap ProxyEvent.answer = [r.1.reply f] := hanswer
    rw [List.filterMap_append, hhead, hreplies]
    rfl

/-- The registers that a connection reads for the status of the target. -/
def connectOps : List DebugOp := [.readRegister regnoPc, .readRegister regnoFp]

/-- They leave the global pointer to the debugger. -/
theorem gpAddressesCram_connectOps (h : GpAddressesCram m ops) : GpAddressesCram m (connectOps ++ ops) := by
  have hcached : ∀ pre, ¬Uncached pre regnoPc ∧ ¬Uncached pre regnoFp := fun pre =>
    ⟨fun hpre => absurd hpre.1 (by decide), fun hpre => hpre.2.2.1 rfl⟩
  intro pre regno post heq hpre
  rcases pre with _ | ⟨first, _ | ⟨second, pre⟩⟩
  · have hfirst := (List.cons.inj heq).1
    rw [← DebugOp.readRegister.inj hfirst] at hpre
    exact absurd hpre (hcached _).1
  · have hsecond := (List.cons.inj (List.cons.inj heq).2).1
    rw [← DebugOp.readRegister.inj hsecond] at hpre
    exact absurd hpre (hcached _).2
  · obtain ⟨hfirst, hrest⟩ := List.cons.inj heq
    obtain ⟨hsecond, hrest⟩ := List.cons.inj hrest
    rw [← hfirst, ← hsecond] at hpre ⊢
    have hlast : lastWritten 28 (.readRegister regnoPc :: .readRegister regnoFp :: pre) = lastWritten 28 pre := by
      simp [lastWritten, DebugOp.writes]
    rw [hlast]
    refine h pre regno post hrest ⟨hpre.1, hpre.2.1, hpre.2.2.1, fun op hop => hpre.2.2.2 op ?_⟩
    exact List.mem_cons_of_mem _ (List.mem_cons_of_mem _ hop)

/-- A register that was saved is told in the status string. -/
theorem elveesOutTreg_performs {t : Target} (h : Debugged m ops t c) (regno : Nat) (hcached : ¬Uncached ops regno) :
    ∃ text t' c', Performs At (elveesOutTreg (mc12 b) t regno) c (text, t') c' ∧
      Debugged m (ops ++ [.readRegister regno]) t' c' := by
  obtain ⟨val, t', c', hread, hd, -⟩ := h.readRegister (b := b) regno fun hno => absurd hno hcached
  exact ⟨_, t', c', hread.bind (performs_pure _ c'), hd⟩

/-- A new connection stops the program. -/
theorem elveesConnect_reaches {t : Target} (hid : t.idcode = mc12Id) (hrun : t.isRunning = true) (s : Session Mc12) :
    ∃ status t' s' c', (elveesConnect (mc12 b) t).Reaches s (.ok, status, t') s' ∧ At c' s' ∧
      Debugged s.device.machine connectOps t' c' := by
  obtain ⟨t₁, s₁, c₁, hstop, hs₁, hb, hc⟩ := targetStop_reaches (b := b) hid hrun s
  obtain ⟨pc, t₂, c₂, hpc, hd₂⟩ := elveesOutTreg_performs (b := b) (debugged_nil hb hc) regnoPc
    fun h => absurd h.1 (by decide)
  obtain ⟨fp, t₃, c₃, hfp, hd₃⟩ := elveesOutTreg_performs (b := b) hd₂ regnoFp fun h => h.2.2.1 rfl
  have hstatus : Performs At (stopStatus (mc12 b) t₁ signalBreakpoint) c₁
      (ascii 'T' :: asciiText signalBreakpoint ++ pc ++ fp, t₃) c₃ :=
    hpc.bind (hfp.bind (performs_pure _ c₃))
  obtain ⟨s₃, hr₃, hs₃⟩ := hstatus s₁ hs₁
  exact ⟨_, t₃, s₃, c₃, hstop.bind ((hr₃.mapEvents _).bind (reaches_pure _ _)), hs₃, hd₃⟩

/-- The first turn connects the target, and goes on as a turn of a connected proxy does. -/
theorem proxyTurn_connects (hp : p.inputError = false) (hnew : p.doReinitialize = true)
    (hid : p.target.idcode = mc12Id) (hrun : p.target.isRunning = true) (s : Session Mc12) :
    ∃ tr p₁ s₁ c₁, p₁.Serving ∧ p₁.canRestart = true ∧ At c₁ s₁ ∧
      Debugged s.device.machine connectOps p₁.target c₁ ∧ tr.filterMap ProxyEvent.answer = [] ∧
      ∀ input p' tr' s', (proxyTurn (mc12 b) p₁ input).Returns s₁ p' tr' s' →
        (proxyTurn (mc12 b) p input).Returns s p' (tr ++ tr') s' := by
  obtain ⟨status, t₁, s₁, c₁, ⟨tr, hconnect⟩, hs₁, hd₁⟩ := elveesConnect_reaches (b := b) hid hrun s
  let p₀ : Proxy := { p with doReinitialize := false, extendedProtocol := false, doConnect := 1 }
  let p₁ : Proxy := { p₀ with target := t₁, statusString := status, canRestart := true, doConnect := 0 }
  have herror : (afterInputError (mc12 b) p).Returns s p [] s := by
    rw [afterInputError, hp]
    rfl
  have haccept : (acceptSession p : ProxyProgram Mc12 Proxy).Returns s p₀ [.connected p.targetRunning] s := by
    rw [acceptSession, if_pos hnew]
    rfl
  have hcontrol : (onTarget (elveesConnect (mc12 b) p.target)).Returns s (.ok, status, t₁) (tr.map .control) s₁ :=
    returns_mapEvents_iff.mpr ⟨tr, hconnect, rfl⟩
  have hgo : p₀.doConnect ≠ 0 := show (1 : Int) ≠ 0 by decide
  have htarget : (connectTarget (mc12 b) p₀).Returns s (true, p₁) (tr.map .control ++ []) s₁ := by
    rw [connectTarget, if_pos hgo]
    exact hcontrol.bind rfl
  have hserving : p₁.Serving := ⟨hp, rfl, rfl⟩
  refine ⟨.connected p.targetRunning :: (tr.map .control ++ []), p₁, s₁, c₁, hserving, rfl, hs₁, hd₁, ?_, ?_⟩
  · rw [List.append_nil]
    exact filterMap_control tr
  · intro input p' tr' s' hturn
    have hplain : proxyTurn (mc12 b) p₁ input = processInput (mc12 b) p₁ input := by
      rw [proxyTurn, afterInputError, hserving.inputError]
      rfl
    rw [hplain] at hturn
    exact herror.bind (haccept.bind (htarget.bind hturn))

/-- Turns in two parts. -/
theorem proxyTurns_append {σ : Type} (A : Adapter σ) (p : Proxy) (inputs inputs' : List Input) :
    proxyTurns A p (inputs ++ inputs') = proxyTurns A p inputs >>= fun p => proxyTurns A p inputs' := by
  induction inputs generalizing p with
  | nil => rw [List.nil_append, proxyTurns, pure_bind]
  | cons input inputs ih => simp only [List.cons_append, proxyTurns, ih, bind_assoc]

/-- Turns from the first one on. -/
theorem proxyTurns_connects {s s₁ : Session Mc12} {p₁ p' : Proxy} {tr tr' : List ProxyEvent} {s' : Session Mc12}
    (h : ∀ input p' tr' s', (proxyTurn (mc12 b) p₁ input).Returns s₁ p' tr' s' →
      (proxyTurn (mc12 b) p input).Returns s p' (tr ++ tr') s') {inputs : List Input} (hne : inputs ≠ [])
    (hturns : (proxyTurns (mc12 b) p₁ inputs).Returns s₁ p' tr' s') :
    (proxyTurns (mc12 b) p inputs).Returns s p' (tr ++ tr') s' := by
  cases inputs with
  | nil => exact absurd rfl hne
  | cons input inputs =>
    obtain ⟨p₂, tr₂, s₂, tr₃, hfirst, hrest, rfl⟩ := returns_bind_iff.mp hturns
    rw [← List.append_assoc]
    exact (h input p₂ tr₂ s₂ hfirst).bind hrest

/-- The text of the packet that detaches. -/
def detachText : List Byte := [ascii 'D']

/-- The program goes on when the debugger detaches. -/
theorem Debugged.detaches (h : Debugged m ops p.target c) (hrestart : p.canRestart = true) (behind : List Byte)
    (amb : Ambient) {s : Session Mc12} (hs : At c s) :
    ∃ tr s' t', (processPacket (mc12 b) p ⟨detachText, behind⟩ amb).Returns s
        { p with target := t', doReinitialize := true } tr s' ∧ tr.filterMap ProxyEvent.answer = [[]] ∧
      s'.device.machine = m.afterOps ops ∧ s'.device.running = true := by
  obtain ⟨t', s', ⟨tr, hresume⟩, hmachine, hrunning⟩ := targetResume_reaches (b := b) h.borrowed hs
  have hclose : (onTarget (elveesClose (mc12 b) p.target)).Returns s t' (tr.map .control) s' :=
    returns_mapEvents_iff.mpr ⟨tr, hresume, rfl⟩
  have hgone : ¬¬p.canRestart = true := not_not.mpr hrestart
  have hdetach : (handleDetachCommand (mc12 b) p []).Returns s { p with target := t' }
      (tr.map .control ++ [.reply [], .closed]) s' := by
    rw [handleDetachCommand]
    refine hclose.bind ?_
    rw [if_neg hgone]
    rfl
  refine ⟨_, s', t', hdetach.bind rfl, ?_, hmachine, hrunning⟩
  rw [List.append_nil, List.filterMap_append, filterMap_control]
  rfl

end Sessions

/-- A debugger connects to a running program, makes requests for registers and detaches. It is answered
as an array of words would answer it, which holds the registers of the program at first. The program
then goes on with the registers of the array and with its own memory, also where the proxy has used
some of both for itself. -/
theorem mc12Proxy_session (ownRun : Bool) {p : Proxy} (hp : p.inputError = false) (hnew : p.doReinitialize = true)
    (hid : p.target.idcode = mc12Id) (hrun : p.target.isRunning = true) (s : Session Mc12)
    (requests : List RegisterRequested) (hcov : ∀ r ∈ requests, Covered r.1.regno)
    (hgp : GpAddressesCram s.device.machine (requests.map fun r => r.1.op)) (behind : List Byte) (amb : Ambient) :
    ∃ tr s' p', (proxyTurns (mc12 ownRun) p (requests.map RegisterRequested.input ++
        [.packet ⟨detachText, behind⟩ amb])).Returns s p' tr s' ∧
      tr.filterMap ProxyEvent.answer =
        RegisterRequest.replies s.device.machine.register (requests.map Prod.fst) ++ [[]] ∧
      s'.device.running = true ∧ s'.device.machine.mem = s.device.machine.mem ∧
      s'.device.machine.Shows
        ((requests.map Prod.fst).foldl RegisterRequest.change s.device.machine.register) ∧
      p'.doReinitialize = true := by
  obtain ⟨tr₀, p₁, s₁, c₁, hserving, hrestart, hs₁, hd₁, hquiet, hconnects⟩ :=
    proxyTurn_connects (b := ownRun) hp hnew hid hrun s
  have hown : (s.device.machine.afterOps connectOps).Shows s.device.machine.register := fun _ _ => rfl
  obtain ⟨tr₁, s₂, t₂, c₂, hturns, hreplies, hs₂, hd₂, hshows⟩ := hd₁.replies (b := ownRun) hserving
    hown requests hcov (gpAddressesCram_connectOps hgp) hs₁
  have hserving₂ : ({ p₁ with target := t₂ } : Proxy).Serving :=
    ⟨hserving.inputError, hserving.doReinitialize, hserving.doConnect⟩
  obtain ⟨tr₂, s', t', hdetach, hbye, hmachine, hrunning⟩ := Debugged.detaches (b := ownRun)
    (p := { p₁ with target := t₂ }) hd₂ hrestart behind amb hs₂
  have hlast := hserving₂.turn hdetach
  have hall : (proxyTurns (mc12 ownRun) p₁ (requests.map RegisterRequested.input ++
      [.packet ⟨detachText, behind⟩ amb])).Returns s₁ { p₁ with target := t', doReinitialize := true }
        (tr₁ ++ (.received detachText :: tr₂ ++ [])) s' := by
    rw [proxyTurns_append]
    exact hturns.bind (hlast.bind rfl)
  refine ⟨_, s', _, proxyTurns_connects hconnects (by simp) hall, ?_, hrunning, ?_, ?_, rfl⟩
  · have hfinal : (ProxyEvent.received detachText :: tr₂).filterMap ProxyEvent.answer = [[]] := hbye
    rw [List.append_nil, List.filterMap_append, List.filterMap_append, hquiet, hreplies, hfinal, List.nil_append]
  · rw [hmachine, (afterOps_frame _).1]
  · rw [hmachine]
    exact hshows

/-- A register is read, written and read again. -/
def readWriteRead : List RegisterRequested :=
  [(.read 5, [], ⟨⟨⟨fun _ => 0, []⟩, ⟨fun _ => 0, []⟩, 0⟩, 0, false⟩),
    (.write 5 0xDEADBEEF, [], ⟨⟨⟨fun _ => 0, []⟩, ⟨fun _ => 0, []⟩, 0⟩, 0, false⟩),
    (.read 5, [], ⟨⟨⟨fun _ => 0, []⟩, ⟨fun _ => 0, []⟩, 0⟩, 0, false⟩)]

/-- The low byte of a register comes first, and the program goes on with what was written. -/
theorem mc12Proxy_session_five : ∃ tr s' p', (proxyTurns (mc12 true) (Proxy.started mc12Target)
      (readWriteRead.map RegisterRequested.input ++ [.packet ⟨detachText, []⟩
        ⟨⟨⟨fun _ => 0, []⟩, ⟨fun _ => 0, []⟩, 0⟩, 0, false⟩])).Returns ⟨0, numbered⟩ p' tr s' ∧
    tr.filterMap ProxyEvent.answer = [asciiText "05000000", asciiText "OK", asciiText "efbeadde", []] ∧
    s'.device.machine.register 5 = 0xDEADBEEF ∧ s'.device.machine.register 6 = 6 := by
  obtain ⟨tr, s', p', hrun, hreplies, -, -, hshows, -⟩ := mc12Proxy_session true (p := Proxy.started mc12Target)
    rfl rfl rfl rfl ⟨0, numbered⟩ readWriteRead (by decide)
    (gpAddressesCram_of_unwritten _ (by decide)) [] ⟨⟨⟨fun _ => 0, []⟩, ⟨fun _ => 0, []⟩, 0⟩, 0, false⟩
  refine ⟨tr, s', p', hrun, hreplies.trans (by decide), ?_, ?_⟩
  · exact hshows 5 (by decide)
  · exact hshows 6 (by decide)

end Mcprog
