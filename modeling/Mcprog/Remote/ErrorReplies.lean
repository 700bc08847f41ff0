import Mcprog.Library.Effects
import Mcprog.Remote.MainLoop

/-!
# Answers with an error

A packet that is answered with an error has been refused before the target was touched.
-/

namespace Mcprog

open Interaction Program

variable {σ ε τ α : Type} {A : Adapter σ} {t : Target} {outBuf : List Byte}

/-- The answer `E00`. -/
def errorReply : List Byte := rpWriteRetval .err

/-- Of the three short answers one is the error. -/
theorem rpWriteRetval_eq_error {ret : RetVal} : rpWriteRetval ret = errorReply ↔ ret = .err := by
  cases ret with
  | ok => decide
  | err => decide
  | nosupp => decide

/-- Bytes in digits are not the error. -/
theorem ne_error_of_even {text : List Byte} {n : Nat} (h : text.length = 2 * n) : text ≠ errorReply := by
  intro heq
  have hlen := congrArg List.length heq
  rw [h, show errorReply.length = 3 from rfl] at hlen
  omega

/-- An assertion that holds does nothing. -/
theorem refuses_assert {c : Prop} [Decidable c] {text : String} :
    Refuses (assert c text : Program ε σ Fatal Unit) (fun _ => True) fun _ => True :=
  refuses_ite (fun _ => refuses_pure fun _ => trivial) fun _ => refuses_stop

theorem elveesReadRegisters_ensures (d : ReadData) :
    (elveesReadRegisters A t d).Ensures fun r => r.1 = .ok :=
  ensures_bind fun _ => ensures_pure rfl

theorem elveesWriteRegisters_ensures (buf : List Byte) :
    (elveesWriteRegisters A t buf).Ensures fun r => r.1 = .ok :=
  ensures_bind fun _ => ensures_bind fun _ => ensures_bind fun _ => ensures_pure rfl

/-- A register that cannot be read is refused before anything is done. -/
theorem elveesReadSingleRegister_refuses (regNo : Word) (d : ReadData) :
    Refuses (elveesReadSingleRegister A t regNo d) (fun r => r.1 = .err) fun r => r.2.2 = t := by
  refine refuses_ite (fun _ => refuses_pure fun _ => rfl) fun _ => refuses_of_ensures ?_
  exact ensures_bind fun _ => ensures_pure nofun

/-- A register that cannot be written is refused before anything is done. -/
theorem elveesWriteSingleRegister_refuses (regNo : Word) (buf : List Byte) :
    Refuses (elveesWriteSingleRegister A t regNo buf) (fun r => r.1 = .err) fun r => r.2 = t := by
  refine refuses_assert.bind (fun _ _ _ => ?_) fun _ h => absurd trivial h
  refine refuses_ite (fun _ => refuses_pure fun _ => rfl) fun _ => refuses_of_ensures ?_
  exact ensures_bind fun _ => ensures_pure nofun

/-- An address that cannot be read is refused before anything is done. -/
theorem elveesReadMem_refuses (addr : BitVec 64) (buf : Cells.Buffer Byte) (reqSize : BitVec 64)
    (actualSize : Nat) : Refuses (elveesReadMem A addr buf reqSize actualSize) (fun r => r.1 = .err)
      fun _ => True := by
  refine refuses_assert.bind (fun _ _ _ => ?_) fun _ h => absurd trivial h
  refine refuses_ite (fun _ => refuses_pure fun _ => trivial) fun _ => refuses_of_ensures ?_
  refine ensures_ite (fun _ => ensures_bind fun _ => ?_) fun _ => ensures_bind fun _ => ensures_pure nofun
  exact ensures_ite (fun _ => ensures_pure nofun) fun _ => ensures_bind fun _ => ensures_pure nofun

/-- An address that cannot be written is refused before anything is done. -/
theorem elveesWriteMem_refuses (addr : BitVec 64) (buf : List Byte) :
    Refuses (elveesWriteMem A t addr buf) (fun r => r = .err) fun _ => True := by
  refine refuses_ite (fun _ => refuses_pure nofun) fun _ => ?_
  refine refuses_ite (fun _ => refuses_pure fun _ => trivial) fun _ => ?_
  refine refuses_ite (fun _ => refuses_pure fun _ => trivial) fun _ => refuses_of_ensures ?_
  refine ensures_ite (fun _ => ensures_bind fun _ => ensures_bind fun _ => ?_) fun _ =>
    ensures_bind fun _ => ensures_pure nofun
  exact ensures_ite (fun _ => ensures_pure nofun) fun _ => ensures_bind fun _ => ensures_pure nofun

/-- A target that has stopped has a status that is not the error. -/
theorem elveesWaitPartial_ensures (statusString : List Byte) :
    (elveesWaitPartial A t statusString).Ensures fun w =>
      w.ret = .ok ∧ w.implemented = true ∧ (w.more = false → w.statusString ≠ errorReply) := by
  have hstatus : ∀ t sig, (stopStatus A t sig).Ensures fun r => r.1 ≠ errorReply := by
    intro t sig
    refine ensures_bind fun _ => ensures_bind fun _ => ensures_pure ?_
    intro h
    exact absurd (List.cons.inj h).1 (by decide)
  refine ensures_bind fun r => ensures_ite (fun _ => ?_) fun _ => ensures_pure ⟨rfl, rfl, nofun⟩
  exact ((hstatus _ _).mapEvents _).bind fun _ h => ensures_pure ⟨rfl, rfl, fun _ => h⟩

/-- A handler that answers with an error has done nothing. -/
abbrev Harmless (t : Target) (m : Control σ Handled) : Prop :=
  Refuses m (fun h => h.outBuf = errorReply) fun h => h.target = t

/-- An answer alone does nothing to the target. -/
theorem harmless_answerWith : Harmless t (answerWith t outBuf : Control σ Handled) :=
  refuses_pure fun _ => rfl

/-- An answer that is no error is none when it is sent. -/
theorem answerWith_ensures (h : outBuf ≠ errorReply) :
    (answerWith t outBuf : Control σ Handled).Ensures fun h => ¬ h.outBuf = errorReply :=
  ensures_pure h

/-- The digits of registers are never the text of the error. -/
theorem rpEncodeRegs_ne (d : ReadData) (outSize : Nat) (h : outBuf ≠ errorReply) :
    (rpEncodeRegs d outSize).getD outBuf ≠ errorReply := by
  rw [rpEncodeRegs]
  split
  · exact h
  · refine ne_error_of_even (n := d.len) ?_
    rw [Option.getD_some, List.length_flatMap]
    have hlen : ∀ i, (if d.avail.get i ≠ 0 then rpEncodeByte (d.data.get i)
        else [ascii 'x', ascii 'x']).length = 2 := by
      intro i
      split
      · rfl
      · rfl
    simp only [hlen, List.map_const', List.sum_replicate, List.length_range, smul_eq_mul]
    omega

/-- The digits of the memory are never the text of the error. -/
theorem rpEncodeData_ne (data : Cells.Buffer Byte) (len outSize : Nat) (h : outBuf ≠ errorReply) :
    (rpEncodeData data len outSize).getD outBuf ≠ errorReply := by
  rw [rpEncodeData]
  split
  · exact h
  · refine ne_error_of_even (n := len) ?_
    rw [Option.getD_some, List.length_flatMap]
    simp only [rpEncodeByte, List.length_cons, List.length_nil, List.map_const', List.sum_replicate,
      List.length_range, smul_eq_mul]
    omega

theorem answerRegs_ensures {r : RetVal × ReadData × Target} (hr : r.1 ≠ .err)
    (h : outBuf ≠ errorReply) :
    (answerRegs r outBuf : Control σ Handled).Ensures fun h => ¬ h.outBuf = errorReply := by
  obtain ⟨ret, d, t⟩ := r
  cases ret with
  | ok => exact ensures_bind fun _ => ensures_bind fun _ => answerWith_ensures (rpEncodeRegs_ne _ _ h)
  | err => exact absurd rfl hr
  | nosupp => exact ensures_stop

/-- What could not be read leaves the target as it was. -/
theorem harmless_answerRegs {r : RetVal × ReadData × Target} (hr : r.1 = .err) (ht : r.2.2 = t) :
    Harmless t (answerRegs r outBuf : Control σ Handled) := by
  rw [answerRegs, hr, ht]
  exact harmless_answerWith

theorem harmless_readRegisters (amb : Ambient) (h : outBuf ≠ errorReply) :
    Harmless t (handleReadRegistersCommand A t amb outBuf) := by
  refine refuses_of_ensures (((elveesReadRegisters_ensures _).mapEvents _).bind fun r hr => ?_)
  refine answerRegs_ensures ?_ h
  rw [hr]
  nofun

/-- `G` is refused for its digits alone, before anything is written. -/
theorem harmless_writeRegisters (inBuf : List Byte) :
    Harmless t (handleWriteRegistersCommand A t inBuf) := by
  rw [handleWriteRegistersCommand]
  split
  · exact harmless_answerWith
  · refine refuses_of_ensures (((elveesWriteRegisters_ensures _).mapEvents _).bind fun r hr => ?_)
    refine answerWith_ensures ?_
    rw [Ne, rpWriteRetval_eq_error, hr]
    nofun

/-- `p` is refused for its number, before anything is read. -/
theorem harmless_readSingleRegister (amb : Ambient) (inBuf : List Byte) (h : outBuf ≠ errorReply) :
    Harmless t (handleReadSingleRegisterCommand A t amb inBuf outBuf) := by
  rw [handleReadSingleRegisterCommand]
  split
  · exact harmless_answerWith
  · exact ((elveesReadSingleRegister_refuses _ _).mapEvents _).bind
      (fun _ hr ht => harmless_answerRegs hr ht) fun _ hr => answerRegs_ensures hr h

/-- `P` is refused for its digits or its number, before anything is written. -/
theorem harmless_writeSingleRegister (inBuf : List Byte) :
    Harmless t (handleWriteSingleRegisterCommand A t inBuf) := by
  rw [handleWriteSingleRegisterCommand]
  split
  · exact harmless_answerWith
  · refine refuses_assert.bind (fun _ _ _ => ?_) fun _ h => absurd trivial h
    refine ((elveesWriteSingleRegister_refuses _ _).mapEvents _).bind (fun r _ ht => ?_) fun r hr => ?_
    · obtain ⟨ret, t'⟩ := r
      obtain rfl : t' = t := ht
      exact harmless_answerWith
    · exact answerWith_ensures fun h => hr (rpWriteRetval_eq_error.mp h)

/-- `m` is refused for its digits or its address, before anything is read. -/
theorem harmless_readMemory (amb : Ambient) (inBuf : List Byte) (h : outBuf ≠ errorReply) :
    Harmless t (handleReadMemoryCommand A t amb inBuf outBuf) := by
  rw [handleReadMemoryCommand]
  split
  · exact harmless_answerWith
  · refine ((elveesReadMem_refuses _ _ _ _).mapEvents _).bind (fun r hr _ => ?_) fun r hr => ?_
    · rw [hr]
      exact harmless_answerWith
    · split
      · exact ensures_bind fun _ => ensures_bind fun _ => answerWith_ensures (rpEncodeData_ne _ _ _ h)
      · rename_i herr
        exact absurd herr hr
      · exact ensures_stop

/-- A packet that writes the memory is refused before anything is written. -/
theorem harmless_writeMemory (inBuf : List Byte) : Harmless t (handleWriteMemory A t inBuf) := by
  have hwrite : ∀ addr data, Refuses (calls (elveesWriteMem A t addr data)) (fun r => r = .err)
      fun _ => True := fun addr data => (elveesWriteMem_refuses addr data).mapEvents _
  have hcommand : Refuses (handleWriteMemoryCommand (fun addr data =>
      calls (elveesWriteMem A t addr data)) inBuf) (fun o => o = errorReply) fun _ => True := by
    unfold handleWriteMemoryCommand
    refine refuses_ite (fun _ => ?_) fun _ => refuses_pure fun _ => trivial
    split
    · exact refuses_pure fun _ => trivial
    · refine refuses_ite (fun _ => refuses_pure fun _ => trivial) fun _ => ?_
      split
      · exact refuses_pure fun _ => trivial
      · refine refuses_ite (fun _ => refuses_pure fun _ => trivial) fun _ => ?_
        refine (hwrite _ _).bind (fun _ _ _ => refuses_pure fun _ => trivial) fun r hr => ?_
        exact ensures_pure fun h => hr (rpWriteRetval_eq_error.mp h)
  exact hcommand.bind (fun _ _ _ => harmless_answerWith) fun _ h => answerWith_ensures h

/-- A query leaves the target as it was, whatever its answer is. -/
theorem harmless_query (amb : Ambient) (pkt : Packet) :
    Harmless t (handleQueryCommand t amb pkt outBuf : Control σ Handled) := by
  have hanswer : ∀ o, Harmless t (answerWith t o : Control σ Handled) := fun _ => harmless_answerWith
  unfold handleQueryCommand
  refine refuses_ite (fun _ => hanswer _) fun _ => refuses_ite (fun _ => hanswer _) fun _ =>
    refuses_ite (fun _ => hanswer _) fun _ => refuses_ite (fun _ => hanswer _) fun _ =>
    refuses_ite (fun _ => ?_) fun _ => refuses_ite (fun _ => hanswer _) fun _ => hanswer _
  split
  · exact refuses_stop
  · exact refuses_pure fun _ => rfl

/-- A packet for a breakpoint is refused before a comparator is written. -/
theorem harmless_breakpoint (inBuf : List Byte) : Harmless t (handleBreakpointCommand A t inBuf) := by
  rw [handleBreakpointCommand]
  split
  · exact harmless_answerWith
  · refine refuses_of_ensures (ensures_bind fun ret => answerWith_ensures ?_)
    cases ret with
    | ok => decide
    | nosupp => decide

/-- Every handler that answers with an error has done nothing. -/
theorem harmless_handlePacket (amb : Ambient) (pkt : Packet) (h : outBuf ≠ errorReply) :
    Harmless t (handlePacket A t amb pkt outBuf) := by
  have hanswer : ∀ o, Harmless t (answerWith t o : Control σ Handled) := fun _ => harmless_answerWith
  unfold handlePacket
  refine refuses_ite (fun _ => harmless_readRegisters amb h) fun _ =>
    refuses_ite (fun _ => harmless_writeRegisters _) fun _ =>
    refuses_ite (fun _ => hanswer _) fun _ =>
    refuses_ite (fun _ => harmless_readMemory amb _ h) fun _ =>
    refuses_ite (fun _ => harmless_writeMemory _) fun _ =>
    refuses_ite (fun _ => harmless_readSingleRegister amb _ h) fun _ =>
    refuses_ite (fun _ => harmless_writeSingleRegister _) fun _ =>
    refuses_ite (fun _ => harmless_query amb pkt) fun _ =>
    refuses_ite (fun _ => hanswer _) fun _ => refuses_ite (fun _ => hanswer _) fun _ =>
    refuses_ite (fun _ => harmless_breakpoint _) fun _ => hanswer _

/-- A running command that is refused has not let the target go. -/
theorem refuses_runningCommands (running : Bool) (statusString inBuf : List Byte) :
    Refuses (handleRunningCommands A t running statusString inBuf outBuf)
      (fun r => r.targetRunning = false ∧ r.outBuf = errorReply) fun r => r.target = t := by
  have hpure : ∀ r : Running, r.target = t → Refuses (pure r : Control σ Running)
      (fun r => r.targetRunning = false ∧ r.outBuf = errorReply) fun r => r.target = t :=
    fun _ h => refuses_pure fun _ => h
  have hresume : ∀ sig addrText, Refuses (resumeTarget A t inBuf sig addrText)
      (fun r => r.1 ≠ .ok) fun r => r.2 = t := by
    intro sig addrText
    unfold resumeTarget
    refine refuses_ite (fun _ => refuses_pure fun _ => rfl) fun _ => ?_
    split
    · refine refuses_of_ensures (ensures_bind fun _ => ensures_pure ?_)
      exact fun h => h rfl
    · split
      · exact refuses_pure fun _ => rfl
      · refine refuses_of_ensures (ensures_bind fun _ => ensures_pure ?_)
        exact fun h => h rfl
  rw [handleRunningCommands]
  split
  · exact hpure _ rfl
  · refine (hresume _ _).bind (fun r hr ht => ?_) fun r hr => ?_
    · obtain ⟨ret, t'⟩ := r
      dsimp only
      rw [if_pos hr]
      exact hpure _ ht
    · obtain ⟨ret, t'⟩ := r
      dsimp only
      rw [if_neg hr]
      refine (elveesWaitPartial_ensures _).bind fun w hw => ?_
      rw [hw.1, hw.2.1, if_neg (by decide), if_neg (by decide)]
      refine ensures_ite (fun hmore => ensures_bind fun _ => ensures_pure ?_) fun _ => ensures_pure nofun
      exact fun h => hw.2.2 (by simpa using hmore) h.2

/-- The answer that an event gives to the debugger. -/
def ProxyEvent.answer : ProxyEvent → Option (List Byte)
  | .reply text => some text
  | .stopReply text => some text
  | _ => none

/-- The event is no answer with an error. -/
def ProxyEvent.NoError (e : ProxyEvent) : Prop := e.answer ≠ some errorReply

/-- Where a part of the proxy has answered with an error it has not touched the target. -/
def ErrorHarmless (p : Proxy) (m : ProxyProgram σ Proxy) : Prop :=
  ∀ s, ∀ e ∈ (m s).trace, e.answer = some errorReply →
    (m s).state = s ∧ (∀ c, .control c ∉ (m s).trace) ∧
      ∃ p', (m s).result = .ok p' ∧ p'.target = p.target

section MainLoop

variable {p : Proxy}

/-- A part of the proxy that sends no error is harmless. -/
theorem errorHarmless_of_issues {m : ProxyProgram σ Proxy}
    (h : Issues m ProxyEvent.NoError) : ErrorHarmless p m :=
  fun s e he hans => absurd hans (h s e he)

/-- A method of the target sends nothing. -/
theorem issues_onTarget (m : Control σ α) : Issues (onTarget m) ProxyEvent.NoError :=
  issues_mapEvents fun _ => nofun

/-- The output of the monitor is sent text by text. -/
theorem consoleOutput_apply (texts : List (List Byte)) (s : Session σ) :
    consoleOutput texts s = ⟨texts.map .console, s, .ok ()⟩ := by
  induction texts with
  | nil => rfl
  | cons text texts ih =>
    rw [consoleOutput, bind_apply]
    dsimp only [emit]
    rw [ih]
    rfl

/-- An answer is sent while the connection lasts. -/
theorem putAnswer_apply (e : ProxyEvent) (s : Session σ) :
    putAnswer p e s = ⟨if p.inputError then [] else [e], s, .ok p⟩ := by
  rw [putAnswer, bind_apply]
  cases p.inputError with
  | false => rfl
  | true => rfl

/-- An answer from the output buffer. -/
theorem errorHarmless_putAnswer {p' : Proxy} (h : p'.target = p.target) (e : ProxyEvent)
    (he : ∀ c, e ≠ .control c) : ErrorHarmless p (putAnswer p' e : ProxyProgram σ Proxy) := by
  intro s e' _ _
  rw [putAnswer_apply]
  refine ⟨rfl, fun c hc => ?_, p', rfl, h⟩
  dsimp only at hc
  split at hc
  · exact absurd hc List.not_mem_nil
  · exact he c (List.mem_singleton.mp hc).symm

/-- A part that talks to the target, and refuses with `P`, goes before one that answers with an
error only then. -/
theorem ErrorHarmless.afterTarget {m : Control σ α} {P R : α → Prop} {f : α → ProxyProgram σ Proxy}
    (hm : Refuses m P R) (hne : ∀ a, ¬ P a → Issues (f a) ProxyEvent.NoError)
    (hf : ∀ a, P a → R a → ErrorHarmless p (f a)) : ErrorHarmless p (onTarget m >>= f) := by
  intro s e he hans
  rcases of_mem_trace_bind he with hmem | ⟨a, tr, s₁, hr, hmem⟩
  · exact absurd hans (issues_onTarget m s e hmem)
  · by_cases hP : P a
    · obtain ⟨hR, rfl, rfl⟩ := (hm.mapEvents _) _ _ _ _ hr hP
      have hrun : (onTarget m >>= f) s₁ = f a s₁ := by
        rw [bind_apply, show onTarget m s₁ = _ from hr]
        rfl
      have hharm := hf a hP hR s₁ e hmem hans
      rwa [← hrun] at hharm
    · exact absurd hans (hne a hP s₁ e hmem)

theorem issues_putAnswer {e : ProxyEvent} (h : e.NoError) :
    Issues (putAnswer p e : ProxyProgram σ Proxy) ProxyEvent.NoError :=
  (issues_ite issues_pure (issues_emit h)).bind fun _ => issues_pure

/-- The proxy sends what a handler has answered, and keeps the target that it leaves. -/
theorem errorHarmless_handled {m : Control σ Handled} (h : Harmless p.target m) :
    ErrorHarmless p (processHandled p m) := by
  have hconsole : ∀ texts, Issues (consoleOutput texts : ProxyProgram σ Unit)
      ProxyEvent.NoError := by
    intro texts s e he
    rw [consoleOutput_apply] at he
    obtain ⟨text, -, rfl⟩ := List.mem_map.mp he
    nofun
  refine ErrorHarmless.afterTarget h (fun r hr => ?_) fun r _ ht => ?_
  · exact (hconsole _).bind fun _ => issues_putAnswer fun heq => hr (Option.some.inj heq)
  · intro s e _ _
    rw [bind_apply, consoleOutput_apply]
    dsimp only
    rw [putAnswer_apply]
    refine ⟨rfl, fun c hc => ?_, _, rfl, ht⟩
    rcases List.mem_append.mp hc with hc | hc
    · obtain ⟨text, -, htext⟩ := List.mem_map.mp hc
      exact absurd htext nofun
    · split at hc
      · exact absurd hc List.not_mem_nil
      · exact absurd (List.mem_singleton.mp hc) nofun

/-- The packets that resume the target are refused before it is resumed. -/
theorem errorHarmless_running (inBuf : List Byte) :
    ErrorHarmless p (processRunning A p inBuf outBuf) := by
  refine ErrorHarmless.afterTarget (refuses_runningCommands _ _ _) (fun r hr => ?_) fun r hr ht => ?_
  · dsimp only
    by_cases hrun : r.targetRunning = true
    · rw [if_pos hrun]
      exact issues_pure
    · have hne : r.outBuf ≠ errorReply := fun heq => hr ⟨by simpa using hrun, heq⟩
      rw [if_neg hrun]
      exact issues_ite (issues_putAnswer fun heq => hne (Option.some.inj heq))
        (issues_putAnswer fun heq => hne (Option.some.inj heq))
  · dsimp only
    rw [hr.1, if_neg Bool.false_ne_true]
    split
    · exact errorHarmless_putAnswer ht _ nofun
    · exact errorHarmless_putAnswer ht _ nofun

theorem issues_closeSession : Issues (closeSession A p) ProxyEvent.NoError :=
  (issues_onTarget _).bind fun _ => (issues_emit nofun).bind fun _ => issues_pure

theorem issues_assert {c : Prop} [Decidable c] {text : String} :
    Issues (assert c text : ProxyProgram σ Unit) ProxyEvent.NoError := issues_ite issues_pure issues_stop

theorem elveesRestart_ensures : (elveesRestart A t).Ensures fun r => r.1 = .ok :=
  ensures_bind fun _ => ensures_pure rfl

theorem issues_kill : Issues (processKill A p) ProxyEvent.NoError := by
  refine Issues.bind ?_ fun _ => issues_pure
  refine issues_ite (issues_closeSession.bind fun _ => issues_ite issues_stop issues_pure) ?_
  refine issues_ite issues_pure ?_
  refine (issues_onTarget _).bind_ensures (elveesRestart_ensures.mapEvents _) fun r hr => ?_
  obtain ⟨ret, t'⟩ := r
  obtain rfl : ret = .ok := hr
  exact issues_assert.bind fun _ => issues_pure

theorem issues_restart (h : outBuf ≠ errorReply) :
    Issues (processRestart A p outBuf) ProxyEvent.NoError := by
  have hput : ∀ p', Issues (putAnswer p' (.reply outBuf) : ProxyProgram σ Proxy) ProxyEvent.NoError :=
    fun _ => issues_putAnswer fun heq => h (Option.some.inj heq)
  refine Issues.bind ?_ fun _ => issues_ite issues_pure (hput _)
  refine issues_ite issues_pure (issues_assert.bind fun _ => ?_)
  refine (issues_onTarget _).bind_ensures (elveesRestart_ensures.mapEvents _) fun r hr => ?_
  obtain ⟨ret, t'⟩ := r
  obtain rfl : ret = .ok := hr
  exact issues_pure

theorem issues_detach (h : outBuf ≠ errorReply) :
    Issues (handleDetachCommand A p outBuf) ProxyEvent.NoError :=
  (issues_onTarget _).bind fun _ => (issues_emit fun heq => h (Option.some.inj heq)).bind fun _ =>
    (issues_emit nofun).bind fun _ => issues_ite issues_stop issues_pure

/-- A failed assertion answers nothing. -/
theorem ErrorHarmless.assert {c : Prop} [Decidable c] {text : String} {f : Unit → ProxyProgram σ Proxy}
    (h : ErrorHarmless p (f ())) : ErrorHarmless p (Mcprog.assert c text >>= f) := by
  by_cases hc : c
  · rw [Mcprog.assert, if_pos hc]
    exact h
  · rw [Mcprog.assert, if_neg hc]
    exact errorHarmless_of_issues fun s e he => nomatch he

/-- Whichever way the proxy goes, an error is harmless. -/
theorem ErrorHarmless.ite {c : Prop} [Decidable c] {m m' : ProxyProgram σ Proxy}
    (h : ErrorHarmless p m) (h' : ErrorHarmless p m') : ErrorHarmless p (if c then m else m') := by
  split
  · exact h
  · exact h'

/-- A packet of any kind, by the cases of its first character. -/
theorem errorHarmless_packet (pkt : Packet) (amb : Ambient) :
    ErrorHarmless p (processPacket A p pkt amb) := by
  have hempty : rpWriteRetval .nosupp ≠ errorReply := by decide
  refine ErrorHarmless.assert (.ite ?_ (.ite ?_ (.ite ?_ (.ite ?_ (.ite ?_ (.ite ?_ ?_))))))
  · exact .ite (errorHarmless_putAnswer rfl _ nofun) (errorHarmless_putAnswer rfl _ nofun)
  · exact errorHarmless_putAnswer rfl _ nofun
  · exact errorHarmless_running _
  · exact errorHarmless_of_issues ((issues_detach hempty).bind fun _ => issues_pure)
  · exact errorHarmless_of_issues issues_kill
  · exact errorHarmless_of_issues (issues_restart hempty)
  · exact errorHarmless_handled (harmless_handlePacket amb pkt hempty)

theorem issues_poll : Issues (pollTarget A p) ProxyEvent.NoError := by
  refine issues_ite ?_ issues_pure
  refine (issues_onTarget _).bind_ensures ((elveesWaitPartial_ensures _).mapEvents _) fun w hw => ?_
  refine issues_assert.bind fun _ => ?_
  dsimp only
  rw [hw.1, if_neg (by decide)]
  by_cases hmore : w.more = true
  · rw [if_neg (by simpa using hmore)]
    exact issues_pure
  · have hstatus := hw.2.2 (by simpa using hmore)
    rw [if_pos hmore]
    exact issues_assert.bind fun _ =>
      (issues_emit fun heq => hstatus (Option.some.inj heq)).bind fun _ => issues_pure

end MainLoop

/-- Whatever the proxy has received: where it answers with the error `E00`, the adapter has not
been called, so that the device is as it was before, and so is what is known of the target. -/
theorem processInput_error (A : Adapter σ) (p : Proxy) (input : Input) (s : Session σ)
    {e : ProxyEvent} (he : e ∈ (processInput A p input s).trace)
    (hans : e.answer = some (rpWriteRetval .err)) :
    (processInput A p input s).state = s ∧ (∀ c, .control c ∉ (processInput A p input s).trace) ∧
      ∃ p', (processInput A p input s).result = .ok p' ∧ p'.target = p.target := by
  cases input with
  | error => exact absurd he List.not_mem_nil
  | ack => exact absurd he List.not_mem_nil
  | nak => exact absurd he List.not_mem_nil
  | timeout => exact absurd hans (issues_poll s e he)
  | interrupt =>
    have hstop : Issues (interruptTarget A p) ProxyEvent.NoError :=
      issues_ite ((issues_onTarget _).bind fun _ => issues_pure) issues_pure
    exact absurd hans (hstop s e he)
  | packet pkt amb =>
    rw [processInput, bind_apply] at he ⊢
    dsimp only [emit] at he ⊢
    rcases List.mem_append.mp he with he | he
    · rw [List.mem_singleton.mp he] at hans
      exact absurd hans nofun
    · obtain ⟨hs, hc, hr⟩ := errorHarmless_packet pkt amb s e he hans
      refine ⟨hs, fun c hmem => ?_, hr⟩
      rcases List.mem_append.mp hmem with hmem | hmem
      · exact absurd (List.mem_singleton.mp hmem) nofun
      · exact hc c hmem

/-- Local variables that are all 0. -/
def Ambient.zero : Ambient := ⟨⟨⟨fun _ => 0, []⟩, ⟨fun _ => 0, []⟩, 0⟩, 0, false⟩

/-- A request for a register that does not exist. -/
theorem processInput_error_register :
    let o := processInput (scripted mc12Id 0) (Proxy.started Target.allocated)
      (.packet ⟨asciiText "p48", []⟩ .zero) ⟨0, []⟩
    o.state = ⟨0, []⟩ ∧ (∀ c, .control c ∉ o.trace) ∧
      ∃ p', o.result = .ok p' ∧ p'.target = Target.allocated :=
  processInput_error (scripted mc12Id 0) (Proxy.started Target.allocated)
    (.packet ⟨asciiText "p48", []⟩ .zero) ⟨0, []⟩ (e := .reply (rpWriteRetval .err)) (by decide) rfl

end Mcprog
