import Mcprog.Remote.Handlers

/-!
# The main loop of the proxy

One turn of the loop of `main` reads at most one packet. The events of a run are those of
the target, what is sent to the debugger, and where a connection starts and ends.
-/

namespace Mcprog

open Interaction Program

/-- What a run of the proxy shows. -/
inductive ProxyEvent
  | control (e : ControlEvent)
  /-- `rp_console_output`. -/
  | console (text : List Byte)
  /-- A packet is taken from the connection. -/
  | received (text : List Byte)
  /-- `rp_putpkt` with the answer to the last packet. -/
  | reply (text : List Byte)
  /-- `rp_putpkt` with a status string, because the target has stopped. -/
  | stopReply (text : List Byte)
  /-- A debugger has connected, with `rp_target_running` as it is then. -/
  | connected (targetRunning : Bool)
  /-- `dbg_sock_close`. -/
  | closed
  deriving DecidableEq, Repr

/-- The event is a stop reply. -/
def ProxyEvent.isStopReply : ProxyEvent → Bool
  | .stopReply _ => true
  | _ => false

/-- A part of the proxy. -/
abbrev ProxyProgram (σ α : Type) : Type := Program ProxyEvent (Session σ) Fatal α

variable {σ α : Type}

/-- A program that controls the target, as a part of the proxy. -/
def onTarget (m : Control σ α) : ProxyProgram σ α := mapEvents .control m

/-- The variables of `main`, and those that it shares with the handlers. -/
structure Proxy where
  target : Target
  targetRunning : Bool
  extendedProtocol : Bool
  canRestart : Bool
  statusString : List Byte
  inputError : Bool
  doReinitialize : Bool
  /-- 0 and 1 for the truth values, or -1. -/
  doConnect : Int

/-- What `rp_getpkt` returns. -/
inductive Input
  | packet (pkt : Packet) (amb : Ambient)
  | timeout
  | interrupt
  | ack
  | nak
  | error

/-- Close the target and the connection. -/
def closeSession (A : Adapter σ) (p : Proxy) : ProxyProgram σ Proxy := do
  let t ← onTarget (elveesClose A p.target)
  emit .closed
  return { p with target := t }

/-- The start of a turn after the debugger has closed the connection. -/
def afterInputError (A : Adapter σ) (p : Proxy) : ProxyProgram σ Proxy :=
  if p.inputError then do
    let p ← closeSession A { p with inputError := false }
    return { p with doReinitialize := true }
  else pure p

/-- Wait for the next debugger. The adapter has been opened before. -/
def acceptSession (p : Proxy) : ProxyProgram σ Proxy :=
  if p.doReinitialize then do
    emit (.connected p.targetRunning)
    return { p with doReinitialize := false, extendedProtocol := false, doConnect := 1 }
  else pure p

/-- Connect the target, and say whether to go on with this turn. -/
def connectTarget (A : Adapter σ) (p : Proxy) : ProxyProgram σ (Bool × Proxy) :=
  if p.doConnect ≠ 0 then do
    let (ret, statusString, t) ← onTarget (elveesConnect A p.target)
    if ret ≠ .ok then do
      let p ← closeSession A { p with target := t, statusString, canRestart := true, doConnect := 0 }
      return (false, { p with doReinitialize := true })
    else return (true, { p with target := t, statusString, canRestart := true, doConnect := 0 })
  else return (true, p)

/-- `handle_kill_command`: what it returns. -/
def handleKillCommand (A : Adapter σ) (p : Proxy) : ProxyProgram σ (Int × Proxy) :=
  if ¬ p.extendedProtocol then do
    let p ← closeSession A p
    if ¬ p.canRestart then Program.stop (.exit 0 "%s: session killed. Exiting" [])
    else return (0, p)
  else if ¬ p.canRestart then return (-1, p)
  else do
    let (ret, t) ← onTarget (elveesRestart A p.target)
    assert (ret ≠ .nosupp) "ret != RP_VAL_TARGETRET_NOSUPP"
    if ret ≠ .ok then do
      let t ← onTarget (elveesClose A t)
      emit (.reply (rpWriteRetval .err))
      emit .closed
      return (0, { p with target := t })
    else return (1, { p with target := t })

/-- `handle_restart_target_command`: what it returns. -/
def handleRestartTargetCommand (A : Adapter σ) (p : Proxy) : ProxyProgram σ (Int × Proxy) :=
  if ¬ p.extendedProtocol then return (0, p)
  else do
    assert (p.canRestart = true) "can_restart"
    let (ret, t) ← onTarget (elveesRestart A p.target)
    if ret ≠ .ok then do
      let t ← onTarget (elveesClose A t)
      emit (.reply (rpWriteRetval .err))
      emit .closed
      return (-1, { p with target := t })
    else return (1, { p with target := t })

/-- `handle_detach_command`. -/
def handleDetachCommand (A : Adapter σ) (p : Proxy) (outBuf : List Byte) : ProxyProgram σ Proxy := do
  let t ← onTarget (elveesClose A p.target)
  emit (.reply outBuf)
  emit .closed
  if ¬ p.canRestart then Program.stop (.exit 0 "%s: target is not restartable. Exiting" [])
  else return { p with target := t }

/-- Send what is in the output buffer. -/
def putAnswer (p : Proxy) (answer : ProxyEvent) : ProxyProgram σ Proxy := do
  (if p.inputError then pure () else emit answer)
  return p

/-- Write to the console. -/
def consoleOutput : List (List Byte) → ProxyProgram σ Unit
  | [] => pure ()
  | text :: texts => do
    emit (.console text)
    consoleOutput texts

/-- A packet that only the target answers. -/
def processHandled (p : Proxy) (m : Control σ Handled) : ProxyProgram σ Proxy := do
  let h ← onTarget m
  consoleOutput h.console
  putAnswer { p with target := h.target } (.reply h.outBuf)

/-- A running command. The debugger gets its answer once the target has stopped. -/
def processRunning (A : Adapter σ) (p : Proxy) (inBuf outBuf : List Byte) : ProxyProgram σ Proxy := do
  let r ← onTarget (handleRunningCommands A p.target p.targetRunning p.statusString inBuf outBuf)
  let p := { p with
    target := r.target, statusString := r.statusString, targetRunning := r.targetRunning }
  if r.targetRunning then return p
  else if r.stopped then putAnswer p (.stopReply r.outBuf)
  else putAnswer p (.reply r.outBuf)

/-- A packet that kills the session. -/
def processKill (A : Adapter σ) (p : Proxy) : ProxyProgram σ Proxy := do
  let (ret, p) ← handleKillCommand A p
  return { p with
    doConnect := ret
    inputError := if ret = -1 then true else p.inputError
    doReinitialize := if ret = 0 then true else p.doReinitialize }

/-- A packet that restarts the target. -/
def processRestart (A : Adapter σ) (p : Proxy) (outBuf : List Byte) : ProxyProgram σ Proxy := do
  let (ret, p) ← handleRestartTargetCommand A p
  let p := { p with
    doConnect := ret, doReinitialize := if ret = -1 then true else p.doReinitialize }
  if ret ≠ 0 then return p else putAnswer p (.reply outBuf)

/-- A packet that sets the extended protocol. -/
def processExtended (p : Proxy) (outBuf : List Byte) : ProxyProgram σ Proxy :=
  if p.canRestart then putAnswer { p with extendedProtocol := true } (.reply (rpWriteRetval .ok))
  else putAnswer p (.reply outBuf)

/-- A packet. -/
def processPacket (A : Adapter σ) (p : Proxy) (pkt : Packet) (amb : Ambient) : ProxyProgram σ Proxy := do
  assert (0 ∉ pkt.text) "in_len == strlen(in_buf)"
  let c := pkt.text.headD 0
  let outBuf := rpWriteRetval .nosupp
  if c = ascii '!' then processExtended p outBuf
  else if c = ascii '?' then putAnswer p (.reply p.statusString)
  else if c ∈ asciiText "CSWcsw" then processRunning A p pkt.text outBuf
  else if c = ascii 'D' then do
    let p ← handleDetachCommand A p outBuf
    return { p with doReinitialize := true }
  else if c = ascii 'k' then processKill A p
  else if c = ascii 'R' then processRestart A p outBuf
  else processHandled p (handlePacket A p.target amb pkt outBuf)

/-- Look for a target that has stopped. -/
def pollTarget (A : Adapter σ) (p : Proxy) : ProxyProgram σ Proxy :=
  if p.targetRunning then do
    let w ← onTarget (elveesWaitPartial A p.target p.statusString)
    assert (w.implemented = true) "implemented"
    let p := { p with target := w.target, statusString := w.statusString }
    if w.ret ≠ .ok then do
      emit (.reply (rpWriteRetval w.ret))
      return { p with targetRunning := false }
    else if ¬ w.more then do
      assert (w.statusString.length < inOutBufSize) "strlen(status_string) < sizeof(status_string)"
      emit (.stopReply w.statusString)
      return { p with targetRunning := false }
    else return p
  else pure p

/-- Stop a running target. It is found to be stopped in a later turn. -/
def interruptTarget (A : Adapter σ) (p : Proxy) : ProxyProgram σ Proxy :=
  if p.targetRunning then do
    let t ← onTarget (elveesStop A p.target)
    return { p with target := t }
  else pure p

/-- What a turn does with what `rp_getpkt` returns. -/
def processInput (A : Adapter σ) (p : Proxy) : Input → ProxyProgram σ Proxy
  | .error => return { p with inputError := true }
  | .interrupt => interruptTarget A p
  | .timeout => pollTarget A p
  | .ack => return p
  | .nak => return p
  | .packet pkt amb => do
    emit (.received pkt.text)
    processPacket A p pkt amb

/-- One turn of the loop. -/
def proxyTurn (A : Adapter σ) (p : Proxy) (input : Input) : ProxyProgram σ Proxy := do
  let p ← afterInputError A p
  let p ← acceptSession p
  let (connected, p) ← connectTarget A p
  if connected then processInput A p input else return p

/-- Some turns of the loop. -/
def proxyTurns (A : Adapter σ) : Proxy → List Input → ProxyProgram σ Proxy
  | p, [] => pure p
  | p, input :: inputs => do
    let p ← proxyTurn A p input
    proxyTurns A p inputs

/-- The proxy at the start of the loop, with the target opened. -/
def Proxy.started (t : Target) : Proxy :=
  { target := t, targetRunning := false, extendedProtocol := false, canRestart := false,
    statusString := [], inputError := false, doReinitialize := true, doConnect := 1 }

end Mcprog
