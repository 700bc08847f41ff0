import Mcprog.Adapter.Bus

/-!
# The write buffer of Micron chips

What the chips on a bus of 32 bits make of its cycles, whoever makes them. A cycle of the
buffer begins with the setup command and status loads; a word with the count, the data and
the command that confirms them follow, and then status loads until the next command.
-/

namespace Mcprog

open Interaction

/-- A cycle of the write buffer. -/
structure BufferCycle where
  /-- The addresses of the commands, of the count and of the status loads. -/
  commands : List Word
  count : Word
  data : List (Word × Word)
  deriving DecidableEq, Repr

/-- One more command or status load. -/
def BufferCycle.access (c : BufferCycle) (addrs : List Word) : BufferCycle :=
  { c with commands := c.commands ++ addrs }

/-- What comes of a buffer: it is programmed, or given up. -/
inductive BufferEvent
  | cycle (c : BufferCycle)
  | abort
  deriving DecidableEq, Repr

/-- How far a cycle of the buffer is. -/
inductive BufferState
  | ready
  | setup (commands : List Word)
  /-- So many words of data are to come, and then the confirmation. -/
  | filling (c : BufferCycle) (left : Nat)
  | busy (c : BufferCycle)
  deriving DecidableEq, Repr

/-- The command in a word: the low byte of each half. -/
def chipCommand (val : Word) : Word := val &&& 0x00ff00ff

def setupCommand : Word := 0x00e800e8
def confirmCommand : Word := 0x00d000d0
def resetCommand : Word := 0x00ff00ff

theorem chipCommand_setup : chipCommand 0xe8e8e8e8 = setupCommand := by decide

/-- What a store makes of chips that wait for a command. -/
def firstCommand (addr val : Word) : BufferState :=
  if chipCommand val = setupCommand then .setup [addr] else .ready

/-- What the chips make of one cycle of the bus. -/
def bufferStep : BufferState → BusEvent → BufferState × List BufferEvent
  | .ready, .read _ _ => (.ready, [])
  | .ready, .write addr val => (firstCommand addr val, [])
  | .setup commands, .read addr _ => (.setup (commands ++ [addr]), [])
  | .setup commands, .write addr val =>
    if chipCommand val = setupCommand then (.setup (commands ++ [addr]), [])
    else if chipCommand val = resetCommand then (.ready, [.abort])
    else (.filling ⟨commands ++ [addr], val, []⟩ ((val &&& 0xffff).toNat + 1), [])
  | .filling c left, .read addr _ => (.filling (c.access [addr]) left, [])
  | .filling c (left + 1), .write addr val =>
    (.filling { c with data := c.data ++ [(addr, val)] } left, [])
  | .filling c 0, .write addr val =>
    if chipCommand val = confirmCommand then (.busy (c.access [addr]), []) else (.ready, [.abort])
  | .busy c, .read addr _ => (.busy (c.access [addr]), [])
  | .busy c, .write addr val => (firstCommand addr val, [.cycle c])

/-- The observer of the write buffer. -/
def writeBuffer : Observer BusEvent BufferEvent BufferState where
  idle k := k = .ready
  step := bufferStep
  start := .ready
  start_idle := rfl

theorem writeBuffer_step : writeBuffer.step = bufferStep := rfl

/-- What comes of the buffers behind a trace. -/
def bufferEvents (tr : List Call) : List BufferEvent :=
  (writeBuffer.observe .ready (busEvents tr)).2

/-- The buffers that are programmed. -/
def bufferCycles (obs : List BufferEvent) : List BufferCycle :=
  obs.filterMap fun
    | .cycle c => some c
    | .abort => none

namespace BufferState

/-- The chips take the next command: no buffer is under way, or one is being programmed. -/
def Accepting (k : BufferState) : Prop := k = .ready ∨ ∃ c, k = .busy c

/-- The buffer that the next command ends. -/
def pending : BufferState → List BufferEvent
  | .busy c => [.cycle c]
  | _ => []

/-- The accesses of a setup that is under way. -/
def opened : BufferState → List Word
  | .setup commands => commands
  | _ => []

end BufferState

variable {addr cmd : Word} {obs : List BusEvent} {k : BufferState} {c : BufferCycle}

/-- Commands and status loads of one address. -/
def CommandOrLoad (addr cmd : Word) (e : BusEvent) : Prop :=
  e = .write addr cmd ∨ ∃ val, e = .read addr val

/-- A command, and then commands and status loads of the same address. -/
def CommandPolls (addr cmd : Word) (obs : List BusEvent) : Prop :=
  ∃ rest, obs = .write addr cmd :: rest ∧ ∀ e ∈ rest, CommandOrLoad addr cmd e

/-- One command, and one look at the status. -/
theorem commandPolls_once (addr cmd val : Word) :
    CommandPolls addr cmd [.write addr cmd, .read addr val] := by
  refine ⟨_, rfl, ?_⟩
  intro e he
  exact .inr ⟨val, List.mem_singleton.mp he⟩

theorem CommandPolls.again {val : Word} (h : CommandPolls addr cmd obs) :
    CommandPolls addr cmd ([.write addr cmd, .read addr val] ++ obs) := by
  obtain ⟨rest, rfl, hrest⟩ := h
  refine ⟨_, rfl, ?_⟩
  intro e he
  rcases List.mem_cons.mp he with rfl | he
  · exact .inr ⟨val, rfl⟩
  · rcases List.mem_cons.mp he with rfl | he
    · exact .inl rfl
    · exact hrest e he

/-- Status loads of one address belong to the buffer that is being programmed. -/
theorem Polls.observe_busy (h : Polls addr obs) (c : BufferCycle) :
    ∃ addrs, (∀ a ∈ addrs, a = addr) ∧
      writeBuffer.observe (.busy c) obs = (.busy (c.access addrs), []) := by
  obtain ⟨vals, rfl⟩ := h
  refine ⟨vals.map fun _ => addr, by simp, ?_⟩
  induction vals generalizing c with
  | nil => simp [BufferCycle.access]
  | cons val vals ih =>
    rw [List.map_cons, Observer.observe_cons]
    change ((writeBuffer.observe (.busy (c.access [addr])) _).1,
      (writeBuffer.observe (.busy (c.access [addr])) _).2) = _
    rw [ih (c.access [addr])]
    simp [BufferCycle.access]

/-- Looks do not change a chip that is ready. -/
theorem Polls.observe_ready (h : Polls addr obs) :
    writeBuffer.observe .ready obs = (.ready, []) := by
  obtain ⟨vals, rfl⟩ := h
  induction vals with
  | nil => rfl
  | cons val vals ih => exact ih

/-- A store where a command is awaited ends the buffer before. -/
theorem BufferState.Accepting.step_write (hk : k.Accepting) (addr val : Word) :
    writeBuffer.step k (.write addr val) = (firstCommand addr val, k.pending) := by
  rcases hk with rfl | ⟨c, rfl⟩ <;> rfl

/-- Setup commands and status loads of a setup that is under way. -/
theorem observe_setup (commands : List Word) (h : ∀ e ∈ obs, CommandOrLoad addr 0xe8e8e8e8 e) :
    writeBuffer.observe (.setup commands) obs =
      (.setup (commands ++ obs.map fun _ => addr), []) := by
  induction obs generalizing commands with
  | nil => simp
  | cons e obs ih =>
    have hstep : writeBuffer.step (.setup commands) e = (.setup (commands ++ [addr]), []) := by
      rcases h e List.mem_cons_self with rfl | ⟨val, rfl⟩
      · rw [writeBuffer_step, bufferStep, if_pos chipCommand_setup]
      · rfl
    rw [Observer.observe_cons, hstep, ih _ fun e' he' => h e' (List.mem_cons_of_mem _ he')]
    simp

/-- Polling with the setup command opens the next buffer, and ends the one before. -/
theorem CommandPolls.observe_setup (h : CommandPolls addr 0xe8e8e8e8 obs) (hk : k.Accepting) :
    ∃ addrs, addr ∈ addrs ∧ (∀ a ∈ addrs, a = addr) ∧
      writeBuffer.observe k obs = (.setup addrs, k.pending) := by
  obtain ⟨rest, rfl, hrest⟩ := h
  have hfirst : firstCommand addr 0xe8e8e8e8 = .setup [addr] := if_pos chipCommand_setup
  refine ⟨[addr] ++ rest.map fun _ => addr, by simp, by simp, ?_⟩
  rw [Observer.observe_cons, hk.step_write, hfirst, Mcprog.observe_setup [addr] hrest,
    List.append_nil]

/-- Chips that wait for a command pass over other ones. -/
theorem observe_ready (hcmd : chipCommand cmd ≠ setupCommand)
    (h : ∀ e ∈ obs, CommandOrLoad addr cmd e) :
    writeBuffer.observe .ready obs = (.ready, []) := by
  induction obs with
  | nil => rfl
  | cons e obs ih =>
    have hfirst : firstCommand addr cmd = .ready := if_neg hcmd
    have hstep : writeBuffer.step .ready e = (.ready, []) := by
      rcases h e List.mem_cons_self with rfl | ⟨val, rfl⟩
      · exact congrArg (Prod.mk · []) hfirst
      · rfl
    rw [Observer.observe_cons, hstep, ih fun e' he' => h e' (List.mem_cons_of_mem _ he')]
    rfl

/-- Polling with any other command ends the buffer before. -/
theorem CommandPolls.observe_other (h : CommandPolls addr cmd obs)
    (hcmd : chipCommand cmd ≠ setupCommand) (hk : k.Accepting) :
    writeBuffer.observe k obs = (.ready, k.pending) := by
  obtain ⟨rest, rfl, hrest⟩ := h
  have hfirst : firstCommand addr cmd = .ready := if_neg hcmd
  rw [Observer.observe_cons, hk.step_write, hfirst, observe_ready hcmd hrest, List.append_nil]

/-- The word with the count of a buffer: the number of its words without one, for each chip. -/
def countWord (n : Nat) : Word := (BitVec.ofNat 32 n <<< 16) ||| BitVec.ofNat 32 n

/-- A count is no command, and the chips take it for what it is. -/
theorem countWord_spec {n : Nat} (hn : n < 16) : chipCommand (countWord n) ≠ setupCommand ∧
    chipCommand (countWord n) ≠ resetCommand ∧ (countWord n &&& 0xffff).toNat = n := by
  interval_cases n <;> decide

/-- The words of data are collected. -/
theorem observe_data (c : BufferCycle) (data : List (Word × Word)) :
    writeBuffer.observe (.filling c data.length) (stores data) =
      (.filling { c with data := c.data ++ data } 0, []) := by
  induction data generalizing c with
  | nil => simp
  | cons a data ih =>
    have hstep : writeBuffer.step (.filling c (data.length + 1)) (.write a.1 a.2) =
        (.filling { c with data := c.data ++ [a] } data.length, []) := rfl
    rw [List.length_cons, stores_cons, Observer.observe_cons, hstep, ih]
    simp

/-- The count, as many words of data as it says, and the confirmation. -/
theorem observe_fill (commands : List Word) {n : Nat} (hn : n < 16) (place : Word)
    {data : List (Word × Word)} (hdata : data.length = n + 1) {confirm : Word}
    (hconfirm : chipCommand confirm = confirmCommand) :
    writeBuffer.observe (.setup commands) (stores ((place, countWord n) :: (data ++ [(place, confirm)]))) =
      (.busy ⟨commands ++ [place, place], countWord n, data⟩, []) := by
  obtain ⟨hsetup, hreset, hcount⟩ := countWord_spec hn
  have hstep : writeBuffer.step (.setup commands) (.write place (countWord n)) =
      (.filling ⟨commands ++ [place], countWord n, []⟩ data.length, []) := by
    rw [writeBuffer_step, bufferStep, if_neg hsetup, if_neg hreset, hcount, hdata]
  have hlast : writeBuffer.step (.filling ⟨commands ++ [place], countWord n, [] ++ data⟩ 0)
      (.write place confirm) = (.busy ⟨commands ++ [place, place], countWord n, data⟩, []) := by
    rw [writeBuffer_step, bufferStep, if_pos hconfirm]
    simp [BufferCycle.access]
  rw [stores_cons, Observer.observe_cons, hstep, stores_append, Observer.observe_append,
    observe_data, stores_cons, stores_nil, Observer.observe_cons, hlast]
  rfl

end Mcprog
