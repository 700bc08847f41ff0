import Mcprog.Library.Observer
import Mcprog.Adapter.Usb

/-!
# Memory cycles behind the adapter calls

A store is an address in `OMAR`, a word in `OMDR` and an access through `MEM`; a load is
an address, an access and the word read back from `OMDR`. The observer reads these
cycles off a trace. A call of an extended method stands for the cycles of its packet.
-/

namespace Mcprog

open Interaction

/-- A cycle on the memory bus of the target. -/
inductive BusEvent
  | write (addr val : Word)
  | read (addr val : Word)
  deriving DecidableEq, Repr

/-- The loads of a block at consecutive words. -/
def blockReads (addr : Word) (data : List Word) : List BusEvent :=
  (consecutive addr data).map fun a => .read a.1 a.2

/-- The stores of a list of words. -/
def stores (args : List (Word × Word)) : List BusEvent := args.map fun a => .write a.1 a.2

@[simp] theorem stores_nil : stores [] = [] := rfl

@[simp] theorem stores_cons (a : Word × Word) (args : List (Word × Word)) :
    stores (a :: args) = .write a.1 a.2 :: stores args := rfl

/-- The stores of two lists, one after the other. -/
theorem stores_append (args args' : List (Word × Word)) :
    stores (args ++ args') = stores args ++ stores args' := List.map_append

/-- The stores among the cycles. -/
def busWrites (obs : List BusEvent) : List (Word × Word) :=
  obs.filterMap fun
    | .write addr val => some (addr, val)
    | .read _ _ => none

/-- The loads among the cycles. -/
def busReads (obs : List BusEvent) : List (Word × Word) :=
  obs.filterMap fun
    | .write _ _ => none
    | .read addr val => some (addr, val)

theorem busReads_append (obs obs' : List BusEvent) :
    busReads (obs ++ obs') = busReads obs ++ busReads obs' := List.filterMap_append

@[simp] theorem busReads_stores (args : List (Word × Word)) : busReads (stores args) = [] := by
  induction args with
  | nil => rfl
  | cons a args ih => exact ih

@[simp] theorem busReads_read (addr val : Word) : busReads [.read addr val] = [(addr, val)] := rfl

theorem busWrites_append (obs obs' : List BusEvent) :
    busWrites (obs ++ obs') = busWrites obs ++ busWrites obs' := List.filterMap_append

/-- The stores of a list are what is stored. -/
@[simp] theorem busWrites_stores (args : List (Word × Word)) : busWrites (stores args) = args := by
  induction args with
  | nil => rfl
  | cons a args ih =>
    rw [stores_cons, busWrites, List.filterMap_cons]
    exact congrArg (a :: ·) ih

/-- Loads of one address, whatever they answer. -/
def Polls (addr : Word) (obs : List BusEvent) : Prop :=
  ∃ vals : List Word, obs = vals.map (.read addr)

theorem polls_nil {addr : Word} : Polls addr [] := ⟨[], rfl⟩

/-- Polls of one address, one after the other. -/
theorem Polls.append {addr : Word} {obs obs' : List BusEvent} (h : Polls addr obs)
    (h' : Polls addr obs') : Polls addr (obs ++ obs') := by
  obtain ⟨vals, rfl⟩ := h
  obtain ⟨vals', rfl⟩ := h'
  exact ⟨vals ++ vals', List.map_append.symm⟩

theorem polls_singleton {addr val : Word} : Polls addr [.read addr val] := ⟨[val], rfl⟩

/-- Polling stores nothing. -/
theorem Polls.busWrites {addr : Word} {obs : List BusEvent} (h : Polls addr obs) :
    busWrites obs = [] := by
  obtain ⟨vals, rfl⟩ := h
  induction vals with
  | nil => rfl
  | cons val vals ih => exact ih

/-- Polling loads from one address. -/
theorem Polls.busReads {addr : Word} {obs : List BusEvent} (h : Polls addr obs) :
    ∀ a ∈ busReads obs, a.1 = addr := by
  obtain ⟨vals, rfl⟩ := h
  intro a ha
  obtain ⟨e, he, hea⟩ := List.mem_filterMap.mp ha
  obtain ⟨val, -, rfl⟩ := List.mem_map.mp he
  rw [← Option.some.inj hea]

/-- The latches of the memory interface. -/
structure Latches where
  omar : Option Word
  /-- A word that waits for the access. -/
  omdr : Option Word
  deriving DecidableEq, Repr

/-- What one call does on the bus. -/
def busStep (k : Latches) : Call → Latches × List BusEvent
  | .oncdWrite val reg _ =>
    if reg = oncdOmar then (⟨some val, none⟩, [])
    else if reg = oncdOmdr then (⟨k.omar, some val⟩, [])
    else if reg = oncdMem then
      match k.omar, k.omdr with
      | some addr, some val => (⟨some addr, none⟩, [.write addr val])
      | _, _ => (k, [])
    else (k, [])
  | .oncdRead reg _ val =>
    match k.omar with
    | some addr => (k, if reg = oncdOmdr then [.read addr val] else [])
    | none => (k, [])
  | .readBlock addr data => (k, blockReads addr data)
  | .writeBlock addr data => (k, stores (packetWrites (usbWriteBlock blockMode addr data)))
  | .writeNwords args => (k, stores (packetWrites (usbWriteNwords blockMode args)))
  | .programBlock32 args => (k, stores (packetWrites (usbProgramBlock32 blockMode args)))
  | .programBlock32Unprotect args =>
    (k, stores (packetWrites (usbProgramBlock32Unprotect blockMode args)))
  | .programBlock32Protect args =>
    (k, stores (packetWrites (usbProgramBlock32Protect blockMode args)))
  | .programBlock64 args => (k, stores (packetWrites (usbProgramBlock64 blockMode args)))
  | .programBlock32Micron addr data =>
    (k, stores (packetWrites (usbProgramBlock32Micron blockMode addr data)))
  | _ => (k, [])

/-- The observer of the memory bus. Between two operations no word waits for its access. -/
def bus : Observer Call BusEvent Latches where
  idle k := k.omdr = none
  step := busStep
  start := ⟨none, none⟩
  start_idle := rfl

/-- The memory cycles behind a trace. -/
def busEvents (tr : List Call) : List BusEvent := (bus.observe bus.start tr).2

/-- What a run exhibits holds of the cycles behind its trace. -/
theorem busEvents_of_exhibits {σ α : Type} {m : Action σ α} {R : α → List BusEvent → Prop}
    (hm : m.Exhibits bus R) {s s' : Session σ} {a : α} {tr : List Call}
    (h : m.Returns s a tr s') : R a (busEvents tr) := by
  obtain ⟨obs, hobs, hR⟩ := hm s a tr s' h
  rw [busEvents, (hobs bus.start bus.start_idle).2]
  exact hR

variable {addr val : Word} {tr : List Call}

/-- Calls that touch neither the latches nor the memory. -/
def Quiet (tr : List Call) : Prop := ∀ c ∈ tr, ∀ k, busStep k c = (k, [])

theorem quiet_nil : Quiet [] := by simp [Quiet]

/-- Calls that say nothing to the memory, one after the other. -/
theorem Quiet.append {tr tr' : List Call} (h : Quiet tr) (h' : Quiet tr') : Quiet (tr ++ tr') := by
  intro c hc
  rcases List.mem_append.mp hc with hc | hc
  · exact h c hc
  · exact h' c hc

/-- They leave the latches, and show nothing. -/
theorem Quiet.observe (h : Quiet tr) (k : Latches) : bus.observe k tr = (k, []) := by
  induction tr with
  | nil => rfl
  | cons c tr ih =>
    have hc : bus.step k c = (k, []) := h c List.mem_cons_self k
    rw [Observer.observe_cons, hc, ih fun c' hc' => h c' (List.mem_cons_of_mem _ hc')]
    rfl

/-- They show nothing. -/
theorem Quiet.shows (h : Quiet tr) : bus.Shows tr [] := by
  intro k hk
  rw [h.observe]
  exact ⟨hk, rfl⟩

/-- Registers other than the three of the memory interface are quiet. -/
theorem quiet_oncdWrite {reg nbits : Nat} (h₁ : reg ≠ oncdOmar) (h₂ : reg ≠ oncdOmdr)
    (h₃ : reg ≠ oncdMem) : Quiet [.oncdWrite val reg nbits] := by
  intro c hc k
  rw [List.mem_singleton.mp hc, busStep, if_neg h₁, if_neg h₂, if_neg h₃]

/-- A register other than the one for data starts no cycle when it is read. -/
theorem quiet_oncdRead {reg nbits : Nat} (h : reg ≠ oncdOmdr) :
    Quiet [.oncdRead reg nbits val] := by
  intro c hc k
  rw [List.mem_singleton.mp hc]
  unfold busStep
  cases k.omar <;> simp [h]

/-- A store through the debug registers. -/
theorem shows_store (h : Quiet tr) :
    bus.Shows (.oncdWrite addr oncdOmar 32 :: .oncdWrite val oncdOmdr 32 ::
      .oncdWrite 0 oncdMem 0 :: tr) [.write addr val] := by
  intro k _
  simp only [Observer.observe_cons, h.observe]
  exact ⟨rfl, rfl⟩

/-- A load through the debug registers. -/
theorem shows_load (h : Quiet tr) :
    bus.Shows (.oncdWrite addr oncdOmar 32 :: .oncdWrite 0 oncdMem 0 ::
      (tr ++ [.oncdRead oncdOmdr 32 val])) [.read addr val] := by
  intro k _
  simp only [Observer.observe_cons, Observer.observe_append, h.observe]
  exact ⟨rfl, rfl⟩

/-- An extended method shows the cycles of its packet. -/
theorem shows_call {c : Call} {obs : List BusEvent} (h : ∀ k, busStep k c = (k, obs)) :
    bus.Shows [c] obs := by
  intro k hk
  have hc : bus.step k c = (k, obs) := h k
  rw [Observer.observe_cons, hc, Observer.observe_nil, List.append_nil]
  exact ⟨hk, rfl⟩

end Mcprog
