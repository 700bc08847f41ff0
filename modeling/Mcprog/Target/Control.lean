import Mcprog.Library.Triple
import Mcprog.Adapter.Scripted
import Mcprog.Target.Exec

/-!
# Stopping and releasing the processor

The operations that stop the processor save its state, those that let it go restore the
state first. The events of a run are the calls of the adapter, and marks where the state is
saved or restored and where the stopped program is let go.
-/

namespace Mcprog

open Interaction Program

variable {σ α : Type}

/-- What a run shows of the control of the processor. -/
inductive ControlEvent
  | call (c : Call)
  | save
  | restore
  | step
  | run
  | reset
  deriving DecidableEq, Repr

/-- A program that controls the processor. -/
abbrev Control (σ α : Type) : Type := Program ControlEvent (Session σ) Fatal α

/-- A program that talks to the adapter, as a part of one that controls the processor. -/
def calls (m : Action σ α) : Control σ α := mapEvents .call m

/-- A mandatory method without arguments. -/
def adapterCall (f : Method σ α) (event : α → Call) : Action σ α := Program.request f.lift event

/-- Save the state of the processor, marked. -/
def saveContext (A : Adapter σ) (t : Target) : Control σ Target := do
  emit .save
  calls (targetSaveState A t)

/-- Restore the state of the processor, marked. -/
def restoreContext (A : Adapter σ) (t : Target) : Control σ Unit := do
  emit .restore
  calls (targetRestoreState A t)

/-- Let the stopped program make one step, marked. -/
def stepProgram (A : Adapter σ) : Control σ Unit := do
  emit .step
  match A.stepCpu with
  | some stepCpu => calls (extension stepCpu fun _ => .stepCpu)
  | none => calls (oncdWrite A 0 (oncdGo ||| irdFlushPipe ||| irdStep1Clk) 0)

/-- Let the stopped program run, marked. -/
def runProgram (A : Adapter σ) : Control σ Unit := do
  emit .run
  match A.runCpu with
  | some runCpu => calls (extension runCpu fun _ => .runCpu)
  | none => calls (oncdWrite A 0 (oncdGo ||| irdResume ||| irdFlushPipe) 0)

/-- What `target_is_stopped` answers. -/
structure StopState where
  stopped : Bool
  aborted : Bool
  deriving DecidableEq, Repr

/-- Take over a processor that has stopped by itself. -/
def noteStop (A : Adapter σ) (t : Target) : Control σ Target :=
  if t.isRunning then do
    calls (adapterCall A.stopCpu fun _ => .stopCpu)
    saveContext A { t with isRunning := false }
  else pure t

/-- Whether the processor has stopped, and whether by an instruction of the program. -/
def targetIsStopped (A : Adapter σ) (t : Target) : Control σ (StopState × Target) := do
  let stopped ← calls (adapterCall A.cpuStopped .cpuStopped)
  if stopped then do
    let t ← noteStop A t
    let oscr ← calls getOscr
    return (⟨true, oscr &&& oscrSwo ≠ 0⟩, t)
  else return (⟨false, false⟩, t)

/-- Stop the processor. -/
def targetStop (A : Adapter σ) (t : Target) : Control σ Target :=
  if t.isRunning then do
    calls (adapterCall A.stopCpu fun _ => .stopCpu)
    let t ← saveContext A { t with isRunning := false }
    let cscon3 ← calls (targetReadWord A mcCscon3)
    return { t with cscon3 := cscon3 &&& ~~~mcCscon3Addr 3 }
  else pure t

/-- Let the stopped processor make one step. -/
def targetStep (A : Adapter σ) (t : Target) : Control σ Target :=
  if t.isRunning then pure t
  else do
    restoreContext A t
    stepProgram A
    saveContext A t

/-- Let the stopped processor go. -/
def targetResume (A : Adapter σ) (t : Target) : Control σ Target :=
  if t.isRunning then pure t
  else do
    restoreContext A t
    runProgram A
    return { t with isRunning := true }

/-- Let the stopped processor go from an address. -/
def targetRun (A : Adapter σ) (t : Target) (addr : Word) : Control σ Target :=
  if t.isRunning then pure t
  else do
    restoreContext A { t with exception := addr }
    runProgram A
    return { t with exception := addr, isRunning := true }

/-- Reset the processor. -/
def targetRestart (A : Adapter σ) (t : Target) : Control σ Target := do
  (if t.isRunning then pure () else restoreContext A t)
  emit .reset
  calls (adapterCall A.resetCpu fun _ => .resetCpu)
  return { t with isRunning := true }

/-- Close the device. -/
def targetClose (A : Adapter σ) (t : Target) : Control σ Target := do
  let t ← (if t.isRunning then pure t else targetResume A t)
  calls (adapterCall A.close fun _ => .close)
  return t

/-- An operation on the processor. -/
inductive ControlOp
  | stop
  | step
  | isStopped
  | resume
  | run (addr : Word)
  | restart
  | close
  deriving DecidableEq, Repr

/-- Perform an operation. -/
def ControlOp.perform (A : Adapter σ) (t : Target) : ControlOp → Control σ Target
  | stop => targetStop A t
  | step => targetStep A t
  | isStopped => do
    let r ← targetIsStopped A t
    return r.2
  | resume => targetResume A t
  | run addr => targetRun A t addr
  | restart => targetRestart A t
  | close => targetClose A t

/-- Perform one operation after the other. -/
def performAll (A : Adapter σ) : Target → List ControlOp → Control σ Target
  | t, [] => pure t
  | t, op :: ops => do
    let t ← op.perform A t
    performAll A t ops

/-- The marks where the state is saved or restored. -/
def contexts (tr : List ControlEvent) : List ControlEvent :=
  tr.filter fun e => e = .save ∨ e = .restore

/-- The events that let the stopped program go. -/
def ControlEvent.releases (e : ControlEvent) : Prop := e = .step ∨ e = .run ∨ e = .reset

/-- The state of the program is saved and restored in turn, the first time saved, and the
program is let go only while no state of it is held. -/
structure Orderly (tr : List ControlEvent) (holds : Bool) : Prop where
  alternates : ∀ i e, (contexts tr)[i]? = some e → e = if i % 2 = 0 then .save else .restore
  released : ∀ pre e post, tr = pre ++ e :: post → e.releases → (contexts pre).getLast? ≠ some .save
  last : holds = true ↔ (contexts tr).getLast? = some .save

/-- What is saved and restored in two parts of a run. -/
theorem contexts_append (tr tr' : List ControlEvent) :
    contexts (tr ++ tr') = contexts tr ++ contexts tr' := List.filter_append tr tr'

/-- The split of a history before its last event. -/
theorem released_concat {tr : List ControlEvent} {e : ControlEvent}
    (h : ∀ pre e post, tr = pre ++ e :: post → e.releases → (contexts pre).getLast? ≠ some .save)
    (he : e.releases → (contexts tr).getLast? ≠ some .save) :
    ∀ pre e' post, tr ++ [e] = pre ++ e' :: post → e'.releases →
      (contexts pre).getLast? ≠ some .save := by
  intro pre e' post heq hrel
  rcases List.eq_nil_or_concat post with rfl | ⟨post, e'', rfl⟩
  · obtain ⟨rfl, hlast⟩ := List.append_inj' heq rfl
    obtain rfl := List.singleton_inj.mp hlast
    exact he hrel
  · rw [List.concat_eq_append, ← List.cons_append, ← List.append_assoc] at heq
    obtain ⟨rfl, -⟩ := List.append_inj' heq rfl
    exact h pre e' post rfl hrel

namespace Orderly

variable {tr : List ControlEvent} {holds : Bool}

/-- Before anything happens the context is not held. -/
theorem nil : Orderly [] false where
  alternates i e h := by simp [contexts] at h
  released pre e post h := by simp at h
  last := by simp [contexts]

/-- A state is held exactly after an odd number of marks. -/
theorem odd_iff (h : Orderly tr holds) : holds = true ↔ (contexts tr).length % 2 = 1 := by
  rw [h.last]
  rcases List.eq_nil_or_concat (contexts tr) with hnil | ⟨es, e, hes⟩
  · simp [hnil]
  · rw [List.concat_eq_append] at hes
    have he := h.alternates es.length e (by rw [hes, List.getElem?_concat_length])
    rw [hes, List.getLast?_concat, List.length_append, List.length_singleton, he]
    by_cases hpar : es.length % 2 = 0
    · rw [if_pos hpar]
      exact iff_of_true rfl (by omega)
    · rw [if_neg hpar]
      exact iff_of_false (by simp) (by omega)

/-- An event that is no mark and does not let the program go. -/
theorem call (h : Orderly tr holds) (c : Call) : Orderly (tr ++ [.call c]) holds := by
  have hc : contexts (tr ++ [.call c]) = contexts tr := by
    rw [contexts_append]
    exact List.append_nil _
  constructor
  · rw [hc]
    exact h.alternates
  · exact released_concat h.released fun hrel => by simp [ControlEvent.releases] at hrel
  · rw [hc]
    exact h.last

/-- Calls of the adapter change nothing about the order. -/
theorem calls (h : Orderly tr holds) (cs : List Call) : Orderly (tr ++ cs.map .call) holds := by
  induction cs generalizing tr with
  | nil => rwa [List.map_nil, List.append_nil]
  | cons c cs ih =>
    rw [List.map_cons, List.append_cons]
    exact ih (h.call c)

/-- A mark of the right kind. -/
theorem mark (h : Orderly tr holds) {e : ControlEvent}
    (he : e = if holds then .restore else .save) : Orderly (tr ++ [e]) (!holds) := by
  have hc : contexts (tr ++ [e]) = contexts tr ++ [e] := by
    rw [contexts_append, he]
    cases holds with
    | false => rfl
    | true => rfl
  have hpar := h.odd_iff
  constructor
  · intro i e' hi
    rw [hc] at hi
    rcases Nat.lt_trichotomy i (contexts tr).length with hlt | heq | hgt
    · rw [List.getElem?_append_left hlt] at hi
      exact h.alternates i e' hi
    · rw [heq, List.getElem?_concat_length] at hi
      obtain rfl := Option.some.inj hi
      rw [he, heq]
      cases holds with
      | false =>
        have hodd : ¬ (contexts tr).length % 2 = 1 := fun ho => by simp [ho] at hpar
        rw [if_neg Bool.false_ne_true, if_pos (by omega)]
      | true =>
        have hodd : (contexts tr).length % 2 = 1 := hpar.mp rfl
        rw [if_pos rfl, if_neg (by omega)]
    · rw [List.getElem?_eq_none (by rw [List.length_append, List.length_singleton]; omega)] at hi
      exact absurd hi (by simp)
  · refine released_concat h.released fun hrel => ?_
    rw [he] at hrel
    cases holds with
    | false => simp [ControlEvent.releases] at hrel
    | true => simp [ControlEvent.releases] at hrel
  · rw [hc, List.getLast?_concat, he]
    cases holds with
    | false => simp
    | true => simp

theorem save (h : Orderly tr false) : Orderly (tr ++ [.save]) true := h.mark rfl

theorem restore (h : Orderly tr true) : Orderly (tr ++ [.restore]) false := h.mark rfl

/-- The program is let go while no state is held. -/
theorem release (h : Orderly tr false) {e : ControlEvent} (he : e.releases) :
    Orderly (tr ++ [e]) false := by
  have hc : contexts (tr ++ [e]) = contexts tr := by
    rw [contexts_append]
    rcases he with rfl | rfl | rfl
    · exact List.append_nil _
    · exact List.append_nil _
    · exact List.append_nil _
  have hlast : (contexts tr).getLast? ≠ some .save := fun hl => by simpa using h.last.mpr hl
  constructor
  · rw [hc]
    exact h.alternates
  · exact released_concat h.released fun _ => hlast
  · rw [hc]
    exact h.last

end Orderly

section Operations

variable {A : Adapter σ} {t : Target}

/-- The history is orderly, and a state is held exactly while `holds`. -/
def Held (holds : Bool) : Assertion ControlEvent (Session σ) := fun tr _ => Orderly tr holds

/-- The history is orderly. -/
def SomeOrder : Assertion ControlEvent (Session σ) := fun tr _ => ∃ holds, Orderly tr holds

/-- A program after which a state is held exactly while the target is not running. -/
abbrev KeepsOrder (holds : Bool) (m : Control σ Target) : Prop :=
  Triple (Held holds) m (fun t' => Held (!t'.isRunning)) SomeOrder

/-- Calls of the adapter keep the order. -/
theorem triple_calls {holds : Bool} (m : Action σ α) :
    Triple (Held holds) (calls m) (fun _ => Held holds) SomeOrder :=
  (triple_mapEvents (ensures_true m) fun _ tr' _ _ h => Orderly.calls h tr').conseq
    (fun _ _ h => h) (fun _ _ _ h => h.2) fun _ _ h => ⟨holds, h⟩

/-- An answer changes nothing about the order. -/
theorem triple_held_pure {holds : Bool} {a : α} :
    Triple (Held holds) (pure a : Control σ α) (fun _ => Held holds) SomeOrder :=
  triple_pure fun _ _ h => h

/-- A saved state is held, and saving does not let the processor run. -/
theorem saveContext_triple : Triple (Held false) (saveContext A t)
    (fun t' tr _ => t'.isRunning = t.isRunning ∧ Orderly tr true) SomeOrder := by
  have hmark : Triple (Held false) (emit .save : Control σ Unit) (fun _ => Held true) SomeOrder :=
    triple_emit fun _ _ h => Orderly.save h
  refine hmark.bind fun _ => ?_
  exact (triple_mapEvents (targetSaveState_isRunning A t)
    fun _ tr' _ _ h => Orderly.calls h tr').conseq (fun _ _ h => h) (fun _ _ _ h => h)
    fun _ _ h => ⟨true, h⟩

/-- The context is held before it is restored, and not after. -/
theorem restoreContext_triple :
    Triple (Held true) (restoreContext A t) (fun _ => Held false) SomeOrder := by
  have hmark : Triple (Held true) (emit .restore : Control σ Unit) (fun _ => Held false) SomeOrder :=
    triple_emit fun _ _ h => Orderly.restore h
  exact hmark.bind fun _ => triple_calls _

/-- The program may be let go while no state of it is held. -/
theorem triple_release {e : ControlEvent} (he : e.releases) :
    Triple (Held false) (emit e : Control σ Unit) (fun _ => Held false) SomeOrder :=
  triple_emit fun _ _ h => Orderly.release h he

/-- The program makes a step while the context is not held. -/
theorem stepProgram_triple :
    Triple (Held false) (stepProgram A) (fun _ => Held false) SomeOrder := by
  refine (triple_release (.inl rfl)).bind fun _ => ?_
  cases A.stepCpu with
  | none => exact triple_calls _
  | some stepCpu => exact triple_calls _

/-- The program is started while the context is not held. -/
theorem runProgram_triple :
    Triple (Held false) (runProgram A) (fun _ => Held false) SomeOrder := by
  refine (triple_release (.inr (.inl rfl))).bind fun _ => ?_
  cases A.runCpu with
  | none => exact triple_calls _
  | some runCpu => exact triple_calls _

/-- A saved state is held by a target that does not run. -/
theorem saveContext_keepsOrder (h : t.isRunning = false) : KeepsOrder false (saveContext A t) := by
  refine saveContext_triple.post fun t' tr s hpost => ?_
  rw [Held, hpost.1, h]
  exact hpost.2

/-- What is done to a target that is running, and what to one that is stopped. -/
theorem keepsOrder_ite {m m' : Control σ Target} (hm : t.isRunning = true → KeepsOrder false m)
    (hm' : t.isRunning = false → KeepsOrder true m') :
    KeepsOrder (!t.isRunning) (if t.isRunning then m else m') := by
  cases hrun : t.isRunning with
  | true =>
    rw [if_pos rfl]
    exact hm hrun
  | false =>
    rw [if_neg Bool.false_ne_true]
    exact hm' hrun

/-- An operation that does nothing. -/
theorem keepsOrder_pure {holds : Bool} (h : (!t.isRunning) = holds) :
    KeepsOrder holds (pure t : Control σ Target) :=
  triple_pure fun _ _ hheld => by rwa [Held, h]

/-- `target_stop` saves the context of a processor that runs. -/
theorem targetStop_keepsOrder : KeepsOrder (!t.isRunning) (targetStop A t) := by
  refine keepsOrder_ite (fun _ => ?_) fun hrun => keepsOrder_pure (by rw [hrun]; rfl)
  refine (triple_calls _).bind fun _ => saveContext_triple.bind fun t' => ?_
  refine triple_of_imp fun ht' => (triple_calls _).bind fun cscon3 => triple_pure fun _ _ h => ?_
  rw [Held, ht']
  exact h

/-- `target_step` restores the context and saves it again. -/
theorem targetStep_keepsOrder : KeepsOrder (!t.isRunning) (targetStep A t) :=
  keepsOrder_ite (fun hrun => keepsOrder_pure (by rw [hrun]; rfl)) fun hrun =>
    restoreContext_triple.bind fun _ => stepProgram_triple.bind fun _ => saveContext_keepsOrder hrun

/-- `target_resume` restores the context of a processor that is stopped. -/
theorem targetResume_keepsOrder : KeepsOrder (!t.isRunning) (targetResume A t) :=
  keepsOrder_ite (fun hrun => keepsOrder_pure (by rw [hrun]; rfl)) fun _ =>
    restoreContext_triple.bind fun _ => runProgram_triple.bind fun _ => triple_pure fun _ _ h => h

/-- `target_run` does so, with another address to go on from. -/
theorem targetRun_keepsOrder (addr : Word) : KeepsOrder (!t.isRunning) (targetRun A t addr) :=
  keepsOrder_ite (fun hrun => keepsOrder_pure (by rw [hrun]; rfl)) fun _ =>
    restoreContext_triple.bind fun _ => runProgram_triple.bind fun _ => triple_pure fun _ _ h => h

/-- The context is saved when the processor has stopped by itself. -/
theorem noteStop_keepsOrder : KeepsOrder (!t.isRunning) (noteStop A t) :=
  keepsOrder_ite (fun _ => (triple_calls _).bind fun _ => saveContext_keepsOrder rfl) fun hrun =>
    keepsOrder_pure (by rw [hrun]; rfl)

/-- `target_is_stopped` saves the context at most once. -/
theorem targetIsStopped_keepsOrder : Triple (Held (!t.isRunning)) (targetIsStopped A t)
    (fun r => Held (!r.2.isRunning)) SomeOrder := by
  refine (triple_calls _).bind fun stopped => ?_
  cases stopped with
  | false => exact triple_pure fun _ _ h => h
  | true =>
    exact noteStop_keepsOrder.bind fun t' => (triple_calls _).bind fun oscr => triple_pure fun _ _ h => h

/-- `target_restart` leaves the processor stopped, with its context saved. -/
theorem targetRestart_keepsOrder : KeepsOrder (!t.isRunning) (targetRestart A t) := by
  have hrestore : Triple (Held (!t.isRunning))
      (if t.isRunning then pure () else restoreContext A t) (fun _ => Held false) SomeOrder := by
    cases t.isRunning with
    | true => exact triple_held_pure
    | false => exact restoreContext_triple
  exact hrestore.bind fun _ => (triple_release (.inr (.inr rfl))).bind fun _ =>
    (triple_calls _).bind fun _ => triple_pure fun _ _ h => h

/-- `target_close` restores the context that is held. -/
theorem targetClose_keepsOrder : KeepsOrder (!t.isRunning) (targetClose A t) := by
  have hresume : KeepsOrder (!t.isRunning) (if t.isRunning then pure t else targetResume A t) := by
    refine keepsOrder_ite (fun hrun => keepsOrder_pure (by rw [hrun]; rfl)) fun hrun => ?_
    have hheld := targetResume_keepsOrder (A := A) (t := t)
    rwa [hrun] at hheld
  exact hresume.bind fun t' => (triple_calls _).bind fun _ => triple_pure fun _ _ h => h

/-- An operation keeps the order, and a state is held after it exactly while the target is
not running. -/
theorem perform_keepsOrder (op : ControlOp) : KeepsOrder (!t.isRunning) (op.perform A t) := by
  cases op with
  | stop => exact targetStop_keepsOrder
  | step => exact targetStep_keepsOrder
  | isStopped => exact targetIsStopped_keepsOrder.bind fun r => triple_pure fun _ _ h => h
  | resume => exact targetResume_keepsOrder
  | run addr => exact targetRun_keepsOrder addr
  | restart => exact targetRestart_keepsOrder
  | close => exact targetClose_keepsOrder

/-- Operations in any order, by induction on them. -/
theorem performAll_keepsOrder (ops : List ControlOp) :
    KeepsOrder (!t.isRunning) (performAll A t ops) := by
  induction ops generalizing t with
  | nil => exact triple_pure fun _ _ h => h
  | cons op ops ih => exact (perform_keepsOrder op).bind fun t' => ih

/-- In every run of operations on an opened target the state of the program is saved and
restored in turn, the first time saved, the program is let go only while no state of it is
held, and after each operation the target is not running exactly while one is. -/
theorem performAll_orderly (A : Adapter σ) {t : Target} (h : t.isRunning = true)
    (ops : List ControlOp) (s : Session σ) :
    (∃ holds, Orderly (performAll A t ops s).trace holds) ∧
      ∀ t' tr s', (performAll A t ops).Returns s t' tr s' →
        (t'.isRunning = false ↔ (contexts tr).getLast? = some .save) := by
  have htriple := performAll_keepsOrder (A := A) (t := t) ops
  have hnil : Held (!t.isRunning) ([] : List ControlEvent) s := by
    rw [h]
    exact Orderly.nil
  constructor
  · have hrun := htriple [] s hnil
    cases hres : (performAll A t ops s).result with
    | error e =>
      rw [hres] at hrun
      exact hrun
    | ok t' =>
      rw [hres] at hrun
      exact ⟨_, hrun⟩
  · intro t' tr s' hr
    have hlast := (htriple.returns hnil hr).last
    rw [List.nil_append, Bool.not_eq_true'] at hlast
    exact hlast

end Operations

/-- A target that is stopped, asked and let go. -/
theorem performAll_orderly_scripted :
    (∃ holds, Orderly (performAll (scripted mc12Id 0) { Target.allocated with isRunning := true }
        [.stop, .isStopped, .resume] ⟨0, []⟩).trace holds) ∧
      ∀ t' tr s', (performAll (scripted mc12Id 0) { Target.allocated with isRunning := true }
          [.stop, .isStopped, .resume]).Returns ⟨0, []⟩ t' tr s' →
        (t'.isRunning = false ↔ (contexts tr).getLast? = some .save) :=
  performAll_orderly (scripted mc12Id 0) rfl [.stop, .isStopped, .resume] ⟨0, []⟩

end Mcprog
