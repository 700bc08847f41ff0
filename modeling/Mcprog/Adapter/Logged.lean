import Mcprog.Adapter.Ft2232

/-!
# Devices that log their calls

From outside an extended method of the FT2232 adapter is one call. The calls of the mandatory
methods that it is made of are seen in the log of the device.
-/

namespace Mcprog

open Interaction Program

variable {σ α β : Type}

/-- A device with the calls that it answered. -/
structure Logged (σ : Type) where
  device : σ
  log : List Call

/-- A method whose calls are logged. -/
def Method.logged (f : Method σ α) (event : α → Call) : Method (Logged σ) α := fun d =>
  match f d.device with
  | .ok (a, device) => .ok (a, ⟨device, d.log ++ [event a]⟩)
  | .error e => .error e

/-- The mandatory methods of an adapter, logged. -/
def Adapter.logged (D : Adapter σ) : Adapter (Logged σ) where
  close := D.close.logged fun _ => .close
  getIdcode := D.getIdcode.logged .getIdcode
  cpuStopped := D.cpuStopped.logged .cpuStopped
  stopCpu := D.stopCpu.logged fun _ => .stopCpu
  resetCpu := D.resetCpu.logged fun _ => .resetCpu
  oncdWrite val reg nbits := (D.oncdWrite val reg nbits).logged fun _ => .oncdWrite val reg nbits
  oncdRead reg nbits := (D.oncdRead reg nbits).logged (.oncdRead reg nbits)
  blockWords := 0
  programBlockWords := 0
  stepCpu := none
  runCpu := none
  readBlock := none
  writeBlock := none
  writeNwords := none
  programBlock32 := none
  programBlock32Unprotect := none
  programBlock32Protect := none
  programBlock64 := none
  programBlock32Micron := none
  blockWords_pos h := by simp at h
  programBlockWords_pos h := by simp at h
  unprotect_of_protect h := by simp at h

/-- Every run of `m` that answers logs exactly the calls it issues. -/
def KeepsLog (m : Action (Logged σ) α) : Prop :=
  ∀ s a tr s', m.Returns s a tr s' → s'.device.log = s.device.log ++ tr

section KeepsLog

variable {D : Adapter σ} {m : Action (Logged σ) α}

theorem keepsLog_pure {a : α} : KeepsLog (pure a : Action (Logged σ) α) := by
  intro s b tr s' h
  obtain ⟨-, rfl, rfl⟩ := returns_pure_iff.mp h
  exact (List.append_nil _).symm

theorem KeepsLog.bind {f : α → Action (Logged σ) β} (hm : KeepsLog m) (hf : ∀ a, KeepsLog (f a)) :
    KeepsLog (m >>= f) := by
  intro s b tr s' h
  obtain ⟨a, tr₁, s₁, tr₂, h₁, h₂, rfl⟩ := returns_bind_iff.mp h
  rw [hf a _ _ _ _ h₂, hm _ _ _ _ h₁, List.append_assoc]

/-- The variable of the session is not the memory. -/
theorem keepsLog_getOscr : KeepsLog (getOscr : Action (Logged σ) Word) := by
  refine KeepsLog.bind ?_ fun _ => keepsLog_pure
  intro s a tr s' h
  obtain ⟨-, rfl, rfl⟩ := returns_read_iff.mp h
  exact (List.append_nil _).symm

/-- Nor is it when it is set. -/
theorem keepsLog_setOscr (oscr : Word) : KeepsLog (setOscr oscr : Action (Logged σ) Unit) := by
  intro s a tr s' h
  obtain ⟨rfl, rfl⟩ := returns_update_iff.mp h
  exact (List.append_nil _).symm

/-- A call of a logged method. -/
theorem keepsLog_request {f : Method σ α} {event : α → Call} :
    KeepsLog (Program.request (f.logged event).lift event) := by
  intro s a tr s' h
  obtain ⟨hs, rfl⟩ := returns_request_iff.mp h
  obtain ⟨hd, -⟩ := Method.lift_ok hs
  rw [Method.logged] at hd
  cases hf : f s.device.device with
  | error e =>
    rw [hf] at hd
    exact absurd hd (by simp)
  | ok r =>
    rw [hf] at hd
    obtain ⟨rfl, hdev⟩ := Prod.mk.inj (Except.ok.inj hd)
    rw [← hdev]

/-- The debug registers by themselves put nothing into the log. -/
theorem keepsLog_oncdWrite (val : Word) (reg nbits : Nat) :
    KeepsLog (oncdWrite D.logged val reg nbits) := keepsLog_request

/-- The control register is changed without a store. -/
theorem keepsLog_allowMemory (f : Word → Word) : KeepsLog (allowMemory D.logged f) := by
  refine keepsLog_getOscr.bind fun oscr => ?_
  split
  · exact (keepsLog_setOscr _).bind fun _ => keepsLog_oncdWrite _ _ _
  · exact keepsLog_pure

/-- The words of the FT2232 adapter go through the debug registers. -/
theorem keepsLog_mpsseWords (args : List (Word × Word)) : KeepsLog (mpsseWords D.logged args) := by
  induction args with
  | nil => exact keepsLog_pure
  | cons a args ih =>
    exact (keepsLog_oncdWrite _ _ _).bind fun _ => (keepsLog_oncdWrite _ _ _).bind fun _ =>
      (keepsLog_oncdWrite _ _ _).bind fun _ => ih

/-- So do the words that it programs. -/
theorem keepsLog_mpsseProgramBlock32 (args : ProgramArgs) :
    KeepsLog (mpsseProgramBlock32 D.logged args) :=
  (keepsLog_allowMemory _).bind fun _ => keepsLog_mpsseWords _

end KeepsLog

/-- Every run of `m` that answers logs exactly these stores. -/
def LogStores (m : Action (Logged σ) Unit) (args : List (Word × Word)) : Prop :=
  ∀ s u tr s', m.Returns s u tr s' →
    ∃ calls, s'.device.log = s.device.log ++ calls ∧ bus.Shows calls (stores args)

section LogStores

variable {m m' : Action (Logged σ) Unit} {args args' : List (Word × Word)}

theorem logStores_pure : LogStores (pure () : Action (Logged σ) Unit) [] := by
  intro s u tr s' h
  obtain ⟨-, -, rfl⟩ := returns_pure_iff.mp h
  exact ⟨[], (List.append_nil _).symm, Observer.Shows.nil⟩

/-- After an end nothing is said of the log. -/
theorem logStores_stop {e : Fatal} : LogStores (stop e : Action (Logged σ) Unit) args :=
  fun _ _ _ _ h => absurd h not_returns_stop

/-- The stores of two parts, one after the other. -/
theorem LogStores.seq (h : LogStores m args) (h' : LogStores m' args') :
    LogStores (do m; m') (args ++ args') := by
  intro s u tr s' hr
  obtain ⟨_, tr₁, s₁, tr₂, h₁, h₂, rfl⟩ := returns_bind_iff.mp hr
  obtain ⟨calls, hlog, hshows⟩ := h _ _ _ _ h₁
  obtain ⟨calls', hlog', hshows'⟩ := h' _ _ _ _ h₂
  refine ⟨calls ++ calls', ?_, ?_⟩
  · rw [hlog', hlog, List.append_assoc]
  · rw [stores_append]
    exact hshows.append hshows'

/-- A method logs the stores of the program that it is. -/
theorem logStores_method {event : Unit → Call} (hm : Stores m args) (hlog : KeepsLog m) :
    LogStores (extension (method m) event) args := by
  intro s u tr s' h
  obtain ⟨hs, -⟩ := returns_request_iff.mp h
  rw [method] at hs
  cases hr : (m s).result with
  | error e =>
    rw [hr] at hs
    exact absurd hs (by simp)
  | ok v =>
    rw [hr] at hs
    obtain ⟨-, rfl⟩ := Prod.mk.inj (Except.ok.inj hs)
    have hret : m.Returns s v (m s).trace (m s).state := by
      rw [Returns, ← hr]
    obtain ⟨obs, hobs, rfl⟩ := hm _ _ _ _ hret
    exact ⟨(m s).trace, hlog _ _ _ _ hret, hobs⟩

end LogStores

end Mcprog
