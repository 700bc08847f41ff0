import Mcprog.Adapter.Lpt

/-!
# The direction of the parallel port

Whatever the ports answer and whatever the caller asks for, a run writes the EPP registers in the
forward direction only and reads them in the reverse direction only. From the first command to the
adapter on, a write of the control register always turns the port round, and keeps the other bits
that were read just before.
-/

namespace Mcprog

open Interaction Program

/-- What an onlooker knows about the port. -/
structure PortView where
  /-- The direction that was set last. -/
  direction : Option Bool
  /-- The control register, as it was read after the last write. -/
  control : Option Byte
  /-- The adapter was given a command. -/
  inUse : Bool
  deriving DecidableEq, Repr

namespace PortView

open Lpt

/-- The EPP registers. -/
def IsEpp (port : Nat) : Prop := port = eppAddr ∨ port = eppData

instance (port : Nat) : Decidable (IsEpp port) := inferInstanceAs (Decidable (_ ∨ _))

/-- The direction in a value of the control register. -/
def reversed (value : Byte) : Bool := decide (value &&& sppControlDirin ≠ 0)

/-- The values differ in the direction, and in nothing else. -/
def Redirects (control value : Byte) : Prop := value ||| sppControlDirin = control ||| sppControlDirin

instance (control value : Byte) : Decidable (Redirects control value) := inferInstanceAs (Decidable (_ = _))

/-- A write of the control register, and whether it is allowed. -/
def writeControl (v : PortView) (value : Byte) : Option PortView :=
  if v.inUse = true ∧ (v.direction = some (reversed value) ∨ ¬ ∃ c ∈ v.control, Redirects c value) then none
  else some { v with direction := some (reversed value), control := none }

/-- An event, and whether it is allowed. -/
def next (v : PortView) : PortEvent → Option PortView
  | .time _ => some v
  | .inb port value =>
    if IsEpp port then if v.direction = some true then some v else none
    else if port = sppControl then some { v with control := some value }
    else some v
  | .outb value port =>
    if IsEpp port then if v.direction = some false then some { v with inUse := true } else none
    else if port = sppControl then v.writeControl value
    else some v

/-- Nothing is known at first. -/
def first : PortView := ⟨none, none, false⟩

/-- A run of events, while each of them is allowed. -/
def after (tr : List PortEvent) : Option PortView := tr.foldlM next first

theorem after_concat (tr : List PortEvent) (e : PortEvent) : after (tr ++ [e]) = (after tr).bind (·.next e) := by
  simp only [after, List.foldlM_append, List.foldlM_cons, List.foldlM_nil, bind_pure]
  rfl

end PortView

/-- Every event is allowed. -/
def Directed (tr : List PortEvent) : Prop := (PortView.after tr).isSome

instance (tr : List PortEvent) : Decidable (Directed tr) := inferInstanceAs (Decidable (_ = true))

namespace Lpt

variable {σ α : Type} (io : IoPorts σ)

open PortView

/-- Every event was allowed, and the onlooker knows this about the port and about what the module remembers. -/
def Seen (p : PortView → Option Bool → Prop) : Assertion PortEvent (Lpt σ) := fun tr s =>
  ∃ v, after tr = some v ∧ p v s.curMode

/-- Every event was allowed. -/
abbrev Allowed : Assertion PortEvent (Lpt σ) := Seen fun _ _ => True

/-- What the module remembers is so, and it remembers something once the adapter is in use. -/
structure Agrees (v : PortView) (mode : Option Bool) : Prop where
  direction : ∀ d ∈ mode, v.direction = some d
  known : v.inUse = true → mode ≠ none

/-- The port was turned to this direction. -/
structure Faces (reverse : Bool) (v : PortView) (mode : Option Bool) : Prop where
  mode : mode = some reverse
  direction : v.direction = some reverse

/-- The module remembers nothing yet, and the adapter is not in use. -/
structure Untouched (v : PortView) (mode : Option Bool) : Prop where
  mode : mode = none
  inUse : v.inUse = false

variable {p q : PortView → Option Bool → Prop} {reverse : Bool} {v : PortView} {mode : Option Bool}

/-- Where the port faces one way, all that is known of it agrees. -/
theorem Faces.agrees (h : Faces reverse v mode) : Agrees v mode where
  direction := by
    intro d hd
    rw [h.direction, ← h.mode]
    exact hd
  known := by
    intro _
    rw [h.mode]
    exact Option.some_ne_none _

/-- Before the first event all that is known of the port agrees. -/
theorem Untouched.agrees (h : Untouched v mode) : Agrees v mode where
  direction := by
    intro d hd
    rw [h.mode] at hd
    cases hd
  known := by
    intro hu
    rw [h.inUse] at hu
    cases hu

/-- More may be known of the port than is used. -/
theorem Seen.mono {tr : List PortEvent} {s : Lpt σ} (h : Seen p tr s) (hpq : ∀ v mode, p v mode → q v mode) :
    Seen q tr s := by
  obtain ⟨v, hv, hp⟩ := h
  exact ⟨v, hv, hpq v _ hp⟩

/-- Where something is known of the port, every event was allowed. -/
theorem Seen.allowed {tr : List PortEvent} {s : Lpt σ} (h : Seen p tr s) : Allowed tr s := h.mono fun _ _ _ => trivial

/-- An allowed event adds to what the onlooker knows. -/
theorem Seen.next {tr : List PortEvent} {s s' : Lpt σ} {e : PortEvent} (h : Seen p tr s)
    (hmode : s'.curMode = s.curMode) (he : ∀ v mode, p v mode → ∃ v', v.next e = some v' ∧ q v' mode) :
    Seen q (tr ++ [e]) s' := by
  obtain ⟨v, hv, hp⟩ := h
  obtain ⟨v', hnext, hq⟩ := he v _ hp
  refine ⟨v', ?_, ?_⟩
  · rw [after_concat, hv]
    exact hnext
  · rw [hmode]
    exact hq

theorem triple_answer {β : Type} {a : β} {E : Assertion PortEvent (Lpt σ)} :
    Triple (Seen p) (pure a : LptAction σ β) (fun _ => Seen p) E :=
  triple_pure fun _ _ hs => hs

/-- An end of the program touches no port. -/
theorem triple_giveUp {β : Type} {e : Fatal} {Q : β → Assertion PortEvent (Lpt σ)} :
    Triple (Seen p) (stop e : LptAction σ β) Q Allowed :=
  triple_stop fun _ _ hs => hs.allowed

/-- A port that is read, with what it tells of the direction. -/
theorem triple_inb {port : Nat} {q : Byte → PortView → Option Bool → Prop}
    (h : ∀ value v mode, p v mode → ∃ v', v.next (.inb port value) = some v' ∧ q value v' mode) :
    Triple (Seen p) (inb io port) (fun value => Seen (q value)) Allowed := by
  refine triple_request ?_ fun tr s hs => hs.allowed
  intro tr s value s' hs hr
  cases hr
  exact hs.next rfl (h _)

/-- A port that is written, with what it does to the direction. -/
theorem triple_outb {value : Byte} {port : Nat}
    (h : ∀ v mode, p v mode → ∃ v', v.next (.outb value port) = some v' ∧ q v' mode) :
    Triple (Seen p) (outb io value port) (fun _ => Seen q) Allowed := by
  refine triple_request ?_ fun tr s hs => hs.allowed
  intro tr s a s' hs hr
  cases hr
  exact hs.next rfl h

theorem triple_time : Triple (Seen p) (time io) (fun _ => Seen p) Allowed := by
  refine triple_request ?_ fun tr s hs => hs.allowed
  intro tr s seconds s' hs hr
  cases hr
  exact hs.next rfl fun v mode hp => ⟨v, rfl, hp⟩

/-- A read of an EPP register. -/
theorem triple_inb_epp {port : Nat} (hport : IsEpp port) :
    Triple (Seen (Faces true)) (inb io port) (fun _ => Seen (Faces true)) Allowed := by
  refine triple_inb io fun value v mode hv => ⟨v, ?_, hv⟩
  rw [PortView.next, if_pos hport, if_pos hv.direction]

/-- A write of an EPP register. -/
theorem triple_outb_epp {value : Byte} {port : Nat} (hport : IsEpp port) :
    Triple (Seen (Faces false)) (outb io value port) (fun _ => Seen (Faces false)) Allowed := by
  refine triple_outb io fun v mode hv => ⟨{ v with inUse := true }, ?_, hv.mode, hv.direction⟩
  rw [PortView.next, if_pos hport, if_pos hv.direction]

/-- A port that is neither the control register nor one of EPP tells nothing. -/
theorem next_outb_other {value : Byte} {port : Nat} (hport : ¬ IsEpp port) (hctrl : port ≠ sppControl) (v : PortView) :
    v.next (.outb value port) = some v := by
  rw [PortView.next, if_neg hport, if_neg hctrl]

/-- A port that is neither for data nor for control may be read at any time. -/
theorem next_inb_other {value : Byte} {port : Nat} (hport : ¬ IsEpp port) (hctrl : port ≠ sppControl) (v : PortView) :
    v.next (.inb port value) = some v := by
  rw [PortView.next, if_neg hport, if_neg hctrl]

/-- The value that `direction_reverse` writes. -/
def turned (reverse : Bool) (ctrl : Byte) : Byte :=
  if reverse then ctrl ||| sppControlDirin else ctrl &&& ~~~sppControlDirin

/-- The bit for the direction is as it was asked for. -/
theorem reversed_turned (reverse : Bool) (ctrl : Byte) : reversed (turned reverse ctrl) = reverse := by
  cases reverse
  · have h : ctrl &&& ~~~sppControlDirin &&& sppControlDirin = 0 := by
      rw [BitVec.and_assoc]
      simp
    simp [reversed, turned, h]
  · have h : (ctrl ||| sppControlDirin) &&& sppControlDirin = sppControlDirin := by
      ext i hi
      rw [BitVec.getElem_and, BitVec.getElem_or]
      cases ctrl[i] <;> cases sppControlDirin[i] <;> rfl
    rw [reversed, turned, if_pos rfl, h]
    rfl

theorem redirects_turned (reverse : Bool) (ctrl : Byte) : Redirects ctrl (turned reverse ctrl) := by
  unfold Redirects turned
  cases reverse
  · ext i hi
    simp only [Bool.false_eq_true, if_false, BitVec.getElem_or, BitVec.getElem_and, BitVec.getElem_not]
    cases ctrl[i] <;> cases sppControlDirin[i] <;> rfl
  · rw [if_pos rfl, BitVec.or_assoc, BitVec.or_self]

/-- A port that faces the other way, or one that is not in use yet, may be turned. -/
theorem writeControl_turned {ctrl : Byte} (hv : Agrees v mode) (hmode : mode ≠ some reverse) (hctrl : v.control = some ctrl) :
    v.writeControl (turned reverse ctrl) = some { v with direction := some reverse, control := none } := by
  rw [writeControl, reversed_turned, if_neg]
  rintro ⟨hu, hdir | hnone⟩
  · obtain ⟨d, hd⟩ := Option.ne_none_iff_exists'.mp (hv.known hu)
    rw [hv.direction d hd] at hdir
    exact hmode (hd.trans hdir)
  · exact hnone ⟨ctrl, hctrl, redirects_turned reverse ctrl⟩

/-- Afterwards the port faces the wanted way. -/
theorem triple_directionReverse (reverse : Bool) :
    Triple (Seen Agrees) (directionReverse io reverse) (fun _ => Seen (Faces reverse)) Allowed := by
  unfold directionReverse
  refine Triple.bind (M := fun s₀ : Lpt σ => Seen fun v mode => Agrees v mode ∧ mode = s₀.curMode) ?_ fun s₀ => ?_
  · exact triple_read fun tr s ⟨v, hv, hagrees⟩ => ⟨v, hv, hagrees, rfl⟩
  · by_cases hmode : s₀.curMode = some reverse
    · rw [if_pos hmode]
      refine triple_pure fun tr s hs => hs.mono fun v mode hv => ?_
      have hknown : mode = some reverse := hv.2.trans hmode
      exact ⟨hknown, hv.1.direction reverse hknown⟩
    · rw [if_neg hmode]
      refine Triple.bind (triple_inb io (q := fun ctrl v mode =>
        Agrees v mode ∧ mode ≠ some reverse ∧ v.control = some ctrl) ?_) fun ctrl => ?_
      · rintro ctrl v mode ⟨hv, rfl⟩
        exact ⟨{ v with control := some ctrl }, rfl, ⟨hv.direction, hv.known⟩, hmode, rfl⟩
      · refine Triple.bind (triple_outb io (q := fun v _ => v.direction = some reverse) ?_) fun _ => ?_
        · rintro v mode ⟨hv, hother, hctrl⟩
          exact ⟨_, writeControl_turned hv hother hctrl, rfl⟩
        · exact triple_update fun tr s ⟨v, hv, hdir⟩ => ⟨v, hv, rfl, hdir⟩

/-- From a port that faces one way, what needs only that the module knows the direction. -/
theorem Seen.agrees {tr : List PortEvent} {s : Lpt σ} (h : Seen (Faces reverse) tr s) : Seen Agrees tr s :=
  h.mono fun _ _ hv => hv.agrees

/-- The port faces the adapter when a command is put. -/
theorem triple_putcmd (cmd : Byte) :
    Triple (Seen Agrees) (putcmd io cmd) (fun _ => Seen (Faces false)) Allowed := by
  unfold putcmd
  exact (triple_directionReverse io false).bind fun _ => triple_outb_epp io (.inl rfl)

/-- The port faces the host when the status is read. -/
theorem triple_waitStatus (expected : Byte) :
    Triple (Seen Agrees) (waitStatus io expected) (fun _ => Seen (Faces true)) Allowed := by
  unfold waitStatus
  refine (triple_directionReverse io true).bind fun _ => ?_
  exact (triple_inb_epp io (.inl rfl)).bind fun status => triple_answer

/-- However often the state is asked for. -/
theorem triple_pollStatus (expected : Byte) (t0 : Nat) (text : String) (fuel : Nat) :
    Triple (Seen Agrees) (pollStatus io expected t0 text fuel) (fun _ => Seen Agrees) Allowed := by
  induction fuel with
  | zero => exact triple_giveUp
  | succ fuel ih =>
    unfold pollStatus
    refine (triple_waitStatus io expected).bind fun reached => ?_
    cases reached with
    | true => exact triple_pure fun tr s hs => hs.agrees
    | false =>
      refine (triple_time io).bind fun now => ?_
      by_cases hnow : now > t0 + 1
      · rw [if_pos hnow]
        exact triple_giveUp
      · rw [if_neg hnow]
        exact ih.pre fun tr s hs => hs.agrees

/-- The looks at the status, by induction on the fuel. -/
theorem triple_awaitStatus (fuel : Nat) (expected : Byte) (text : String) :
    Triple (Seen Agrees) (awaitStatus io fuel expected text) (fun _ => Seen Agrees) Allowed := by
  unfold awaitStatus
  exact (triple_time io).bind fun t0 => triple_pollStatus io expected t0 text fuel

/-- A command, and then the wait for a state. -/
theorem triple_putcmd_await {β : Type} {cmd expected : Byte} {fuel : Nat} {text : String} {rest : LptAction σ β}
    {R : β → Assertion PortEvent (Lpt σ)} (hrest : Triple (Seen Agrees) rest R Allowed) :
    Triple (Seen Agrees) (do putcmd io cmd; awaitStatus io fuel expected text; rest) R Allowed :=
  (triple_putcmd io cmd).bind fun _ =>
    ((triple_awaitStatus io fuel expected text).pre fun _ _ hs => hs.agrees).bind fun _ => hrest

/-- Bytes are put while the port faces the adapter, by induction on them. -/
theorem triple_outData (bytes : List Byte) :
    Triple (Seen (Faces false)) (outData io bytes) (fun _ => Seen (Faces false)) Allowed := by
  induction bytes with
  | nil => exact triple_answer
  | cons b bytes ih =>
    unfold outData
    exact (triple_outb_epp io (.inr rfl)).bind fun _ => ih

/-- Bytes are taken while the port faces the host, by induction on their number. -/
theorem triple_inData (n : Nat) :
    Triple (Seen (Faces true)) (inData io n) (fun _ => Seen (Faces true)) Allowed := by
  induction n with
  | zero => exact triple_answer
  | succ n ih =>
    unfold inData
    refine (triple_inb_epp io (.inr rfl)).bind fun b => ?_
    exact ih.bind fun bs => triple_answer

/-- A command with data for the adapter. -/
theorem triple_send {β : Type} {cmd : Byte} {bytes : List Byte} {rest : LptAction σ β}
    {R : β → Assertion PortEvent (Lpt σ)} (hrest : Triple (Seen Agrees) rest R Allowed) :
    Triple (Seen Agrees) (do putcmd io cmd; outData io bytes; rest) R Allowed :=
  (triple_putcmd io cmd).bind fun _ =>
    ((triple_outData io bytes).post fun _ _ _ hs => hs.agrees).bind fun _ => hrest

/-- A scan of the instruction register turns the port as it needs it. -/
theorem triple_setIr (fuel : Nat) (new : Word) :
    Triple (Seen Agrees) (setIr io fuel new) (fun _ => Seen Agrees) Allowed := by
  unfold setIr
  refine triple_send io (triple_putcmd_await io ?_)
  refine (triple_putcmd io mcifPreread).bind fun _ => ?_
  refine ((triple_directionReverse io true).pre fun tr s hs => hs.agrees).bind fun _ => ?_
  exact (triple_inb_epp io (.inr rfl)).post fun _ tr s hs => hs.agrees

/-- A part of a scan: the bytes go out before those that come in. -/
theorem triple_shiftDr (fuel len : Nat) (data : List Byte) :
    Triple (Seen Agrees) (shiftDr io fuel len data) (fun _ => Seen Agrees) Allowed := by
  unfold shiftDr
  refine triple_send io (triple_putcmd_await io ?_)
  refine (triple_directionReverse io true).bind fun _ => ?_
  exact (triple_inData io 4).bind fun bytes => triple_pure fun tr s hs => hs.agrees

/-- All parts of a scan, by induction on what is left. -/
theorem triple_shiftDrAll (fuel fullLen : Nat) (data : List Byte) :
    Triple (Seen Agrees) (shiftDrAll io fuel fullLen data) (fun _ => Seen Agrees) Allowed := by
  induction fullLen, data using shiftDrAll.induct with
  | case1 data =>
    rw [shiftDrAll, dif_pos rfl]
    exact triple_answer
  | case2 fullLen data hlen len ih =>
    rw [shiftDrAll, dif_neg hlen]
    refine (triple_shiftDr io fuel _ data).bind fun bytes => ?_
    exact ih.bind fun rest => triple_answer

theorem triple_setDr (fuel : Nat) (data : List Byte) (len : Nat) :
    Triple (Seen Agrees) (setDr io fuel data len) (fun _ => Seen Agrees) Allowed := by
  unfold setDr
  refine triple_putcmd_await io ?_
  refine (triple_shiftDrAll io fuel len data).bind fun bytes => ?_
  exact triple_putcmd_await io (triple_answer)

theorem triple_oncdIo (fuel : Nat) (data : List Byte) (len : Nat) :
    Triple (Seen Agrees) (oncdIo io fuel data len) (fun _ => Seen Agrees) Allowed := by
  unfold oncdIo
  refine triple_send io (triple_putcmd_await io ?_)
  refine (triple_putcmd io mcifPreread).bind fun _ => ?_
  refine ((triple_directionReverse io true).pre fun tr s hs => hs.agrees).bind fun _ => ?_
  exact (triple_inData io _).post fun _ tr s hs => hs.agrees

/-- The looks for the debug mode, by induction on them. -/
theorem triple_debugEntered (fuel tries : Nat) :
    Triple (Seen Agrees) (debugEntered io fuel tries) (fun _ => Seen Agrees) Allowed := by
  induction tries with
  | zero => exact triple_giveUp
  | succ tries ih =>
    unfold debugEntered
    refine (triple_setIr io fuel tapDebugEnable).bind fun oldIr => ?_
    by_cases hir : oldIr &&& 4 ≠ 0
    · rw [if_pos hir]
      exact triple_answer
    · rw [if_neg hir]
      exact ih

/-- Every operation of the adapter turns the port as it needs it. -/
theorem triple_call (fuel : Nat) (c : AdapterCall) :
    Triple (Seen Agrees) (call io fuel c) (fun _ => Seen Agrees) Allowed := by
  cases c with
  | close => exact triple_answer
  | getIdcode =>
    refine (triple_putcmd io mcifFinish).bind fun _ => ?_
    refine ((triple_putcmd io mcifStart).pre fun tr s hs => hs.agrees).bind fun _ => ?_
    refine ((triple_setDr io fuel _ 32).pre fun tr s hs => hs.agrees).bind fun bytes => ?_
    exact triple_answer
  | cpuStopped => exact (triple_setIr io fuel tapDebugEnable).bind fun ir => triple_answer
  | stopCpu => exact (triple_setIr io fuel tapDebugRequest).bind fun _ => triple_debugEntered io fuel 50
  | resetCpu =>
    refine triple_send io ((triple_putcmd io mcifReset).bind fun _ => ?_)
    exact (triple_outData io [0xff]).post fun _ tr s hs => hs.agrees
  | oncdWrite val reg nbits => exact (triple_oncdIo io fuel _ _).bind fun _ => triple_answer
  | oncdRead reg nbits => exact (triple_oncdIo io fuel _ _).bind fun bytes => triple_answer
  | stepCpu => exact triple_giveUp
  | runCpu => exact triple_giveUp
  | readBlock _ _ => exact triple_giveUp
  | writeBlock _ _ => exact triple_giveUp
  | writeNwords _ => exact triple_giveUp
  | programBlock32 _ => exact triple_giveUp
  | programBlock32Unprotect _ => exact triple_giveUp
  | programBlock32Protect _ => exact triple_giveUp
  | programBlock64 _ => exact triple_giveUp
  | programBlock32Micron _ _ => exact triple_giveUp

/-- Until the adapter is in use, the control register may be written. -/
theorem triple_outb_control (value : Byte) :
    Triple (Seen Untouched) (outb io value sppControl) (fun _ => Seen Untouched) Allowed := by
  refine triple_outb io fun v mode hv => ⟨{ v with direction := some (reversed value), control := none }, ?_, hv.mode, hv.inUse⟩
  rw [PortView.next, if_neg (by decide), if_pos rfl, writeControl, if_neg]
  rintro ⟨hu, -⟩
  rw [hv.inUse] at hu
  cases hu

/-- A port that is neither for data nor for control may be written at any time. -/
theorem triple_outb_other {value : Byte} {port : Nat} (hport : ¬ IsEpp port) (hctrl : port ≠ sppControl) :
    Triple (Seen p) (outb io value port) (fun _ => Seen p) Allowed :=
  triple_outb io fun v _ hv => ⟨v, next_outb_other hport hctrl v, hv⟩

/-- The same for one that is read. -/
theorem triple_inb_other {port : Nat} (hport : ¬ IsEpp port) (hctrl : port ≠ sppControl) :
    Triple (Seen p) (inb io port) (fun _ => Seen p) Allowed :=
  triple_inb io fun _ v _ hv => ⟨v, next_inb_other hport hctrl v, hv⟩

/-- The end of `adapter_open_lpt`: the first command to the adapter, if there is one. -/
theorem triple_firstCommand (status : Byte) :
    Triple (Seen Untouched) (if status &&& sppStatusNBusy = 0 then pure false
      else do putcmd io mcifStart; pure true) (fun _ => Seen Agrees) Allowed := by
  by_cases hbusy : status &&& sppStatusNBusy = 0
  · rw [if_pos hbusy]
    exact triple_pure fun tr s hs => hs.mono fun _ _ hv => hv.agrees
  · rw [if_neg hbusy]
    refine ((triple_putcmd io mcifStart).pre fun tr s hs => hs.mono fun _ _ hv => hv.agrees).bind fun _ => ?_
    exact triple_pure fun tr s hs => hs.agrees

/-- The adapter is opened from whatever state the port is in. -/
theorem triple_adapterOpen : Triple (Seen Untouched) (adapterOpen io) (fun _ => Seen Agrees) Allowed := by
  unfold adapterOpen
  refine (triple_outb_other io (by decide) (by decide)).bind fun _ => ?_
  refine Triple.bind (triple_inb io (q := fun _ => Untouched) ?_) fun _ => ?_
  · intro ctrl v mode hv
    exact ⟨{ v with control := some ctrl }, rfl, hv.mode, hv.inUse⟩
  · refine (triple_outb_control io _).bind fun _ => (triple_outb_control io _).bind fun _ => ?_
    refine (triple_outb_control io _).bind fun _ => ?_
    refine (triple_inb_other io (by decide) (by decide)).bind fun status => ?_
    by_cases htmout : status &&& eppStatusTmout ≠ 0
    · rw [if_pos htmout]
      exact (triple_outb_other io (by decide) (by decide)).bind fun _ => triple_firstCommand io status
    · rw [if_neg htmout]
      exact triple_firstCommand io status

/-- A whole session, by induction on the caller. -/
theorem triple_session (fuel : Nat) (caller : Caller AdapterCall.Reply α) :
    Triple (Seen Untouched) (session io fuel caller) (fun _ => Seen Agrees) Allowed := by
  unfold session
  refine (triple_adapterOpen io).bind fun opened => ?_
  cases opened with
  | false => exact triple_answer
  | true => exact (Caller.triple_perform (triple_call io fuel) caller).bind fun answer => triple_answer

end Lpt

/-- In every run of the adapter, each access to the ports respects the direction of the port, and once
the adapter is in use no direction is set twice in a row. -/
theorem lptSession_directed {σ α : Type} (io : IoPorts σ) (fuel : Nat) (caller : Caller AdapterCall.Reply α)
    (machine : σ) : Directed ((Lpt.session io fuel caller) (Lpt.start machine)).trace := by
  have hfirst : Lpt.Seen Lpt.Untouched [] (Lpt.start machine) := ⟨PortView.first, rfl, rfl, rfl⟩
  have hrun := Lpt.triple_session io fuel caller [] (Lpt.start machine) hfirst
  cases hres : (Lpt.session io fuel caller (Lpt.start machine)).result with
  | ok answer =>
    rw [hres] at hrun
    obtain ⟨v, hv, -⟩ := hrun
    exact Option.isSome_of_eq_some hv
  | error e =>
    rw [hres] at hrun
    obtain ⟨v, hv, -⟩ := hrun
    exact Option.isSome_of_eq_some hv

end Mcprog
