import Mcprog.Library.Effects
import Mcprog.Adapter.LptDirection

/-!
# The waits for the adapter on the parallel port

Every wait ends: the clock moves on with each look at it, and after two seconds the program gives up.
So there is an amount of fuel, the same for every caller and every answer of the ports, from which on
the fuel of the loops plays no part.
-/

namespace Mcprog

open Interaction Program

variable {σ α β : Type}

/-- The time in a state is a number of ticks, so many of them a second. No access to a port takes it back,
and a look at the clock takes at least one of them. -/
structure IoPorts.Ticks (io : IoPorts σ) (tick : σ → Nat) (rate : Nat) : Prop where
  rate_pos : 0 < rate
  seconds : ∀ s, (io.time s).1 = tick s / rate
  time : ∀ s, tick s < tick (io.time s).2
  inb : ∀ port s, tick s ≤ tick (io.inb port s).2
  outb : ∀ value port s, tick s ≤ tick (io.outb value port s)

/-- The messages with which the adapter gives up. -/
def lptTimeouts : List String :=
  ["set_ir: timeout\n", Lpt.noDevice, "oncd_io: timeout\n", "Timeout while entering debug mode\n"]

/-- A wait for the adapter took too long. -/
def TimedOut (e : Fatal) : Prop := ∃ text ∈ lptTimeouts, e = .exit 1 text []

/-- The calls for which the adapter has a method. -/
def LptProvides : AdapterCall → Prop
  | .close | .getIdcode | .cpuStopped | .stopCpu | .resetCpu | .oncdWrite _ _ _ | .oncdRead _ _ => True
  | _ => False

namespace Lpt

variable {io : IoPorts σ} {tick : σ → Nat} {rate fuel fuel' : Nat}

/-- A port is read without an end of the program. -/
theorem stopsFor_inb {F : Fatal → Prop} (port : Nat) : StopsFor (inb io port) F :=
  stopsFor_request fun _ _ he => by cases he

/-- A port is written without an end of the program. -/
theorem stopsFor_outb {F : Fatal → Prop} (value : Byte) (port : Nat) : StopsFor (outb io value port) F :=
  stopsFor_request fun _ _ he => by cases he

/-- The direction is turned without an end of the program. -/
theorem stopsFor_directionReverse {F : Fatal → Prop} (reverse : Bool) : StopsFor (directionReverse io reverse) F := by
  unfold directionReverse
  refine stopsFor_read.bind fun s => stopsFor_ite (fun _ => stopsFor_pure) fun _ => ?_
  exact (stopsFor_inb _).bind fun ctrl => (stopsFor_outb _ _).bind fun _ => stopsFor_update

/-- A command is put without an end of the program. -/
theorem stopsFor_putcmd {F : Fatal → Prop} (cmd : Byte) : StopsFor (putcmd io cmd) F := by
  unfold putcmd
  exact (stopsFor_directionReverse _).bind fun _ => stopsFor_outb _ _

/-- One look at the status does not end the program. -/
theorem stopsFor_waitStatus {F : Fatal → Prop} (expected : Byte) : StopsFor (waitStatus io expected) F := by
  unfold waitStatus
  exact (stopsFor_directionReverse _).bind fun _ => (stopsFor_inb _).bind fun status => stopsFor_pure

/-- Bytes are put without an end of the program, by induction on them. -/
theorem stopsFor_outData {F : Fatal → Prop} (bytes : List Byte) : StopsFor (outData io bytes) F := by
  induction bytes with
  | nil => exact stopsFor_pure
  | cons b bytes ih => exact (stopsFor_outb _ _).bind fun _ => ih

/-- Bytes are taken without an end of the program, by induction on their number. -/
theorem stopsFor_inData {F : Fatal → Prop} (n : Nat) : StopsFor (inData io n) F := by
  induction n with
  | zero => exact stopsFor_pure
  | succ n ih => exact (stopsFor_inb _).bind fun b => ih.bind fun bs => stopsFor_pure

/-- The clock is at this tick or later. -/
abbrev Since (tick : σ → Nat) (n : Nat) : Assertion PortEvent (Lpt σ) := fun _ s => n ≤ tick s.machine

/-- The clock goes on while a port is read. -/
theorem since_inb (h : io.Ticks tick rate) (port n : Nat) :
    Triple (Since tick n) (inb io port) (fun _ => Since tick n) (Since tick n) := by
  refine triple_request ?_ fun tr s hs => hs
  intro tr s value s' hs hr
  cases hr
  exact hs.trans (h.inb port s.machine)

/-- The clock goes on while a port is written. -/
theorem since_outb (h : io.Ticks tick rate) (value : Byte) (port n : Nat) :
    Triple (Since tick n) (outb io value port) (fun _ => Since tick n) (Since tick n) := by
  refine triple_request ?_ fun tr s hs => hs
  intro tr s a s' hs hr
  cases hr
  exact hs.trans (h.outb value port s.machine)

/-- The clock goes on while the direction is turned. -/
theorem since_directionReverse (h : io.Ticks tick rate) (reverse : Bool) (n : Nat) :
    Triple (Since tick n) (directionReverse io reverse) (fun _ => Since tick n) (Since tick n) := by
  unfold directionReverse
  refine Triple.bind (M := fun _ => Since tick n) (triple_read fun tr s hs => hs) fun s₀ => ?_
  by_cases hmode : s₀.curMode = some reverse
  · rw [if_pos hmode]
    exact triple_pure fun tr s hs => hs
  · rw [if_neg hmode]
    refine (since_inb h sppControl n).bind fun ctrl => (since_outb h _ sppControl n).bind fun _ => ?_
    exact triple_update fun tr s hs => hs

/-- The clock goes on while the status is looked at. -/
theorem since_waitStatus (h : io.Ticks tick rate) (expected : Byte) (n : Nat) :
    Triple (Since tick n) (waitStatus io expected) (fun _ => Since tick n) (Since tick n) := by
  unfold waitStatus
  refine (since_directionReverse h true n).bind fun _ => ?_
  exact (since_inb h eppAddr n).bind fun status => triple_pure fun tr s hs => hs

/-- The clock does not go back while the state is asked for. -/
theorem waitStatus_later (h : io.Ticks tick rate) {expected : Byte} {s s' : Lpt σ} {reached : Bool} {tr : List PortEvent}
    (hr : (waitStatus io expected).Returns s reached tr s') : tick s.machine ≤ tick s'.machine := by
  have hnow : Since tick (tick s.machine) [] s := le_rfl
  exact (since_waitStatus h expected (tick s.machine)).returns hnow hr

/-- What a look at the clock gives. -/
theorem time_returns (s : Lpt σ) :
    (time io).Returns s (io.time s.machine).1 [.time (io.time s.machine).1] { s with machine := (io.time s.machine).2 } :=
  rfl

/-- Enough fuel for the ticks that are left until the deadline. -/
structure Enough (rate t0 now fuel : Nat) : Prop where
  some : 0 < fuel
  ticks : (t0 + 2) * rate < now + fuel

/-- Fuel that is enough is enough later on, too. -/
theorem Enough.later {t0 now now' fuel : Nat} (h : Enough rate t0 now fuel) (hnow : now ≤ now') :
    Enough rate t0 now' fuel where
  some := h.some
  ticks := h.ticks.trans_le (Nat.add_le_add_right hnow fuel)

/-- While the deadline is not over, there is enough fuel for what comes after a look at the clock. -/
theorem Enough.next {t0 now now' fuel : Nat} (h : Enough rate t0 now (fuel + 1)) (hnow : now < now')
    (hdeadline : now < (t0 + 2) * rate) : Enough rate t0 now' fuel := by
  have hticks := h.ticks
  constructor <;> omega

/-- A second that is not past the deadline is before the tick at which the deadline is over. -/
theorem before_deadline {t0 now : Nat} (hrate : 0 < rate) (h : ¬ now / rate > t0 + 1) : now < (t0 + 2) * rate := by
  have hlt : now / rate < t0 + 2 := by omega
  exact (Nat.div_lt_iff_lt_mul hrate).mp hlt

/-- The state is reached, or the program gives up. -/
theorem pollStatus_stops (h : io.Ticks tick rate) {expected : Byte} {t0 : Nat} {text : String} {e : Fatal}
    (fuel : Nat) (s : Lpt σ) (henough : Enough rate t0 (tick s.machine) fuel)
    (hstop : (pollStatus io expected t0 text fuel s).result = .error e) : e = .exit 1 text [] := by
  induction fuel generalizing s with
  | zero => exact absurd henough.some (lt_irrefl 0)
  | succ fuel ih =>
    unfold pollStatus at hstop
    rcases stops_bind_cases hstop with ⟨hwait, -⟩ | ⟨reached, tr, s₁, hr, hrest, -⟩
    · exact (stopsFor_waitStatus (F := fun e => e = .exit 1 text []) expected s e hwait)
    · have hlater := waitStatus_later h hr
      cases reached with
      | true => cases hrest
      | false =>
        rcases stops_bind_cases hrest with ⟨htime, -⟩ | ⟨now, tr', s₂, hr', hagain, -⟩
        · cases htime
        · obtain ⟨rfl, -, rfl⟩ := (time_returns s₁).unique hr'
          by_cases hnow : (io.time s₁.machine).1 > t0 + 1
          · rw [if_pos hnow] at hagain
            exact (Except.error.inj hagain).symm
          · rw [if_neg hnow] at hagain
            rw [h.seconds] at hnow
            have hnext := (henough.later hlater).next (h.time s₁.machine) (before_deadline h.rate_pos hnow)
            exact ih _ hnext hagain

/-- More than enough fuel changes nothing. -/
theorem pollStatus_fuel (h : io.Ticks tick rate) {expected : Byte} {t0 : Nat} {text : String} (fuel : Nat) (s : Lpt σ)
    (henough : Enough rate t0 (tick s.machine) fuel) (hmore : fuel ≤ fuel') :
    pollStatus io expected t0 text fuel s = pollStatus io expected t0 text fuel' s := by
  induction fuel generalizing fuel' s with
  | zero => exact absurd henough.some (lt_irrefl 0)
  | succ fuel ih =>
    obtain ⟨more, rfl⟩ : ∃ more, fuel' = more + 1 := ⟨fuel' - 1, by omega⟩
    unfold pollStatus
    refine bind_congr_of_returns fun reached tr s₁ hr => ?_
    have hlater := waitStatus_later h hr
    cases reached with
    | true => rfl
    | false =>
      refine bind_congr_of_returns fun now tr' s₂ hr' => ?_
      obtain ⟨rfl, -, rfl⟩ := (time_returns s₁).unique hr'
      by_cases hnow : (io.time s₁.machine).1 > t0 + 1
      · rw [if_pos hnow, if_pos hnow]
      · rw [if_neg hnow, if_neg hnow]
        rw [h.seconds] at hnow
        have hnext := (henough.later hlater).next (h.time s₁.machine) (before_deadline h.rate_pos hnow)
        exact ih _ hnext (Nat.le_of_succ_le_succ hmore)

/-- When a wait begins, the deadline is at most two seconds away. -/
theorem enough_of_rate (h : io.Ticks tick rate) (hfuel : 2 * rate < fuel) (s : σ) :
    Enough rate (io.time s).1 (tick (io.time s).2) fuel := by
  have hsecond : tick s / rate * rate ≤ tick s := Nat.div_mul_le_self _ _
  have hlater := h.time s
  constructor
  · omega
  · rw [h.seconds, Nat.add_mul]
    omega

/-- A wait with enough fuel ends with the status or with the message, and never for the fuel. -/
theorem stopsFor_awaitStatus (h : io.Ticks tick rate) (hfuel : 2 * rate < fuel) (expected : Byte) (text : String) :
    StopsFor (awaitStatus io fuel expected text) fun e => e = .exit 1 text [] := by
  intro s e hstop
  unfold awaitStatus at hstop
  rcases stops_bind_cases hstop with ⟨htime, -⟩ | ⟨t0, tr, s₁, hr, hpoll, -⟩
  · cases htime
  · obtain ⟨rfl, -, rfl⟩ := (time_returns s).unique hr
    exact pollStatus_stops h fuel _ (enough_of_rate h hfuel s.machine) hpoll

/-- A wait that has enough fuel does not depend on it. -/
theorem awaitStatus_fuel (h : io.Ticks tick rate) (hfuel : 2 * rate < fuel) (hmore : fuel ≤ fuel') :
    awaitStatus io fuel = awaitStatus io fuel' := by
  funext expected text s
  unfold awaitStatus
  refine bind_congr_of_returns fun t0 tr s₁ hr => ?_
  obtain ⟨rfl, -, rfl⟩ := (time_returns s).unique hr
  exact pollStatus_fuel h fuel _ (enough_of_rate h hfuel s.machine) hmore

section Fuel

variable (hawait : awaitStatus io fuel = awaitStatus io fuel')

include hawait

/-- Nor does a scan of the instruction register. -/
theorem setIr_fuel : setIr io fuel = setIr io fuel' := by
  funext new
  simp only [setIr, hawait]

/-- Nor does a part of a scan of the data register. -/
theorem shiftDr_fuel : shiftDr io fuel = shiftDr io fuel' := by
  funext len data
  simp only [shiftDr, hawait]

/-- Nor do all parts of it, by induction on what is left. -/
theorem shiftDrAll_fuel : shiftDrAll io fuel = shiftDrAll io fuel' := by
  funext fullLen data
  induction fullLen, data using shiftDrAll.induct with
  | case1 data => rw [shiftDrAll, shiftDrAll, dif_pos rfl, dif_pos rfl]
  | case2 fullLen data hlen len ih =>
    rw [shiftDrAll, shiftDrAll, dif_neg hlen, dif_neg hlen, shiftDr_fuel hawait]
    simp only [ih, len]

/-- Nor does a scan of the data register. -/
theorem setDr_fuel : setDr io fuel = setDr io fuel' := by
  funext data len
  simp only [setDr, hawait, shiftDrAll_fuel hawait]

/-- Nor does an access to a debug register. -/
theorem oncdIo_fuel : oncdIo io fuel = oncdIo io fuel' := by
  funext data len
  simp only [oncdIo, hawait]

/-- Nor do the looks for the debug mode, by induction on them. -/
theorem debugEntered_fuel (tries : Nat) : debugEntered io fuel tries = debugEntered io fuel' tries := by
  induction tries with
  | zero => rfl
  | succ tries ih => simp only [debugEntered, setIr_fuel hawait, ih]

/-- The first of the operations of the adapter: the number of the processor. -/
theorem getIdcode_fuel : getIdcode io fuel = getIdcode io fuel' := by
  simp only [getIdcode, setDr_fuel hawait]

/-- The question whether the processor is stopped. -/
theorem cpuStopped_fuel : cpuStopped io fuel = cpuStopped io fuel' := by
  simp only [cpuStopped, setIr_fuel hawait]

theorem stopCpu_fuel : stopCpu io fuel = stopCpu io fuel' := by
  simp only [stopCpu, setIr_fuel hawait, debugEntered_fuel hawait]

theorem oncdWrite_fuel : oncdWrite io fuel = oncdWrite io fuel' := by
  funext val reg nbits
  simp only [oncdWrite, oncdIo_fuel hawait]

theorem oncdRead_fuel : oncdRead io fuel = oncdRead io fuel' := by
  funext reg nbits
  simp only [oncdRead, oncdIo_fuel hawait]

/-- No operation of the adapter depends on the fuel, as long as it is enough for one wait. -/
theorem call_fuel : call io fuel = call io fuel' := by
  funext c
  cases c with
  | getIdcode => exact getIdcode_fuel hawait
  | cpuStopped => exact cpuStopped_fuel hawait
  | stopCpu => exact stopCpu_fuel hawait
  | oncdWrite val reg nbits => exact congrFun (congrFun (congrFun (oncdWrite_fuel hawait) val) reg) nbits
  | oncdRead reg nbits => exact congrFun (congrFun (oncdRead_fuel hawait) reg) nbits
  | _ => rfl

/-- A whole session does not depend on the fuel. -/
theorem session_fuel (caller : Caller AdapterCall.Reply α) : session io fuel caller = session io fuel' caller := by
  simp only [session, call_fuel hawait]

end Fuel

section Stops

variable (hawait : ∀ expected text, StopsFor (awaitStatus io fuel expected text) fun e => e = .exit 1 text [])

include hawait

/-- A command and a wait, before something else. -/
theorem stopsFor_putcmd_await {cmd expected : Byte} {text : String} {rest : LptAction σ β} (htext : text ∈ lptTimeouts)
    (hrest : StopsFor rest TimedOut) :
    StopsFor (do putcmd io cmd; awaitStatus io fuel expected text; rest) TimedOut := by
  refine (stopsFor_putcmd _).bind fun _ => StopsFor.bind ?_ fun _ => hrest
  intro s e he
  exact ⟨text, htext, hawait expected text s e he⟩

/-- A scan of the instruction register ends for a status that does not come, and for nothing else. -/
theorem stopsFor_setIr (new : Word) : StopsFor (setIr io fuel new) TimedOut := by
  unfold setIr
  refine (stopsFor_putcmd _).bind fun _ => (stopsFor_outData _).bind fun _ => ?_
  refine stopsFor_putcmd_await hawait (by simp [lptTimeouts]) ?_
  exact (stopsFor_putcmd _).bind fun _ => (stopsFor_directionReverse _).bind fun _ => stopsFor_inb _

/-- The same for a part of a scan of the data register. -/
theorem stopsFor_shiftDr (len : Nat) (data : List Byte) : StopsFor (shiftDr io fuel len data) TimedOut := by
  unfold shiftDr
  refine (stopsFor_putcmd _).bind fun _ => (stopsFor_outData _).bind fun _ => ?_
  refine stopsFor_putcmd_await hawait (by simp [lptTimeouts]) ?_
  exact (stopsFor_directionReverse _).bind fun _ => (stopsFor_inData 4).bind fun bytes => stopsFor_pure

/-- The same for all of its parts. -/
theorem stopsFor_shiftDrAll (fullLen : Nat) (data : List Byte) : StopsFor (shiftDrAll io fuel fullLen data) TimedOut := by
  induction fullLen, data using shiftDrAll.induct with
  | case1 data =>
    rw [shiftDrAll, dif_pos rfl]
    exact stopsFor_pure
  | case2 fullLen data hlen len ih =>
    rw [shiftDrAll, dif_neg hlen]
    exact (stopsFor_shiftDr hawait _ data).bind fun bytes => ih.bind fun rest => stopsFor_pure

/-- The same for a scan of the data register. -/
theorem stopsFor_setDr (data : List Byte) (len : Nat) : StopsFor (setDr io fuel data len) TimedOut := by
  unfold setDr
  refine stopsFor_putcmd_await hawait (by simp [lptTimeouts]) ?_
  refine (stopsFor_shiftDrAll hawait len data).bind fun bytes => ?_
  exact stopsFor_putcmd_await hawait (by simp [lptTimeouts]) stopsFor_pure

/-- The same for an access to a debug register. -/
theorem stopsFor_oncdIo (data : List Byte) (len : Nat) : StopsFor (oncdIo io fuel data len) TimedOut := by
  unfold oncdIo
  refine (stopsFor_putcmd _).bind fun _ => (stopsFor_outData _).bind fun _ => ?_
  refine stopsFor_putcmd_await hawait (by simp [lptTimeouts]) ?_
  exact (stopsFor_putcmd _).bind fun _ => (stopsFor_directionReverse _).bind fun _ => stopsFor_inData _

/-- The same for the looks for the debug mode, of which there are only so many. -/
theorem stopsFor_debugEntered (tries : Nat) : StopsFor (debugEntered io fuel tries) TimedOut := by
  induction tries with
  | zero => exact stopsFor_stop ⟨_, by simp [lptTimeouts], rfl⟩
  | succ tries ih =>
    unfold debugEntered
    exact (stopsFor_setIr hawait _).bind fun oldIr => stopsFor_ite (fun _ => stopsFor_pure) fun _ => ih

/-- The same for every operation that the adapter provides. -/
theorem stopsFor_call {c : AdapterCall} (hc : LptProvides c) : StopsFor (call io fuel c) TimedOut := by
  cases c with
  | close => exact stopsFor_pure
  | getIdcode =>
    refine (stopsFor_putcmd _).bind fun _ => (stopsFor_putcmd _).bind fun _ => ?_
    exact (stopsFor_setDr hawait _ 32).bind fun bytes => stopsFor_pure
  | cpuStopped => exact (stopsFor_setIr hawait _).bind fun ir => stopsFor_pure
  | stopCpu => exact (stopsFor_setIr hawait _).bind fun _ => stopsFor_debugEntered hawait 50
  | resetCpu =>
    refine (stopsFor_putcmd _).bind fun _ => (stopsFor_outData _).bind fun _ => ?_
    exact (stopsFor_putcmd _).bind fun _ => stopsFor_outData _
  | oncdWrite val reg nbits => exact (stopsFor_oncdIo hawait _ _).bind fun _ => stopsFor_pure
  | oncdRead reg nbits => exact (stopsFor_oncdIo hawait _ _).bind fun bytes => stopsFor_pure
  | _ => cases hc

end Stops

/-- The same for the opening of the adapter. -/
theorem stopsFor_adapterOpen : StopsFor (adapterOpen io) TimedOut := by
  have hlast (status : Byte) : StopsFor (if status &&& sppStatusNBusy = 0 then pure false
      else do putcmd io mcifStart; pure true) TimedOut :=
    stopsFor_ite (fun _ => stopsFor_pure) fun _ => (stopsFor_putcmd _).bind fun _ => stopsFor_pure
  unfold adapterOpen
  refine (stopsFor_outb _ _).bind fun _ => (stopsFor_inb _).bind fun _ => (stopsFor_outb _ _).bind fun _ => ?_
  refine (stopsFor_outb _ _).bind fun _ => (stopsFor_outb _ _).bind fun _ => (stopsFor_inb _).bind fun status => ?_
  exact stopsFor_ite (fun _ => (stopsFor_outb _ _).bind fun _ => hlast status) fun _ => hlast status

/-- The same for the calls of a caller, by induction on it. -/
theorem stopsFor_perform (hawait : ∀ expected text, StopsFor (awaitStatus io fuel expected text) fun e => e = .exit 1 text [])
    {caller : Caller AdapterCall.Reply α} (hcalls : caller.Makes LptProvides) :
    StopsFor (caller.perform (call io fuel)) TimedOut := by
  induction hcalls with
  | done answer => exact stopsFor_pure
  | call first more ih => exact (stopsFor_call hawait first).bind ih

end Lpt

/-- A run of the adapter does not depend on the fuel of its loops once there are more than two seconds of it,
and stops early only because the adapter has not answered in time. -/
theorem lptSession_ends {io : IoPorts σ} {tick : σ → Nat} {rate : Nat} (h : io.Ticks tick rate)
    {caller : Caller AdapterCall.Reply α} (hcalls : caller.Makes LptProvides) {fuel : Nat} (hfuel : 2 * rate < fuel)
    (s : Lpt σ) : Lpt.session io fuel caller s = Lpt.session io (2 * rate + 1) caller s ∧
      ∀ e, (Lpt.session io fuel caller s).result = .error e → TimedOut e := by
  constructor
  · have hawait := Lpt.awaitStatus_fuel h (Nat.lt_succ_self (2 * rate)) hfuel
    rw [Lpt.session_fuel hawait.symm]
  · have hstops : StopsFor (Lpt.session io fuel caller) TimedOut := by
      unfold Lpt.session
      refine Lpt.stopsFor_adapterOpen.bind fun opened => ?_
      cases opened with
      | false => exact stopsFor_pure
      | true =>
        have hperform := Lpt.stopsFor_perform (Lpt.stopsFor_awaitStatus h hfuel) hcalls
        exact hperform.bind fun answer => stopsFor_pure
    exact hstops s

/-- Ports behind which the adapter is ready for a command and never done with it, with a clock of two ticks a
second. -/
def stuckPorts : IoPorts Nat where
  inb _ s := (0x80, s + 1)
  outb _ _ s := s + 1
  time s := (s / 2, s + 1)

/-- The clock of the example goes on with every look at it. -/
theorem stuckPorts_ticks : stuckPorts.Ticks id 2 where
  rate_pos := by decide
  seconds _ := rfl
  time s := Nat.lt_succ_self s
  inb _ s := Nat.le_succ s
  outb _ _ s := Nat.le_succ s

/-- Ports that never have the status: the session ends with the message, with either amount of fuel. -/
theorem lptSession_ends_stuck : Lpt.session stuckPorts 9 (.call .cpuStopped .done) (Lpt.start 0) =
      Lpt.session stuckPorts 5 (.call .cpuStopped .done) (Lpt.start 0) ∧
    (Lpt.session stuckPorts 9 (.call .cpuStopped .done) (Lpt.start 0)).result =
      .error (.exit 1 "set_ir: timeout\n" []) ∧ TimedOut (.exit 1 "set_ir: timeout\n" []) := by
  have hcalls : (Caller.call .cpuStopped .done : Caller AdapterCall.Reply Bool).Makes LptProvides :=
    .call trivial .done
  obtain ⟨hfuel, hends⟩ := lptSession_ends stuckPorts_ticks hcalls (by decide : 2 * 2 < 9) (Lpt.start 0)
  exact ⟨hfuel, rfl, hends _ rfl⟩

end Mcprog
