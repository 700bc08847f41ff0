import Mcprog.Library.Effects
import Mcprog.Library.Observer
import Mcprog.Remote.Handlers
import Mcprog.Remote.HexFields

/-!
# Letting the target go

What a debugger asks for with a packet that lets the target go, and what the processor is made to do.
The first stages of the pipeline are followed through the calls of the adapter, so that it is seen where
the program is when it is let go.
-/

namespace Mcprog

open Interaction Program

variable {σ α : Type}

/-- Let the target go: for one step or freely, from an address or from where it is. -/
structure Resume where
  step : Bool
  addr : Option Nat
  deriving DecidableEq, Repr

/-- The letter of a packet that lets the target go, without a signal or with one. -/
def resumeLetter : Bool → Bool → Byte
  | false, false => ascii 'c'
  | true, false => ascii 's'
  | false, true => ascii 'C'
  | true, true => ascii 'S'

/-- What a packet asks for: `c` and `s` with an address or without, and `C` and `S` with a signal and
with an address behind a semicolon or without. A signal in front of an address may be empty. -/
inductive Asks : List Byte → Resume → Prop
  | current (step : Bool) : Asks [resumeLetter step false] ⟨step, none⟩
  | address (step : Bool) {addr : List Byte} (haddr : HexField 16 addr) (hne : addr ≠ []) :
    Asks (resumeLetter step false :: addr) ⟨step, some (hexValue addr)⟩
  | signal (step : Bool) {sig : List Byte} (hsig : HexField 8 sig) (hne : sig ≠ []) :
    Asks (resumeLetter step true :: sig) ⟨step, none⟩
  | signalAddress (step : Bool) {sig addr : List Byte} (hsig : HexField 8 sig) (haddr : HexField 16 addr)
    (hne : addr ≠ []) :
    Asks (resumeLetter step true :: (sig ++ ascii ';' :: addr)) ⟨step, some (hexValue addr)⟩

/-- The packet is taken apart without an error. -/
def TakenApart (inBuf : List Byte) : Prop :=
  ∃ sig addrText, runningArgs inBuf = some (sig, addrText) ∧
    ∀ text, addrText = some text → (rpDecodeUint64 none text).isSome

/-- The semicolon is no digit. -/
theorem rpHexNibble_semicolon : rpHexNibble (ascii ';') = none := rfl

/-- A field has no semicolon. -/
theorem HexField.semicolon_notMem {count : Nat} {text : List Byte} (h : HexField count text) :
    ascii ';' ∉ text := by
  intro hmem
  have hsome := h.digits _ hmem
  rw [rpHexNibble_semicolon] at hsome
  exact absurd hsome (by simp)

/-- The letters of the packets. -/
theorem exists_resumeLetter {c : Byte} (h : c ∈ asciiText "csCS") : ∃ step signal, c = resumeLetter step signal := by
  have hletters : ∀ c ∈ asciiText "csCS", c = resumeLetter false false ∨ c = resumeLetter true false ∨
      c = resumeLetter false true ∨ c = resumeLetter true true := by decide
  rcases hletters c h with hc | hc | hc | hc
  · exact ⟨_, _, hc⟩
  · exact ⟨_, _, hc⟩
  · exact ⟨_, _, hc⟩
  · exact ⟨_, _, hc⟩

/-- A letter asks for a signal, for a step, and for nothing else. -/
theorem resumeLetter_mem (step signal : Bool) :
    (resumeLetter step signal ∈ asciiText "CSW" ↔ signal = true) ∧
      decide (resumeLetter step signal ∈ asciiText "Ss") = step ∧
      resumeLetter step signal ∉ asciiText "Ww" := by
  revert step signal
  decide

/-- A packet without a signal. -/
theorem runningArgs_plain (step : Bool) (text : List Byte) :
    runningArgs (resumeLetter step false :: text) =
      if text = [] then some (0, none) else some (0, some text) := by
  have hmem : resumeLetter step false ∉ asciiText "CSW" := fun h =>
    Bool.false_ne_true ((resumeLetter_mem step false).1.mp h)
  rw [runningArgs, List.headD_cons, if_neg hmem, List.tail_cons]

/-- A packet with a signal. -/
theorem runningArgs_signal (step : Bool) (text : List Byte) :
    runningArgs (resumeLetter step true :: text) =
      if ascii ';' ∈ text then (rpDecodeUint32 (some (ascii ';')) text).map fun r => (r.1, some r.2)
      else (rpDecodeUint32 none text).map fun r => (r.1, none) := by
  have hmem : resumeLetter step true ∈ asciiText "CSW" := (resumeLetter_mem step true).1.mpr rfl
  rw [runningArgs, List.headD_cons, if_pos hmem, List.tail_cons]
  split
  · cases rpDecodeUint32 (some (ascii ';')) text with
    | none => rfl
    | some r => rfl
  · cases rpDecodeUint32 none text with
    | none => rfl
    | some r => rfl

/-- What a packet asks for is what it is taken apart into. -/
theorem Asks.runningArgs {inBuf : List Byte} {req : Resume} (h : Asks inBuf req) :
    ∃ signal sig addrText, inBuf.headD 0 = resumeLetter req.step signal ∧
      Mcprog.runningArgs inBuf = some (sig, addrText) ∧
      ((addrText = none ∧ req.addr = none) ∨ ∃ text addr, addrText = some text ∧ req.addr = some addr ∧
        rpDecodeUint64 none text = some (BitVec.ofNat 64 addr, [])) := by
  cases h with
  | current step => exact ⟨false, 0, none, rfl, by rw [runningArgs_plain, if_pos rfl], .inl ⟨rfl, rfl⟩⟩
  | @address step addr haddr hne =>
    refine ⟨false, 0, some addr, rfl, ?_, .inr ⟨addr, _, rfl, rfl, rpDecodeUint_field haddr hne⟩⟩
    rw [runningArgs_plain, if_neg hne]
  | @signal step sig hsig hne =>
    refine ⟨true, BitVec.ofNat 32 (hexValue sig), none, rfl, ?_, .inl ⟨rfl, rfl⟩⟩
    rw [runningArgs_signal, if_neg hsig.semicolon_notMem, rpDecodeUint32, rpDecodeUint_field hsig hne]
    rfl
  | @signalAddress step sig addr hsig haddr hne =>
    have hread : rpDecodeUint32 (some (ascii ';')) (sig ++ ascii ';' :: addr) = some (_, addr) :=
      rpDecodeUint_of_field hsig (ascii ';' :: addr)
        (fun c hc => by rw [← Option.some.inj hc, rpHexNibble_semicolon]) (by simp)
    refine ⟨true, BitVec.ofNat 32 (hexValue sig), some addr, rfl, ?_,
      .inr ⟨addr, _, rfl, rfl, rpDecodeUint_field haddr hne⟩⟩
    rw [runningArgs_signal, if_pos (by simp), hread]
    rfl

/-- Whatever is taken apart asks for something. -/
theorem exists_asks {inBuf : List Byte} (hletter : inBuf.headD 0 ∈ asciiText "csCS") (h : TakenApart inBuf) :
    ∃ req, Asks inBuf req := by
  obtain ⟨sig, addrText, hargs, haddr⟩ := h
  cases inBuf with
  | nil => exact absurd hletter (by decide)
  | cons c text =>
    obtain ⟨step, signal, rfl⟩ : ∃ step signal, c = resumeLetter step signal := exists_resumeLetter hletter
    cases signal with
    | false =>
      rw [runningArgs_plain] at hargs
      by_cases hne : text = []
      · rw [hne]
        exact ⟨_, .current step⟩
      · rw [if_neg hne] at hargs
        obtain ⟨-, rfl⟩ := Prod.mk.inj (Option.some.inj hargs)
        obtain ⟨-, hfield⟩ := field_of_whole (haddr text rfl)
        exact ⟨_, .address step hfield hne⟩
    | true =>
      rw [runningArgs_signal] at hargs
      by_cases hmem : ascii ';' ∈ text
      · rw [if_pos hmem] at hargs
        obtain ⟨r, hread, hr⟩ := Option.map_eq_some_iff.mp hargs
        obtain ⟨hne, digits, rest, hfield, rfl, hrest⟩ := field_of_rpDecodeUint
          (show (rpDecodeUint 32 8 (some (ascii ';')) text).isSome from by
            rw [← rpDecodeUint32, hread]
            rfl)
        obtain ⟨addr, rfl⟩ := List.head?_eq_some_iff.mp hrest
        have hdigits : rpDecodeUint32 (some (ascii ';')) (digits ++ ascii ';' :: addr) = some (_, addr) :=
          rpDecodeUint_of_field hfield (ascii ';' :: addr)
            (fun c hc => by rw [← Option.some.inj hc, rpHexNibble_semicolon]) hne
        rw [hdigits] at hread
        obtain rfl := Option.some.inj hread
        obtain ⟨-, rfl⟩ := Prod.mk.inj hr
        obtain ⟨haddrNe, haddrField⟩ := field_of_whole (haddr addr rfl)
        exact ⟨_, .signalAddress step hfield haddrField haddrNe⟩
      · rw [if_neg hmem] at hargs
        obtain ⟨r, hread, -⟩ := Option.map_eq_some_iff.mp hargs
        obtain ⟨hne, hfield⟩ := field_of_whole
          (show (rpDecodeUint 32 8 none text).isSome from by
            rw [← rpDecodeUint32, hread]
            rfl)
        exact ⟨_, .signal step hfield hne⟩

/-- The addresses in the first two stages of the pipeline. -/
structure Stages where
  fetch : Word
  decode : Word

/-- What a call does to the stages: the address to fetch from is set, and a clock moves it on to the
decoder. -/
def Stages.call (k : Stages) : Call → Stages
  | .oncdWrite val reg _ =>
    if reg = oncdPCfetch then { k with fetch := val }
    else if reg = oncdGo ||| irdFlushPipe ||| irdStep1Clk then ⟨k.fetch + 4, k.fetch⟩
    else k
  | _ => k

/-- How the processor is let go, and the address of the instruction that is decoded then. -/
def releasing : Observer ControlEvent (ControlEvent × Nat) Stages where
  idle _ := True
  step k e :=
    match e with
    | .call c => (k.call c, [])
    | .save | .restore => (k, [])
    | .step | .run | .reset => (k, [(e, k.decode.toNat)])
  start := ⟨0, 0⟩
  start_idle := trivial

/-- How and from where the processor is let go. -/
def releasesOf (tr : List ControlEvent) : List (ControlEvent × Nat) :=
  (releasing.observe releasing.start tr).2

/-- The program counter of the stopped program, as register 37 shows it. -/
def Target.currentPc (t : Target) : Word := if t.exception ≠ noException then t.exception else t.pcDec

/-- The processor does what has been asked for: it is let go once, as the packet says and from where it
says, and is stopped after a step. -/
structure Obeys (t : Target) (req : Resume) (t' : Target) (tr : List ControlEvent) : Prop where
  released : releasesOf tr = [(if req.step then .step else .run, req.addr.getD t.currentPc.toNat)]
  stopped : req.step = true → t'.isRunning = false

/-- The packet has no address, or lets the target run from an address of its own that is not taken for
the mark of none. -/
def Resume.Obeyed (t : Target) (req : Resume) : Prop :=
  ∀ addr, req.addr = some addr →
    req.step = false ∧ addr < 2 ^ 32 ∧ (addr = noException.toNat → t.pcDec = noException)

section Released

variable {A : Adapter σ} {t : Target}

/-- Calls move the stages and let nothing go. -/
theorem observe_calls (k : Stages) (cs : List Call) :
    releasing.observe k (cs.map .call) = (cs.foldl Stages.call k, []) := by
  induction cs generalizing k with
  | nil => rfl
  | cons c cs ih =>
    have hstep : releasing.step k (.call c) = (k.call c, []) := rfl
    rw [List.map_cons, Observer.observe_cons, hstep, ih, List.foldl_cons, List.nil_append]

/-- A program that talks to the adapter lets nothing go. -/
theorem exhibits_calls {m : Action σ α} {P : α → Prop} (hm : m.Ensures P) :
    (calls m).Exhibits releasing fun a obs => obs = [] ∧ P a :=
  exhibits_mapEvents hm fun cs k _ => ⟨trivial, by rw [observe_calls]⟩

/-- Saving the state lets nothing go. -/
theorem saveContext_exhibits : (saveContext A t).Exhibits releasing fun t' obs =>
    obs = [] ∧ t'.isRunning = t.isRunning := by
  refine Exhibits.bind (R := fun _ obs => obs = []) (exhibits_emit (fun _ _ => ⟨trivial, rfl⟩) rfl) fun _ o₁ ho₁ => ?_
  rw [ho₁]
  exact exhibits_calls (targetSaveState_isRunning A t)

/-- The stages satisfy `P` after the calls, from `k` on. -/
def After (k : Stages) (P : Stages → Prop) : Assertion Call (Session σ) := fun cs _ => P (cs.foldl Stages.call k)

/-- Nothing is said of a run that stops. -/
def Anything : Assertion Call (Session σ) := fun _ _ => True

variable {k : Stages} {P : Stages → Prop}

/-- A write of a register moves the stages. -/
theorem triple_oncdWrite (val : Word) (reg nbits : Nat) :
    Triple (After k fun st => P (st.call (.oncdWrite val reg nbits))) (oncdWrite A val reg nbits)
      (fun _ => After k P) Anything := by
  refine triple_request (fun cs s a s' hP _ => ?_) fun _ _ _ => trivial
  rw [After, List.foldl_append]
  exact hP

/-- The control register is not one of the pipeline. -/
theorem changeOscr_after (f : Word → Word) :
    Triple (After k P) (changeOscr A f) (fun _ => After k P) Anything := by
  have hget : Triple (After k P) (getOscr : Action σ Word) (fun _ => After k P) Anything :=
    (triple_read fun _ _ h => h).bind fun _ => triple_pure fun _ _ h => h
  refine hget.bind fun oscr => ?_
  have hset : Triple (After k P) (setOscr (f oscr) : Action σ Unit) (fun _ => After k P) Anything :=
    triple_update fun _ _ h => h
  exact hset.bind fun _ => triple_oncdWrite (f oscr) oncdOscr 32

/-- The pipeline is restored with the program counter in the decoder. -/
theorem restorePipeline_after : Triple (After k fun _ => True) (restorePipeline A t)
    (fun _ => After k fun st => st.decode = t.currentPc) Anything := by
  rw [restorePipeline, Target.currentPc]
  by_cases hexc : t.exception = noException
  · rw [if_pos hexc, if_neg (fun h => h hexc)]
    refine Triple.pre ((triple_oncdWrite t.pcDec oncdPCfetch 32).bind fun _ =>
      (triple_oncdWrite mipsNop oncdIRdec 32).bind fun _ =>
      (triple_oncdWrite 0 (oncdGo ||| irdFlushPipe ||| irdStep1Clk) 0).bind fun _ =>
      (triple_oncdWrite t.irDec oncdIRdec 32).bind fun _ =>
      triple_oncdWrite t.pcFetch oncdPCfetch 32) fun _ _ _ => rfl
  · rw [if_neg hexc, if_pos hexc]
    refine Triple.pre ((triple_oncdWrite t.exception oncdPCfetch 32).bind fun _ =>
      (triple_oncdWrite mipsNop oncdIRdec 32).bind fun _ =>
      triple_oncdWrite 0 (oncdGo ||| irdFlushPipe ||| irdStep1Clk) 0) fun _ _ _ => rfl

/-- The state is restored with the program counter in the decoder. -/
theorem targetRestoreState_after : Triple (After k fun _ => True) (targetRestoreState A t)
    (fun _ => After k fun st => st.decode = t.currentPc) Anything := by
  have hany : ∀ m : Action σ Unit, Triple (After k fun _ => True) m (fun _ => After k fun _ => True) Anything := by
    intro m cs s _
    cases (m s).result with
    | error e => trivial
    | ok a => trivial
  exact (hany _).bind fun _ => (hany _).bind fun _ => restorePipeline_after.bind fun _ => changeOscr_after _

/-- The state is restored, and the observer has the program counter in the decoder. -/
theorem restoreContext_observed {s s' : Session σ} {u : Unit} {tr : List ControlEvent}
    (h : (restoreContext A t).Returns s u tr s') (k : Stages) :
    ∃ st, releasing.observe k tr = (st, []) ∧ st.decode = t.currentPc := by
  obtain ⟨_, tr₁, s₁, tr₂, h₁, h₂, rfl⟩ := returns_bind_iff.mp h
  obtain ⟨rfl, rfl, -⟩ := Outcome.mk.inj h₁
  obtain ⟨cs, hcs, rfl⟩ := returns_mapEvents_iff.mp h₂
  refine ⟨cs.foldl Stages.call k, ?_, ?_⟩
  · have hmark : releasing.step k .restore = (k, []) := rfl
    rw [List.singleton_append, Observer.observe_cons, hmark, observe_calls, List.nil_append]
  · have hnone : ∀ s : Session σ, After k (fun _ => True) [] s := fun _ => trivial
    have hdecode := targetRestoreState_after.returns (hnone _) hcs
    rwa [After, List.nil_append] at hdecode

/-- What is let go after the state has been restored starts at its program counter. -/
theorem release_exhibits {e : ControlEvent} {m : Control σ α} {Q : α → Prop}
    (he : ∀ k, releasing.step k e = (k, [(e, k.decode.toNat)]))
    (hm : m.Exhibits releasing fun a obs => obs = [] ∧ Q a) :
    (restoreContext A t >>= fun _ => emit e >>= fun _ => m).Exhibits releasing fun a obs =>
      obs = [(e, t.currentPc.toNat)] ∧ Q a := by
  intro s a tr s' hr
  obtain ⟨_, tr₁, s₁, tr₂, h₁, h₂, rfl⟩ := returns_bind_iff.mp hr
  obtain ⟨_, tr₃, s₂, tr₄, h₃, h₄, rfl⟩ := returns_bind_iff.mp h₂
  obtain ⟨rfl, rfl, -⟩ := Outcome.mk.inj h₃
  obtain ⟨obs, hshows, rfl, hQ⟩ := hm _ _ _ _ h₄
  refine ⟨_, fun k _ => ⟨trivial, ?_⟩, rfl, hQ⟩
  obtain ⟨st, hst, hdecode⟩ := restoreContext_observed h₁ k
  rw [Observer.observe_append, hst, List.singleton_append, Observer.observe_cons, he,
    (hshows st trivial).2, hdecode]
  rfl

/-- One step from the program counter, after which the target is stopped. -/
theorem targetStep_exhibits (ht : t.isRunning = false) : (targetStep A t).Exhibits releasing fun t' obs =>
    obs = [(.step, t.currentPc.toNat)] ∧ t'.isRunning = false := by
  rw [targetStep, ht, if_neg Bool.false_ne_true, stepProgram, bind_assoc]
  refine release_exhibits (fun _ => rfl) ?_
  have hcalls : ∀ m : Action σ Unit, (calls m).Exhibits releasing fun _ obs => obs = [] ∧ True :=
    fun m => exhibits_calls (ensures_true m)
  refine Exhibits.bind (R := fun _ obs => obs = [] ∧ True) ?_ fun _ o₁ ho₁ => ?_
  · cases A.stepCpu with
    | none => exact hcalls _
    | some stepCpu => exact hcalls _
  · rw [ho₁.1]
    refine saveContext_exhibits.mono fun t' obs h => ⟨h.1, ?_⟩
    rw [h.2, ht]

/-- The processor runs from the program counter. -/
theorem runFrom_exhibits (t' : Target) : (restoreContext A t >>= fun _ => runProgram A >>= fun _ => pure t').Exhibits
    releasing fun _ obs => obs = [(.run, t.currentPc.toNat)] ∧ True := by
  rw [runProgram, bind_assoc]
  refine release_exhibits (fun _ => rfl) ?_
  have hcalls : ∀ m : Action σ Unit, (calls m).Exhibits releasing fun _ obs => obs = [] ∧ True :=
    fun m => exhibits_calls (ensures_true m)
  refine Exhibits.bind (R := fun _ obs => obs = [] ∧ True) ?_ fun _ o₁ ho₁ => ?_
  · cases A.runCpu with
    | none => exact hcalls _
    | some runCpu => exact hcalls _
  · rw [ho₁.1]
    exact exhibits_pure ⟨rfl, trivial⟩

/-- The processor runs from the program counter. -/
theorem targetResume_exhibits (ht : t.isRunning = false) : (targetResume A t).Exhibits releasing fun _ obs =>
    obs = [(.run, t.currentPc.toNat)] ∧ True := by
  rw [targetResume, ht, if_neg Bool.false_ne_true]
  exact runFrom_exhibits _

/-- The processor runs from an address, unless that is the mark of none. -/
theorem targetRun_exhibits (ht : t.isRunning = false) (addr : Word) :
    (targetRun A t addr).Exhibits releasing fun _ obs =>
      obs = [(.run, ({ t with exception := addr } : Target).currentPc.toNat)] ∧ True := by
  rw [targetRun, ht, if_neg Bool.false_ne_true]
  exact runFrom_exhibits _

/-- How and from where the processor is let go for a packet. -/
def Resume.done (t : Target) (req : Resume) : ControlEvent × Nat :=
  match req.addr with
  | none => (if req.step then .step else .run, t.currentPc.toNat)
  | some addr => (.run, ({ t with exception := BitVec.ofNat 32 addr } : Target).currentPc.toNat)

/-- The low half of an address. -/
theorem setWidth_ofNat (addr : Nat) : (BitVec.ofNat 64 addr).setWidth 32 = BitVec.ofNat 32 addr := by
  apply BitVec.eq_of_toNat_eq
  rw [BitVec.toNat_setWidth, BitVec.toNat_ofNat, BitVec.toNat_ofNat]
  omega

/-- The target is let go for a packet. -/
theorem resumeTarget_exhibits (ht : t.isRunning = false) {inBuf : List Byte} {req : Resume} {signal : Bool}
    {sig : Word} {addrText : Option (List Byte)} (hletter : inBuf.headD 0 = resumeLetter req.step signal)
    (haddr : (addrText = none ∧ req.addr = none) ∨ ∃ text addr, addrText = some text ∧ req.addr = some addr ∧
      rpDecodeUint64 none text = some (BitVec.ofNat 64 addr, [])) :
    (resumeTarget A t inBuf sig addrText).Exhibits releasing fun r obs => obs = [req.done t] ∧ r.1 = .ok ∧
      (req.addr = none → req.step = true → r.2.isRunning = false) := by
  obtain ⟨-, hstep, hgo⟩ := resumeLetter_mem req.step signal
  unfold resumeTarget
  dsimp only
  rw [hletter, hstep, if_neg hgo, Resume.done]
  rcases haddr with ⟨rfl, hnone⟩ | ⟨text, addr, rfl, hsome, hread⟩
  · rw [hnone]
    dsimp only
    rw [elveesResumeFromCurrent]
    cases req.step with
    | true =>
      rw [if_pos rfl, if_pos rfl]
      refine (targetStep_exhibits ht).bind fun t' o₁ ho₁ => exhibits_pure ?_
      rw [ho₁.1]
      exact ⟨rfl, rfl, fun _ _ => ho₁.2⟩
    | false =>
      rw [if_neg Bool.false_ne_true, if_neg Bool.false_ne_true]
      refine (targetResume_exhibits ht).bind fun t' o₁ ho₁ => exhibits_pure ?_
      rw [ho₁.1]
      exact ⟨rfl, rfl, fun _ h => absurd h Bool.false_ne_true⟩
  · rw [hsome]
    dsimp only
    rw [hread]
    dsimp only
    rw [elveesResumeFromAddr, setWidth_ofNat]
    refine (targetRun_exhibits ht _).bind fun t' o₁ ho₁ => exhibits_pure ?_
    rw [ho₁.1]
    exact ⟨rfl, rfl, fun h => absurd h (by simp)⟩

/-- Reading a register does not let the processor run. -/
theorem targetReadRegister_isRunning (regno : Nat) :
    (targetReadRegister A t regno).Ensures fun r => r.2.isRunning = t.isRunning := by
  rw [targetReadRegister]
  refine ensures_ite (fun _ => ensures_pure rfl) fun _ => ?_
  cases slotOf regno with
  | none => exact ensures_pure rfl
  | some slot =>
    dsimp only
    cases t.cached slot with
    | some val => exact ensures_pure rfl
    | none => exact ensures_bind fun val => ensures_pure (t.cache_isRunning slot val)

/-- The status of a target does not let it run. -/
theorem stopStatus_isRunning (sig : String) :
    (stopStatus A t sig).Ensures fun r => r.2.isRunning = t.isRunning := by
  have htreg : ∀ (t : Target) (regNo : Nat),
      (elveesOutTreg A t regNo).Ensures fun r => r.2.isRunning = t.isRunning := fun t regNo =>
    (targetReadRegister_isRunning regNo).bind fun r hr => ensures_pure hr
  exact (htreg t _).bind fun r hr => (htreg r.2 _).bind fun r' hr' => ensures_pure (hr'.trans hr)

/-- Taking over a processor that has stopped lets nothing go. -/
theorem noteStop_exhibits : (noteStop A t).Exhibits releasing fun t' obs =>
    obs = [] ∧ (t.isRunning = false → t'.isRunning = false) := by
  rw [noteStop]
  refine exhibits_ite (fun _ => ?_) fun _ => exhibits_pure ⟨rfl, id⟩
  refine (exhibits_calls (ensures_true _)).bind fun _ o₁ ho₁ => ?_
  rw [ho₁.1]
  exact saveContext_exhibits.mono fun t' obs h => ⟨h.1, fun _ => h.2⟩

/-- Asking whether the target has stopped lets nothing go. -/
theorem targetIsStopped_exhibits : (targetIsStopped A t).Exhibits releasing fun r obs =>
    obs = [] ∧ (t.isRunning = false → r.2.isRunning = false) := by
  refine (exhibits_calls (ensures_true _)).bind fun stopped o₁ ho₁ => ?_
  rw [ho₁.1]
  refine exhibits_ite (fun _ => ?_) fun _ => exhibits_pure ⟨rfl, id⟩
  refine noteStop_exhibits.bind fun t' o₂ ho₂ => (exhibits_calls (ensures_true _)).bind fun oscr o₃ ho₃ => ?_
  rw [ho₂.1, ho₃.1]
  exact exhibits_pure ⟨rfl, ho₂.2⟩

/-- Waiting for the target lets nothing go. -/
theorem elveesWaitPartial_exhibits (statusString : List Byte) :
    (elveesWaitPartial A t statusString).Exhibits releasing fun w obs =>
      obs = [] ∧ w.ret = .ok ∧ w.implemented = true ∧ (t.isRunning = false → w.target.isRunning = false) := by
  refine targetIsStopped_exhibits.bind fun r o₁ ho₁ => ?_
  rw [ho₁.1]
  refine exhibits_ite (fun _ => ?_) fun _ => exhibits_pure ⟨rfl, rfl, rfl, ho₁.2⟩
  refine (exhibits_calls (stopStatus_isRunning _)).bind fun r' o₂ ho₂ => ?_
  rw [ho₂.1]
  exact exhibits_pure ⟨rfl, rfl, rfl, fun ht => ho₂.2.trans (ho₁.2 ht)⟩

/-- What a running command makes of a packet. -/
theorem handleRunningCommands_exhibits (ht : t.isRunning = false) {inBuf : List Byte} {req : Resume}
    (h : Asks inBuf req) (running : Bool) (statusString outBuf : List Byte) :
    (handleRunningCommands A t running statusString inBuf outBuf).Exhibits releasing fun r obs =>
      obs = [req.done t] ∧ (req.addr = none → req.step = true → r.target.isRunning = false) := by
  obtain ⟨signal, sig, addrText, hletter, hargs, haddr⟩ := h.runningArgs
  rw [handleRunningCommands, hargs]
  dsimp only
  refine (resumeTarget_exhibits ht hletter haddr).bind fun r o₁ ho₁ => ?_
  rw [ho₁.1, if_neg (fun hret => hret ho₁.2.1)]
  refine (elveesWaitPartial_exhibits statusString).bind fun w o₂ ho₂ => ?_
  have hstopped : req.addr = none → req.step = true → w.target.isRunning = false := fun hnone hstep =>
    ho₂.2.2.2 (ho₁.2.2 hnone hstep)
  rw [ho₂.1, ho₂.2.1, ho₂.2.2.1, if_neg (fun hret => hret rfl), if_neg (fun himp => himp rfl)]
  refine exhibits_ite (fun _ => ?_) fun _ => exhibits_pure ⟨rfl, hstopped⟩
  have hassert : ∀ (c : Prop) [Decidable c] (text : String),
      (assert c text : Control σ Unit).Exhibits releasing fun _ obs => obs = [] :=
    fun c _ text => exhibits_ite (fun _ => exhibits_pure rfl) fun _ => exhibits_stop
  refine (hassert _ _).bind fun _ o₃ ho₃ => ?_
  rw [ho₃]
  exact exhibits_pure ⟨rfl, hstopped⟩

end Released

/-- Where the processor starts is the address that has been given, unless that has no place in a word or
is the mark of none. -/
theorem currentPc_eq_iff (t : Target) (addr : Nat) :
    ({ t with exception := BitVec.ofNat 32 addr } : Target).currentPc.toNat = addr ↔
      addr < 2 ^ 32 ∧ (addr = noException.toNat → t.pcDec = noException) := by
  have hmark : BitVec.ofNat 32 addr = noException ↔ addr % 2 ^ 32 = noException.toNat := by
    rw [← BitVec.toNat_inj, BitVec.toNat_ofNat]
  have hnone : noException.toNat = 2 ^ 32 - 1 := rfl
  rw [Target.currentPc]
  dsimp only
  by_cases hexc : BitVec.ofNat 32 addr = noException
  · rw [if_neg (fun h => h hexc)]
    have hmod := hmark.mp hexc
    have hlt := t.pcDec.isLt
    constructor
    · intro h
      refine ⟨by omega, fun haddr => ?_⟩
      rw [← BitVec.toNat_inj, h, haddr]
    · rintro ⟨haddr, hdec⟩
      have heq : addr = noException.toNat := by omega
      rw [hdec heq, heq]
  · rw [if_pos hexc, BitVec.toNat_ofNat]
    have hmod : ¬ addr % 2 ^ 32 = noException.toNat := fun h => hexc (hmark.mpr h)
    constructor
    · intro h
      exact ⟨by omega, fun haddr => absurd (by omega) hmod⟩
    · rintro ⟨haddr, -⟩
      omega

/-- What is done for a packet is what it asks for. -/
theorem done_eq_iff (t : Target) (req : Resume) :
    req.done t = (if req.step then .step else .run, req.addr.getD t.currentPc.toNat) ↔ req.Obeyed t := by
  rw [Resume.done, Resume.Obeyed]
  cases req.addr with
  | none => simp
  | some addr =>
    dsimp only
    rw [Prod.mk.injEq, Option.getD_some, currentPc_eq_iff]
    cases req.step with
    | true => simp
    | false => simp

/-- A packet that arrives while the target is stopped is obeyed if and only if it has no address, or lets
the target run from one below 2^32 that is not the mark of none. -/
theorem handleRunningCommands_obeys_iff (A : Adapter σ) {t : Target} (ht : t.isRunning = false)
    {inBuf : List Byte} (hletter : inBuf.headD 0 ∈ asciiText "csCS") (hparses : TakenApart inBuf) (running : Bool)
    (statusString outBuf : List Byte) {s s' : Session σ} {r : Running} {tr : List ControlEvent}
    (hr : (handleRunningCommands A t running statusString inBuf outBuf).Returns s r tr s') :
    (∃ req, Asks inBuf req) ∧ ∀ req, Asks inBuf req → (Obeys t req r.target tr ↔ req.Obeyed t) := by
  refine ⟨exists_asks hletter hparses, fun req hreq => ?_⟩
  obtain ⟨obs, hshows, rfl, hstopped⟩ :=
    handleRunningCommands_exhibits ht hreq running statusString outBuf s r tr s' hr
  have hdone : releasesOf tr = [req.done t] := (hshows _ trivial).2
  constructor
  · intro h
    exact (done_eq_iff t req).mp (List.singleton_inj.mp (hdone.symm.trans h.released))
  · intro h
    refine ⟨by rw [hdone, (done_eq_iff t req).mpr h], fun hstep => ?_⟩
    refine hstopped ?_ hstep
    cases haddr : req.addr with
    | none => rfl
    | some addr =>
      have hrun := (h addr haddr).1
      rw [hstep] at hrun
      exact absurd hrun (by simp)

/-- A target that is stopped. -/
def stoppedTarget : Target := { Target.allocated with isRunning := false, exception := noException }

/-- A target that is let run from an address. -/
theorem handleRunningCommands_obeys_run : ∃ r tr s',
    (handleRunningCommands (scripted 0 0) stoppedTarget false [] (asciiText "c100") []).Returns ⟨0, []⟩ r tr s' ∧
      (∃ req, Asks (asciiText "c100") req) ∧ ∀ req, Asks (asciiText "c100") req →
        (Obeys stoppedTarget req r.target tr ↔ req.Obeyed stoppedTarget) := by
  have hresult : (handleRunningCommands (scripted 0 0) stoppedTarget false [] (asciiText "c100") []
      ⟨0, []⟩).result.toOption.map (fun r => r.targetRunning) = some false := by decide +kernel
  obtain ⟨r, tr, s', hr, -⟩ := exists_returns hresult
  exact ⟨r, tr, s', hr, handleRunningCommands_obeys_iff (scripted 0 0) rfl (by decide)
    ⟨0, some (asciiText "100"), rfl, fun text h => by rw [← Option.some.inj h]; rfl⟩ false [] [] hr⟩

/-- A target that is asked for a step from an address runs from there. -/
theorem handleRunningCommands_runs_step : ∃ r tr s',
    (handleRunningCommands (scripted 0 0) stoppedTarget false [] (asciiText "s100") []).Returns ⟨0, []⟩ r tr s' ∧
      Asks (asciiText "s100") ⟨true, some 0x100⟩ ∧ releasesOf tr = [(.run, 0x100)] ∧
      ¬ Obeys stoppedTarget ⟨true, some 0x100⟩ r.target tr := by
  have hresult : (handleRunningCommands (scripted 0 0) stoppedTarget false [] (asciiText "s100") []
      ⟨0, []⟩).result.toOption.map (fun r => r.targetRunning) = some false := by decide +kernel
  obtain ⟨r, tr, s', hr, -⟩ := exists_returns hresult
  have hreleased : releasesOf (handleRunningCommands (scripted 0 0) stoppedTarget false []
      (asciiText "s100") [] ⟨0, []⟩).trace = [(.run, 0x100)] := by decide +kernel
  rw [show handleRunningCommands (scripted 0 0) stoppedTarget false [] (asciiText "s100") [] ⟨0, []⟩ = _
    from hr] at hreleased
  refine ⟨r, tr, s', hr, .address true ⟨by decide, by decide⟩ (by decide), hreleased, fun h => ?_⟩
  exact absurd (hreleased.symm.trans h.released) (by decide)

end Mcprog
