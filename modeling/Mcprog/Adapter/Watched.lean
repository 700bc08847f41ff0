import Mcprog.Library.Triple
import Mcprog.Adapter.Ft2232

/-!
# Adapters whose accesses to memory are noted

The control bits that the hardware holds are a function of the state of the device. An
adapter is watched: with each access to memory through `MEM` it is noted whether data was
written for it, and the control bits at that moment.
-/

namespace Mcprog

open Interaction Program

variable {σ ε α β : Type}

/-- The bits of `OSCR` that the hardware does not change by itself. -/
def oscrControl : Word := oscrSlctMem ||| oscrRo ||| oscrDbm ||| oscrNds

/-- The hardware changes its control bits on a write of `OSCR` only, and a read of `OSCR`
gives them back. -/
structure ControlBits (D : Adapter σ) where
  /-- The control bits that the hardware holds. -/
  bits : σ → Word
  write_oscr : ∀ val d d', D.oncdWrite val oncdOscr 32 d = .ok ((), d') → bits d' = val &&& oscrControl
  write_other : ∀ val reg nbits d d', reg ≠ oncdOscr → D.oncdWrite val reg nbits d = .ok ((), d') →
    bits d' = bits d
  read_oscr : ∀ val nbits d d', D.oncdRead oncdOscr nbits d = .ok (val, d') →
    val &&& oscrControl = bits d
  read : ∀ val reg nbits d d', D.oncdRead reg nbits d = .ok (val, d') → bits d' = bits d
  stop : ∀ d d', D.stopCpu d = .ok ((), d') → bits d' = bits d

/-- An access to memory: whether data was written for it, and the control bits. -/
structure Trigger where
  write : Bool
  bits : Word
  deriving DecidableEq, Repr

/-- A device with notes on the accesses to memory. -/
structure Watched (σ : Type) where
  device : σ
  /-- Data was written after the last address. -/
  data : Bool
  triggers : List Trigger

/-- What a write of a register adds to the notes. -/
def Watched.note (bits : σ → Word) (w : Watched σ) (reg : Nat) (device : σ) : Watched σ :=
  { device
    data := if reg = oncdOmar then false else if reg = oncdOmdr then true else w.data
    triggers := if reg = oncdMem then w.triggers ++ [⟨w.data, bits w.device⟩] else w.triggers }

/-- A method on the device inside. -/
def Method.watched (f : Method σ α) : Method (Watched σ) α := fun w =>
  match f w.device with
  | .ok (a, d) => .ok (a, { w with device := d })
  | .error e => .error e

/-- The mandatory methods of an adapter, watched. -/
def Adapter.watched (D : Adapter σ) (bits : σ → Word) : Adapter (Watched σ) where
  close := D.close.watched
  getIdcode := D.getIdcode.watched
  cpuStopped := D.cpuStopped.watched
  stopCpu := D.stopCpu.watched
  resetCpu := D.resetCpu.watched
  oncdWrite val reg nbits w :=
    match D.oncdWrite val reg nbits w.device with
    | .ok (_, d) => .ok ((), w.note bits reg d)
    | .error e => .error e
  oncdRead reg nbits := (D.oncdRead reg nbits).watched
  blockWords := 0
  programBlockWords := 0
  stepCpu := none
  runCpu := none
  readBlock := none
  writeBlock := none
  writeNwords := none
  programBlock32 := none
  programBlock32Unprotect := none
  programBlock32Protect := none
  programBlock64 := none
  programBlock32Micron := none
  blockWords_pos h := by simp at h
  programBlockWords_pos h := by simp at h
  unprotect_of_protect h := by simp at h

/-- The bits that allow access to memory, for stores and for loads. -/
def accessMode (write : Bool) : Word := if write then oscrSlctMem else oscrSlctMem ||| oscrRo

/-- Every access happened with the bits that it needs. -/
def Watched.Sound (w : Watched σ) : Prop :=
  ∀ x ∈ w.triggers, x.bits &&& (oscrSlctMem ||| oscrRo) = accessMode x.write

/-- A condition on the session of a watched adapter. -/
abbrev Condition (σ : Type) : Type := Session (Watched σ) → Prop

/-- Whatever happens every access has the bits that it needs. -/
def Safe (P : Condition σ) (m : Program ε (Session (Watched σ)) Fatal α) (Q : α → Condition σ) : Prop :=
  Triple (fun _ s => P s ∧ s.device.Sound) m (fun a _ s => Q a s ∧ s.device.Sound)
    fun _ s => s.device.Sound

section Rules

variable {P P' : Condition σ} {m : Program ε (Session (Watched σ)) Fatal α} {Q Q' : α → Condition σ}

theorem safe_pure {a : α} (h : ∀ s, P s → Q a s) :
    Safe P (pure a : Program ε (Session (Watched σ)) Fatal α) Q :=
  triple_pure fun _ s hP => ⟨h s hP.1, hP.2⟩

theorem safe_stop {e : Fatal} : Safe P (stop e : Program ε (Session (Watched σ)) Fatal α) Q :=
  triple_stop fun _ _ hP => hP.2

/-- The second part begins as the first one ends. -/
theorem Safe.bind {f : α → Program ε (Session (Watched σ)) Fatal β} {R : β → Condition σ}
    (hm : Safe P m Q) (hf : ∀ a, Safe (Q a) (f a) R) : Safe P (m >>= f) R := Triple.bind hm hf

/-- Either branch may be taken. -/
theorem Safe.ite {c : Prop} [Decidable c] {m' : Program ε (Session (Watched σ)) Fatal α}
    (hm : Safe P m Q) (hm' : Safe P m' Q) : Safe P (if c then m else m') Q := by
  split
  · exact hm
  · exact hm'

/-- More may be known before, and less be said behind. -/
theorem Safe.conseq (h : Safe P m Q) (hP : ∀ s, P' s → P s) (hQ : ∀ a s, Q a s → Q' a s) :
    Safe P' m Q' :=
  Triple.conseq h (fun _ s hs => ⟨hP s hs.1, hs.2⟩) (fun a _ s hs => ⟨hQ a s hs.1, hs.2⟩)
    fun _ _ hs => hs

/-- Less may be said behind. -/
theorem Safe.post (h : Safe P m Q) (hQ : ∀ a s, Q a s → Q' a s) : Safe P m Q' :=
  h.conseq (fun _ hs => hs) hQ

/-- What a run that answers leaves. -/
theorem Safe.returns (h : Safe P m Q) {s s' : Session (Watched σ)} {a : α} {tr : List ε} (hP : P s)
    (hs : s.device.Sound) (hr : m.Returns s a tr s') : Q a s' ∧ s'.device.Sound := by
  have hpost := h [] s ⟨hP, hs⟩
  rw [show m s = _ from hr] at hpost
  exact hpost

/-- Every run, also one that stops early, leaves the notes sound. -/
theorem Safe.sound (h : Safe P m Q) {s : Session (Watched σ)} (hP : P s) (hs : s.device.Sound) :
    (m s).state.device.Sound := by
  have hpost := h [] s ⟨hP, hs⟩
  cases hres : (m s).result with
  | error e =>
    rw [hres] at hpost
    exact hpost
  | ok a =>
    rw [hres] at hpost
    exact hpost.2

end Rules

section Agreement

variable {D : Adapter σ} (H : ControlBits D)

/-- The cached register agrees with the hardware on the control bits, which allow the access
`mode` where it is given. -/
def Agrees (mode : Option Bool) : Condition σ := fun s =>
  s.oscr &&& oscrControl = H.bits s.device.device ∧
    ∀ write ∈ mode, H.bits s.device.device &&& (oscrSlctMem ||| oscrRo) = accessMode write

/-- The adapter reaches the debug registers of the watched device. -/
structure OverOncd (A : Adapter (Watched σ)) : Prop where
  oncdWrite : A.oncdWrite = (D.watched H.bits).oncdWrite
  oncdRead : A.oncdRead = (D.watched H.bits).oncdRead

variable {H} {A : Adapter (Watched σ)} {mode : Option Bool}

/-- The control bits agree, whatever they are for. -/
theorem Agrees.weaken {s : Session (Watched σ)} (h : Agrees H mode s) : Agrees H none s :=
  ⟨h.1, fun _ hw => by simp at hw⟩

/-- Only the two registers matter. -/
theorem Agrees.of_eq {s s' : Session (Watched σ)} (h : Agrees H mode s) (ho : s'.oscr = s.oscr)
    (hb : H.bits s'.device.device = H.bits s.device.device) : Agrees H mode s' := by
  unfold Agrees
  rw [ho, hb]
  exact h

/-- A granted write of a register. -/
theorem watched_write {val : Word} {reg nbits : Nat} {s s' : Session (Watched σ)} {u : Unit}
    (h : Method.lift ((D.watched H.bits).oncdWrite val reg nbits) s = .ok (u, s')) :
    ∃ d, D.oncdWrite val reg nbits s.device.device = .ok ((), d) ∧ s'.oscr = s.oscr ∧
      s'.device = s.device.note H.bits reg d := by
  obtain ⟨hd, ho⟩ := Method.lift_ok h
  dsimp only [Adapter.watched] at hd
  cases hw : D.oncdWrite val reg nbits s.device.device with
  | error e =>
    rw [hw] at hd
    exact absurd hd (by simp)
  | ok r =>
    rw [hw] at hd
    exact ⟨r.2, rfl, ho, (Prod.mk.inj (Except.ok.inj hd)).2.symm⟩

/-- A granted read of a register. -/
theorem watched_method {f : Method σ α} {s s' : Session (Watched σ)} {a : α}
    (h : Method.lift f.watched s = .ok (a, s')) :
    ∃ d, f s.device.device = .ok (a, d) ∧ s'.oscr = s.oscr ∧
      s'.device = { s.device with device := d } := by
  obtain ⟨hd, ho⟩ := Method.lift_ok h
  rw [Method.watched] at hd
  cases hf : f s.device.device with
  | error e =>
    rw [hf] at hd
    exact absurd hd (by simp)
  | ok r =>
    rw [hf] at hd
    obtain ⟨ha, hs⟩ := Prod.mk.inj (Except.ok.inj hd)
    exact ⟨r.2, by rw [← ha], ho, hs.symm⟩

/-- Cache what was read from `OSCR`. -/
theorem safe_setOscr {val : Word} :
    Safe (fun s => Agrees H mode s ∧ val &&& oscrControl = H.bits s.device.device)
      (setOscr val : Action (Watched σ) Unit) fun _ => Agrees H mode :=
  triple_update fun _ _ hs => ⟨⟨hs.1.2, hs.1.1.2⟩, hs.2⟩

/-- Cache what the hardware holds. -/
theorem safe_setOscr_of_bits {val : Word} :
    Safe (fun s => val &&& oscrControl = H.bits s.device.device)
      (setOscr val : Action (Watched σ) Unit) fun _ => Agrees H none :=
  triple_update fun _ _ hs => ⟨⟨hs.1, fun _ h => by simp at h⟩, hs.2⟩

/-- Look at the cached register. -/
theorem safe_getOscr {P : Condition σ} :
    Safe P (getOscr : Action (Watched σ) Word) fun val s => P s ∧ s.oscr = val := by
  have hread : Safe P (read : Action (Watched σ) (Session (Watched σ))) fun s' s => P s ∧ s' = s :=
    triple_read fun _ s hs => ⟨⟨hs.1, rfl⟩, hs.2⟩
  refine hread.bind fun s' => safe_pure fun s hs => ?_
  rw [hs.2]
  exact ⟨hs.1, rfl⟩

/-- The bits after stores are allowed. -/
theorem allowWrite_and (oscr : Word) : ((oscr &&& ~~~oscrRo) ||| oscrSlctMem) &&&
    (oscrSlctMem ||| oscrRo) = accessMode true := by
  have hbit : ∀ (i : Fin 32) (b : Bool), (((b && !oscrRo.getLsbD i) || oscrSlctMem.getLsbD i) &&
      (oscrSlctMem.getLsbD i || oscrRo.getLsbD i)) = oscrSlctMem.getLsbD i := by decide
  apply BitVec.eq_of_getLsbD_eq
  intro i hi
  rw [BitVec.getLsbD_and, BitVec.getLsbD_or, BitVec.getLsbD_and, BitVec.getLsbD_not,
    BitVec.getLsbD_or, decide_eq_true hi, Bool.true_and]
  exact hbit ⟨i, hi⟩ (oscr.getLsbD i)

/-- The bits after loads are allowed. -/
theorem allowRead_and (oscr : Word) : (oscr ||| oscrSlctMem ||| oscrRo) &&&
    (oscrSlctMem ||| oscrRo) = accessMode false := by
  have hbit : ∀ (i : Fin 32) (b : Bool), (((b || oscrSlctMem.getLsbD i) || oscrRo.getLsbD i) &&
      (oscrSlctMem.getLsbD i || oscrRo.getLsbD i)) =
      (oscrSlctMem.getLsbD i || oscrRo.getLsbD i) := by decide
  apply BitVec.eq_of_getLsbD_eq
  intro i hi
  rw [BitVec.getLsbD_and, BitVec.getLsbD_or, BitVec.getLsbD_or, BitVec.getLsbD_or]
  exact (hbit ⟨i, hi⟩ (oscr.getLsbD i)).trans BitVec.getLsbD_or.symm

namespace OverOncd

variable (hA : OverOncd H A)
include hA

/-- A write of a register other than `OSCR` and `MEM`. -/
theorem safe_write {val : Word} {reg nbits : Nat} (hoscr : reg ≠ oncdOscr) (hmem : reg ≠ oncdMem) :
    Safe (Agrees H mode) (Mcprog.oncdWrite A val reg nbits) fun _ s => Agrees H mode s ∧
      (reg = oncdOmar → s.device.data = false) ∧ (reg = oncdOmdr → s.device.data = true) := by
  refine triple_request ?_ fun _ _ hs => hs.2
  rintro _ s u s' ⟨hag, hsound⟩ hw
  rw [hA.oncdWrite] at hw
  obtain ⟨d, hd, ho, hdev⟩ := watched_write hw
  have hbits : H.bits d = H.bits s.device.device := H.write_other _ _ _ _ _ hoscr hd
  rw [Watched.note, if_neg hmem] at hdev
  refine ⟨⟨?_, ?_, ?_⟩, ?_⟩
  · exact hag.of_eq ho (by rw [hdev]; exact hbits)
  · intro hreg
    rw [hdev, hreg]
    rfl
  · intro hreg
    rw [hdev, hreg]
    rfl
  · rw [hdev]
    exact hsound

/-- A write of such a register, where the access to memory is not of interest. -/
theorem safe_set {val : Word} {reg nbits : Nat} (hoscr : reg ≠ oncdOscr) (hmem : reg ≠ oncdMem) :
    Safe (Agrees H mode) (Mcprog.oncdWrite A val reg nbits) fun _ => Agrees H mode :=
  (hA.safe_write hoscr hmem).post fun _ _ hs => hs.1

/-- An access to memory that is allowed. -/
theorem safe_access {val : Word} {nbits : Nat} {write : Bool} :
    Safe (fun s => Agrees H (some write) s ∧ s.device.data = write)
      (Mcprog.oncdWrite A val oncdMem nbits) fun _ => Agrees H (some write) := by
  refine triple_request ?_ fun _ _ hs => hs.2
  rintro _ s u s' ⟨⟨hag, hdata⟩, hsound⟩ hw
  rw [hA.oncdWrite] at hw
  obtain ⟨d, hd, ho, hdev⟩ := watched_write hw
  have hbits : H.bits d = H.bits s.device.device := H.write_other _ _ _ _ _ (by decide) hd
  rw [Watched.note, if_pos rfl] at hdev
  constructor
  · exact hag.of_eq ho (by rw [hdev]; exact hbits)
  · rw [hdev]
    intro x hx
    rcases List.mem_append.mp hx with hx | hx
    · exact hsound x hx
    · rw [List.mem_singleton.mp hx]
      dsimp only
      rw [hdata]
      exact hag.2 write rfl

/-- A write of `OSCR` with the value that is cached. -/
theorem safe_writeOscr {val : Word} :
    Safe (fun s => s.oscr = val) (Mcprog.oncdWrite A val oncdOscr 32) fun _ s =>
      Agrees H none s ∧ H.bits s.device.device = val &&& oscrControl := by
  refine triple_request ?_ fun _ _ hs => hs.2
  rintro _ s u s' ⟨hval, hsound⟩ hw
  rw [hA.oncdWrite] at hw
  obtain ⟨d, hd, ho, hdev⟩ := watched_write hw
  have hbits : H.bits d = val &&& oscrControl := H.write_oscr _ _ _ hd
  rw [Watched.note, if_neg (by decide)] at hdev
  refine ⟨⟨⟨?_, fun _ h => by simp at h⟩, ?_⟩, ?_⟩
  · rw [ho, hdev, hval]
    exact hbits.symm
  · rw [hdev]
    exact hbits
  · rw [hdev]
    exact hsound

/-- A read of a register. What is read from `OSCR` has the control bits of the hardware. -/
theorem safe_read {reg nbits : Nat} :
    Safe (Agrees H mode) (Mcprog.oncdRead A reg nbits) fun val s => Agrees H mode s ∧
      (reg = oncdOscr → val &&& oscrControl = H.bits s.device.device) := by
  refine triple_request ?_ fun _ _ hs => hs.2
  rintro _ s val s' ⟨hag, hsound⟩ hr
  rw [hA.oncdRead] at hr
  obtain ⟨d, hd, ho, hdev⟩ := watched_method hr
  have hbits : H.bits d = H.bits s.device.device := H.read _ _ _ _ _ hd
  refine ⟨⟨?_, ?_⟩, ?_⟩
  · exact hag.of_eq ho (by rw [hdev]; exact hbits)
  · intro hreg
    rw [hreg] at hd
    rw [hdev]
    dsimp only
    rw [hbits]
    exact H.read_oscr _ _ _ _ hd
  · rw [hdev]
    exact hsound

/-- What is read from `OSCR` has the control bits of the hardware in any case. -/
theorem safe_readAny {reg nbits : Nat} :
    Safe (fun _ => True) (Mcprog.oncdRead A reg nbits) fun val s =>
      reg = oncdOscr → val &&& oscrControl = H.bits s.device.device := by
  refine triple_request ?_ fun _ _ hs => hs.2
  rintro _ s val s' ⟨-, hsound⟩ hr
  rw [hA.oncdRead] at hr
  obtain ⟨d, hd, ho, hdev⟩ := watched_method hr
  have hbits : H.bits d = H.bits s.device.device := H.read _ _ _ _ _ hd
  constructor
  · intro hreg
    rw [hreg] at hd
    rw [hdev]
    dsimp only
    rw [hbits]
    exact H.read_oscr _ _ _ _ hd
  · rw [hdev]
    exact hsound

/-- The same, where the value is not of interest. -/
theorem safe_get {reg nbits : Nat} :
    Safe (Agrees H mode) (Mcprog.oncdRead A reg nbits) fun _ => Agrees H mode :=
  hA.safe_read.post fun _ _ hs => hs.1

/-- Assign the cached register and write it. -/
theorem safe_putOscr {P : Condition σ} {val : Word} :
    Safe P (do setOscr val; Mcprog.oncdWrite A val oncdOscr 32) fun _ s =>
      Agrees H none s ∧ H.bits s.device.device = val &&& oscrControl := by
  have hset : Safe P (setOscr val : Action (Watched σ) Unit) fun _ s => s.oscr = val :=
    triple_update fun _ _ hs => ⟨rfl, hs.2⟩
  exact hset.bind fun _ => hA.safe_writeOscr

/-- Allowing the access to memory brings both sides to the same value. -/
theorem safe_allowMemory {f : Word → Word} {write : Bool}
    (hf : ∀ oscr, f oscr &&& (oscrSlctMem ||| oscrRo) = accessMode write) :
    Safe (Agrees H none) (allowMemory A f) fun _ => Agrees H (some write) := by
  have hmask : ∀ w : Word, w &&& oscrControl &&& (oscrSlctMem ||| oscrRo) =
      w &&& (oscrSlctMem ||| oscrRo) := by
    intro w
    rw [BitVec.and_assoc]
    rfl
  refine safe_getOscr.bind fun oscr => ?_
  split
  · refine hA.safe_putOscr.post fun _ s hs => ⟨hs.1.1, fun w hw => ?_⟩
    rw [← Option.some.inj hw, hs.2, hmask]
    exact hf oscr
  · rename_i hsame
    rw [not_not] at hsame
    refine safe_pure fun s hs => ⟨hs.1.1, fun w hw => ?_⟩
    rw [← Option.some.inj hw, ← hs.1.1, hmask, hs.2, ← hsame]
    exact hf oscr

theorem safe_allowWrite : Safe (Agrees H none)
    (allowMemory A fun oscr => (oscr &&& ~~~oscrRo) ||| oscrSlctMem) fun _ => Agrees H (some true) :=
  hA.safe_allowMemory allowWrite_and

theorem safe_allowRead : Safe (Agrees H none)
    (allowMemory A fun oscr => oscr ||| oscrSlctMem ||| oscrRo) fun _ => Agrees H (some false) :=
  hA.safe_allowMemory allowRead_and

/-- Waiting for the memory keeps the agreement. -/
theorem safe_waitReady (timeout : String) (count : Nat) :
    Safe (Agrees H mode) (waitReady A timeout count) fun _ => Agrees H mode := by
  induction count with
  | zero => exact safe_getOscr.bind fun _ => safe_stop
  | succ count ih =>
    refine hA.safe_read.bind fun oscr => ?_
    have hset : Safe (fun s => Agrees H mode s ∧
        (oncdOscr = oncdOscr → oscr &&& oscrControl = H.bits s.device.device))
        (setOscr oscr : Action (Watched σ) Unit) fun _ => Agrees H mode :=
      safe_setOscr.conseq (fun s hs => ⟨hs.1, hs.2 rfl⟩) fun _ _ hs => hs
    refine hset.bind fun _ => ?_
    split
    · exact safe_pure fun _ hs => hs
    · exact ih

end OverOncd

end Agreement

end Mcprog
