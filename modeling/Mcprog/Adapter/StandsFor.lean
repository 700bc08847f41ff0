import Mcprog.Adapter.PortAdapter
import Mcprog.Library.Tracking
import Mcprog.Target.Control

/-!
# An adapter in place of another one

An adapter whose loops need fuel stands for a plain adapter when it answers every call as that one
does, and has the methods that it has. It may do so for the calls that reach the memory only. What a
program asks of it is then what it asks of the other.
-/

namespace Mcprog

open Interaction Program

variable {σ τ α : Type} {R : σ → τ → Prop} {A : Nat → Adapter σ} {B : Adapter τ}

/-- The calls through which the memory is reached. -/
def AdapterCall.Memory : AdapterCall → Prop
  | .oncdWrite _ reg nbits =>
    (reg.val = oncdOmar ∨ reg.val = oncdOmdr ∨ reg.val = oncdOscr) ∧ nbits.val = 32 ∨ reg.val = oncdMem ∧ nbits.val = 0
  | .oncdRead reg nbits => (reg.val = oncdOmdr ∨ reg.val = oncdOscr) ∧ nbits.val = 32
  | .readBlock _ _ | .writeBlock _ _ | .writeNwords _ | .programBlock32 _ | .programBlock32Unprotect _
  | .programBlock32Protect _ | .programBlock64 _ | .programBlock32Micron _ _ => True
  | .close | .getIdcode | .cpuStopped | .stopCpu | .resetCpu | .stepCpu | .runCpu => False

/-- The adapters answer the calls through which the memory is reached as the other one does, have
the same of these methods and take blocks of the same size. -/
structure ReachesMemoryAs (R : σ → τ → Prop) (A : Nat → Adapter σ) (B : Adapter τ) : Prop where
  memoryCalls : ∀ call, call.Memory → ∀ s m, Session.Pairs R s m →
    Corresponds (Session.Pairs R) (fun fuel => (A fuel).device call s) (B.device call m)
  blockWords : ∀ fuel, (A fuel).blockWords = B.blockWords
  programBlockWords : ∀ fuel, (A fuel).programBlockWords = B.programBlockWords
  readBlock : ∀ fuel, (A fuel).readBlock.isSome = B.readBlock.isSome
  writeBlock : ∀ fuel, (A fuel).writeBlock.isSome = B.writeBlock.isSome
  writeNwords : ∀ fuel, (A fuel).writeNwords.isSome = B.writeNwords.isSome
  programBlock32 : ∀ fuel, (A fuel).programBlock32.isSome = B.programBlock32.isSome
  programBlock32Unprotect : ∀ fuel, (A fuel).programBlock32Unprotect.isSome = B.programBlock32Unprotect.isSome
  programBlock32Protect : ∀ fuel, (A fuel).programBlock32Protect.isSome = B.programBlock32Protect.isSome
  programBlock64 : ∀ fuel, (A fuel).programBlock64.isSome = B.programBlock64.isSome
  programBlock32Micron : ∀ fuel, (A fuel).programBlock32Micron.isSome = B.programBlock32Micron.isSome

/-- The adapters answer every call as the other one does, and have the methods that it has. -/
structure StandsFor (R : σ → τ → Prop) (A : Nat → Adapter σ) (B : Adapter τ) : Prop
    extends ReachesMemoryAs R A B where
  calls : ∀ call s m, Session.Pairs R s m →
    Corresponds (Session.Pairs R) (fun fuel => (A fuel).device call s) (B.device call m)
  stepCpu : ∀ fuel, (A fuel).stepCpu.isSome = B.stepCpu.isSome
  runCpu : ∀ fuel, (A fuel).runCpu.isSome = B.runCpu.isSome

/-- Sessions that are related through a third one. -/
theorem Session.pairs_comp {υ : Type} {R' : τ → υ → Prop} {s : Session σ} {z : Session υ} :
    Session.Pairs (Relation.Comp R R') s z ↔ Relation.Comp (Session.Pairs R) (Session.Pairs R') s z := by
  constructor
  · rintro ⟨hoscr, t, hs, ht⟩
    exact ⟨⟨s.oscr, t⟩, ⟨rfl, hs⟩, hoscr, ht⟩
  · rintro ⟨m, hs, hm⟩
    exact ⟨hs.1.trans hm.1, m.device, hs.2, hm.2⟩

/-- What the adapters reach as a second one does, they reach as a third one which that one follows. -/
theorem ReachesMemoryAs.trans {υ : Type} {R' : τ → υ → Prop} {C : Adapter υ} (h : ReachesMemoryAs R A B)
    (h' : ReachesMemoryAs R' (fun _ => B) C) : ReachesMemoryAs (Relation.Comp R R') A C where
  memoryCalls call hcall s z hs := by
    obtain ⟨m, hm, hz⟩ := Session.pairs_comp.mp hs
    exact ((h.memoryCalls call hcall s m hm).trans (h'.memoryCalls call hcall m z hz)).mono
      fun _ _ => Session.pairs_comp.mpr
  blockWords fuel := (h.blockWords fuel).trans (h'.blockWords fuel)
  programBlockWords fuel := (h.programBlockWords fuel).trans (h'.programBlockWords fuel)
  readBlock fuel := (h.readBlock fuel).trans (h'.readBlock fuel)
  writeBlock fuel := (h.writeBlock fuel).trans (h'.writeBlock fuel)
  writeNwords fuel := (h.writeNwords fuel).trans (h'.writeNwords fuel)
  programBlock32 fuel := (h.programBlock32 fuel).trans (h'.programBlock32 fuel)
  programBlock32Unprotect fuel := (h.programBlock32Unprotect fuel).trans (h'.programBlock32Unprotect fuel)
  programBlock32Protect fuel := (h.programBlock32Protect fuel).trans (h'.programBlock32Protect fuel)
  programBlock64 fuel := (h.programBlock64 fuel).trans (h'.programBlock64 fuel)
  programBlock32Micron fuel := (h.programBlock32Micron fuel).trans (h'.programBlock32Micron fuel)

/-- The programs of the family track the other one in their sessions. -/
abbrev Follow {ε : Type} (R : σ → τ → Prop) (m : Nat → Program ε (Session σ) Fatal α)
    (m' : Program ε (Session τ) Fatal α) : Prop := Tracks (Session.Pairs R) m m'

/-- The variable of the session is the same on both. -/
theorem follow_getOscr : Follow R (fun _ => getOscr) getOscr := tracks_reading fun _ _ hs => hs.1

/-- The variable of the session is set on both. -/
theorem follow_setOscr (oscr : Word) : Follow R (fun _ => setOscr oscr) (setOscr oscr) :=
  tracks_update fun _ _ hs => ⟨rfl, hs.2⟩

/-- An end with a message makes no call. -/
theorem follow_fatal (status : Int) (text : String) (values : List Word) :
    Follow R (fun _ => (fatal status text values : Action σ α)) (fatal status text values) := tracks_stop _

namespace ReachesMemoryAs

variable (h : ReachesMemoryAs R A B)

include h

/-- A debug register of the memory is written, with all of its bits. -/
theorem oncdWrite (val : Word) {reg nbits : Nat}
    (hreg : (reg = oncdOmar ∨ reg = oncdOmdr ∨ reg = oncdOscr) ∧ nbits = 32 ∨ reg = oncdMem ∧ nbits = 0) :
    Follow R (fun fuel => Mcprog.oncdWrite (A fuel) val reg nbits) (Mcprog.oncdWrite B val reg nbits) := by
  have hlt : reg < 512 := by
    rcases hreg with ⟨rfl | rfl | rfl, -⟩ | ⟨rfl, -⟩ <;> decide
  have hbits : nbits = 0 ∨ nbits = 12 ∨ nbits = 16 ∨ nbits = 32 := by
    rcases hreg with ⟨-, rfl⟩ | ⟨-, rfl⟩ <;> decide
  exact tracks_request _ (h.memoryCalls (.oncdWrite val ⟨reg, hlt⟩ ⟨nbits, hbits⟩) hreg)

/-- A debug register of the memory is read, with all of its bits. -/
theorem oncdRead {reg nbits : Nat} (hreg : (reg = oncdOmdr ∨ reg = oncdOscr) ∧ nbits = 32) :
    Follow R (fun fuel => Mcprog.oncdRead (A fuel) reg nbits) (Mcprog.oncdRead B reg nbits) := by
  have hlt : reg < 512 := by
    rcases hreg with ⟨rfl | rfl, -⟩ <;> decide
  exact tracks_request _ (h.memoryCalls (.oncdRead ⟨reg, hlt⟩ ⟨nbits, .inr (.inr (.inr hreg.2))⟩) hreg)

end ReachesMemoryAs

namespace StandsFor

variable (h : StandsFor R A B)

include h

/-- Any debug register is written, with one of the lengths that there are. -/
theorem oncdWrite (val : Word) {reg nbits : Nat} (hreg : reg < 512)
    (hbits : nbits = 0 ∨ nbits = 12 ∨ nbits = 16 ∨ nbits = 32) :
    Follow R (fun fuel => Mcprog.oncdWrite (A fuel) val reg nbits) (Mcprog.oncdWrite B val reg nbits) :=
  tracks_request _ (h.calls (.oncdWrite val ⟨reg, hreg⟩ ⟨nbits, hbits⟩))

/-- Any debug register is read, with one of the lengths that there are. -/
theorem oncdRead {reg nbits : Nat} (hreg : reg < 512)
    (hbits : nbits = 0 ∨ nbits = 12 ∨ nbits = 16 ∨ nbits = 32) :
    Follow R (fun fuel => Mcprog.oncdRead (A fuel) reg nbits) (Mcprog.oncdRead B reg nbits) :=
  tracks_request _ (h.calls (.oncdRead ⟨reg, hreg⟩ ⟨nbits, hbits⟩))

/-- The adapter is closed. -/
theorem adapterClose (event : Unit → Call) :
    Follow R (fun fuel => adapterCall (A fuel).close event) (adapterCall B.close event) :=
  tracks_request event (h.calls .close)

/-- The number of the processor is asked for. -/
theorem getIdcode (event : Word → Call) :
    Follow R (fun fuel => adapterCall (A fuel).getIdcode event) (adapterCall B.getIdcode event) :=
  tracks_request event (h.calls .getIdcode)

/-- The processor is asked whether it is stopped. -/
theorem cpuStopped (event : Bool → Call) :
    Follow R (fun fuel => adapterCall (A fuel).cpuStopped event) (adapterCall B.cpuStopped event) :=
  tracks_request event (h.calls .cpuStopped)

/-- The processor is stopped. -/
theorem stopCpu (event : Unit → Call) :
    Follow R (fun fuel => adapterCall (A fuel).stopCpu event) (adapterCall B.stopCpu event) :=
  tracks_request event (h.calls .stopCpu)

/-- The processor is reset. -/
theorem resetCpu (event : Unit → Call) :
    Follow R (fun fuel => adapterCall (A fuel).resetCpu event) (adapterCall B.resetCpu event) :=
  tracks_request event (h.calls .resetCpu)

end StandsFor

/-- A method that the adapters have and answer alike, or lack together. -/
def Shared {γ δ ι : Type} (R : σ → τ → Prop) (o : Nat → Option γ) (o' : Option δ) (call : ι → γ → Extension σ α)
    (call' : ι → δ → Extension τ α) : Prop :=
  (∃ (g : Nat → γ) (g' : δ), (∀ fuel, o fuel = some (g fuel)) ∧ o' = some g' ∧
      ∀ args event, Follow R (fun fuel => extension (call args (g fuel)) event) (extension (call' args g') event)) ∨
    ((∀ fuel, o fuel = none) ∧ o' = none)

/-- A method that both have, or neither, and that does the same with the same arguments. -/
theorem shared_of_calls {γ δ ι : Type} {o : Nat → Option γ} {o' : Option δ} {call : ι → γ → Extension σ α}
    {call' : ι → δ → Extension τ α} (h : ∀ fuel, (o fuel).isSome = o'.isSome)
    (hcalls : ∀ args s m, Session.Pairs R s m → Corresponds (Session.Pairs R)
      (fun fuel => optional ((o fuel).map (call args)) s) (optional (o'.map (call' args)) m)) :
    Shared R o o' call call' := by
  rcases optional_cases h with ⟨g, g', hg, hg'⟩ | hnone
  · refine .inl ⟨g, g', hg, hg', fun args event => tracks_request event fun s m hs => ?_⟩
    have hcall := hcalls args s m hs
    simp only [hg, hg'] at hcall
    exact hcall
  · exact .inr hnone

namespace StandsFor

variable (h : StandsFor R A B)

include h

/-- The methods that an adapter may leave out: the step. -/
theorem shared_stepCpu : Shared R (fun fuel => (A fuel).stepCpu) B.stepCpu (fun (_ : Unit) g => g) fun _ g => g :=
  shared_of_calls h.stepCpu fun _ s m hs => by
    simp only [Option.map_id']
    exact h.calls .stepCpu s m hs

/-- The run. -/
theorem shared_runCpu : Shared R (fun fuel => (A fuel).runCpu) B.runCpu (fun (_ : Unit) g => g) fun _ g => g :=
  shared_of_calls h.runCpu fun _ s m hs => by
    simp only [Option.map_id']
    exact h.calls .runCpu s m hs

end StandsFor

namespace ReachesMemoryAs

variable (h : ReachesMemoryAs R A B)

include h

/-- A block that is read. -/
theorem shared_readBlock : Shared R (fun fuel => (A fuel).readBlock) B.readBlock
    (fun (args : Word × Word) g => g args.1 args.2) fun args g => g args.1 args.2 :=
  shared_of_calls h.readBlock fun args => h.memoryCalls (.readBlock args.1 args.2) trivial

/-- A block that is stored. -/
theorem shared_writeBlock : Shared R (fun fuel => (A fuel).writeBlock) B.writeBlock
    (fun (args : Word × List Word) g => g args.1 args.2) fun args g => g args.1 args.2 :=
  shared_of_calls h.writeBlock fun args => h.memoryCalls (.writeBlock args.1 args.2) trivial

/-- Words that are stored, each at an address of its own. -/
theorem shared_writeNwords : Shared R (fun fuel => (A fuel).writeNwords) B.writeNwords
    (fun args g => g args) fun args g => g args :=
  shared_of_calls h.writeNwords fun args => h.memoryCalls (.writeNwords args) trivial

/-- A block that is programmed over a bus of 32 bits. -/
theorem shared_programBlock32 : Shared R (fun fuel => (A fuel).programBlock32) B.programBlock32
    (fun args g => g args) fun args g => g args :=
  shared_of_calls h.programBlock32 fun args => h.memoryCalls (.programBlock32 args) trivial

/-- A page that is programmed, and its protection removed. -/
theorem shared_unprotect : Shared R (fun fuel => (A fuel).programBlock32Unprotect) B.programBlock32Unprotect
    (fun args g => g args) fun args g => g args :=
  shared_of_calls h.programBlock32Unprotect fun args => h.memoryCalls (.programBlock32Unprotect args) trivial

/-- A page that is programmed, and protected. -/
theorem shared_protect : Shared R (fun fuel => (A fuel).programBlock32Protect) B.programBlock32Protect
    (fun args g => g args) fun args g => g args :=
  shared_of_calls h.programBlock32Protect fun args => h.memoryCalls (.programBlock32Protect args) trivial

/-- A block that is programmed over a bus of 64 bits. -/
theorem shared_programBlock64 : Shared R (fun fuel => (A fuel).programBlock64) B.programBlock64
    (fun args g => g args) fun args g => g args :=
  shared_of_calls h.programBlock64 fun args => h.memoryCalls (.programBlock64 args) trivial

/-- A buffer of a Micron chip. -/
theorem shared_micron : Shared R (fun fuel => (A fuel).programBlock32Micron) B.programBlock32Micron
    (fun (args : Word × List Word) g => g args.1 args.2) fun args g => g args.1 args.2 :=
  shared_of_calls h.programBlock32Micron fun args => h.memoryCalls (.programBlock32Micron args.1 args.2) trivial

end ReachesMemoryAs

end Mcprog
