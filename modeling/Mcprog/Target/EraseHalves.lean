import Mcprog.Target.BlockAccess
import Mcprog.Target.EraseAddress

/-!
# Erasing a flash memory of two halves

On a bus of 64 bits the erase commands go to two halves, which are busy each for itself, and one address
is polled. The time is counted in cycles of the memory, so that every order and every delay in which the
halves complete is given by the cycle from which on each of them reads as erased.
-/

namespace Mcprog

open Interaction Program

variable {σ μ : Type}

/-- An adapter in front of a memory. Its method for a list of words, where it has one, stores them one
after the other. -/
structure ServesNwords (A : Adapter σ) (M : AddressSpace μ) extends Serves A M where
  write_nwords : ∀ write, A.writeNwords = some write → ∀ args s, (view s.device).Agrees s.oscr →
    ∃ s', write args s = .ok ((), s') ∧ (view s'.device).Agrees s'.oscr ∧
      (view s'.device).memory = M.storeAll args (view s.device).memory

section Stores

variable {A : Adapter σ} {M : AddressSpace μ} {t : Target} {m : μ}

theorem Serves.writeNexts_performs {S : Serves A M} (args : List (Word × Word)) :
    Performs (S.Allowing false) (writeNexts A t args) m () (M.storeAll (plainArgs args) m) := by
  induction args generalizing m with
  | nil => exact performs_pure _ _
  | cons a args ih => exact (Serves.writeNext_performs a.1 a.2).bind ih

/-- A list of words is stored, by the method of the adapter or word by word. -/
theorem ServesNwords.writeNwords_performs (S : ServesNwords A M) (first : Word × Word)
    (rest : List (Word × Word)) : Performs S.Holds (targetWriteNwords A t first rest) m ()
      (M.storeAll (nwordsArgs A (first :: rest)) m) := by
  intro s hs
  rw [targetWriteNwords, nwordsArgs]
  cases hwrite : A.writeNwords with
  | some write =>
    obtain ⟨s', hstore, hagrees, hmemory⟩ := S.write_nwords write hwrite (first :: rest) s hs.agrees
    exact ⟨s', reaches_request hstore, hagrees, by rw [hmemory, hs.memory]⟩
  | none =>
    obtain ⟨s₁, hr₁, hs₁⟩ := Serves.writeWord_allowing (t := t) first.1 first.2 hs
    obtain ⟨s', hr', hs'⟩ := Serves.writeNexts_performs rest s₁ hs₁
    exact ⟨s', hr₁.bind hr', hs'.1⟩

theorem Serves.eraseWords_performs {S : Serves A M} (base addr cmd : Word) :
    Performs S.Holds (eraseWords A t base addr cmd) m ()
      (M.storeAll (plainArgs (eraseArgs t base addr cmd)) m) :=
  (Serves.writeWord_performs _ _).bind <| (Serves.writeWord_performs _ _).bind <|
    (Serves.writeWord_performs _ _).bind <| (Serves.writeWord_performs _ _).bind <|
      (Serves.writeWord_performs _ _).bind (Serves.writeWord_performs _ _)

/-- The commands of an erase are stored, on a bus that is not byte-wide. -/
theorem ServesNwords.eraseSequence_performs (S : ServesNwords A M) (h8 : t.flashWidth ≠ 8)
    (base addr cmd : Word) : Performs S.Holds (eraseSequence A t base addr cmd) m ()
      (M.storeAll (sequenceArgs A t base addr cmd) m) := by
  rw [eraseSequence, sequenceArgs, if_neg h8, if_neg h8]
  split
  · exact S.writeNwords_performs _ _
  · rw [AddressSpace.storeAll_append]
    refine (Serves.eraseWords_performs base addr cmd).bind ?_
    split
    · exact Serves.eraseWords_performs _ _ _
    · exact performs_pure _ _

end Stores

/-- Two halves that are being erased. Each of them reads as erased from its cycle on, if there is one, and
shows a status before. -/
structure Halves where
  done : Bool → Option Nat
  status : Bool → Nat → Word
  busy : ∀ half n, status half n ≠ 0xffffffff

/-- The half that an address belongs to. -/
def halfOf (addr : Word) : Bool := addr.getLsbD 2

namespace Halves

variable (F : Halves)

/-- The half has completed at a cycle before `now`. -/
def Completed (half : Bool) (now : Nat) : Prop := ∃ n, F.done half = some n ∧ n < now

/-- What a half reads as. -/
def word (half : Bool) (now : Nat) : Word :=
  match F.done half with
  | some n => if n ≤ now then 0xffffffff else F.status half now
  | none => F.status half now

/-- The memory of the two halves. All that is kept is the number of the cycles. -/
def space : AddressSpace Nat where
  store _ _ now := now + 1
  load addr now := (F.word (halfOf addr) now, now + 1)

/-- Whenever half `half` completes, the other one has completed less than `extra` cycles after it or after
the commands, which end at `start`. -/
def Together (half : Bool) (start extra : Nat) : Prop :=
  ∀ n, F.done half = some n → ∃ m, F.done (!half) = some m ∧ m < max n start + extra

variable {F}

/-- A half reads as erased once it has completed. -/
theorem word_eq_iff (half : Bool) (now : Nat) :
    F.word half now = 0xffffffff ↔ ∃ n, F.done half = some n ∧ n ≤ now := by
  rw [word]
  cases hdone : F.done half with
  | none => exact iff_of_false (F.busy half now) (by simp)
  | some n =>
    dsimp only
    by_cases hle : n ≤ now
    · rw [if_pos hle]
      exact iff_of_true rfl ⟨n, rfl, hle⟩
    · rw [if_neg hle]
      exact iff_of_false (F.busy half now) (by simp [hle])

/-- Every store takes a cycle. -/
theorem storeAll_space (args : List (Word × Word)) (now : Nat) :
    F.space.storeAll args now = now + args.length := by
  induction args generalizing now with
  | nil => rfl
  | cons a args ih =>
    rw [AddressSpace.storeAll_cons, ih, List.length_cons]
    change now + 1 + args.length = _
    omega

end Halves

section Polling

variable {A : Adapter σ} {F : Halves} {S : Serves A F.space} {now start n e : Nat} {addr : Word}

/-- A poll shows a half, and takes a cycle. -/
theorem readHalf_performs (addr : Word) : Performs S.Holds (targetReadWord A addr) now
    (F.word (halfOf (physical addr)) now) (now + 1) := Serves.readWord_performs addr

/-- The polled half is found erased at its first poll from its cycle on. -/
theorem waitErased_performs (hdone : F.done (halfOf (physical addr)) = some n) {fuel : Nat}
    (hfuel : max n now < now + fuel) :
    Performs S.Holds (waitErased A addr fuel) now () (max n now + 1) := by
  induction fuel generalizing now with
  | zero => omega
  | succ fuel ih =>
    refine (readHalf_performs addr).bind ?_
    have hword := F.word_eq_iff (halfOf (physical addr)) now
    by_cases hle : n ≤ now
    · rw [if_pos (hword.mpr ⟨n, hdone, hle⟩), max_eq_right hle]
      exact performs_pure _ _
    · have hbusy : ¬ F.word (halfOf (physical addr)) now = 0xffffffff := by
        intro h
        obtain ⟨m, hm, hmn⟩ := hword.mp h
        rw [hdone] at hm
        exact hle (Option.some.inj hm ▸ hmn)
      have hnow : max n now = n := max_eq_left (by omega)
      have hnext : max n (now + 1) = n := max_eq_left (by omega)
      rw [hnow] at hfuel
      rw [if_neg hbusy, hnow, ← hnext]
      exact ih (by rw [hnext]; omega)

/-- A run that finds the memory erased has waited for the polled half. -/
theorem waitErased_completed {fuel : Nat} {s s' : Session σ} (hs : S.Holds now s)
    (h : (waitErased A addr fuel).Reaches s () s') :
    ∃ n, F.done (halfOf (physical addr)) = some n ∧ S.Holds (max n now + 1) s' := by
  induction fuel generalizing now s with
  | zero =>
    obtain ⟨tr, h⟩ := h
    exact absurd h not_returns_stop
  | succ fuel ih =>
    obtain ⟨s₁, h₁, hs₁⟩ := readHalf_performs addr s hs
    have hrest := h₁.continues.reaches_iff.mp h
    have hword := F.word_eq_iff (halfOf (physical addr)) now
    by_cases herased : F.word (halfOf (physical addr)) now = 0xffffffff
    · obtain ⟨n, hn, hle⟩ := hword.mp herased
      rw [if_pos herased] at hrest
      obtain ⟨-, rfl⟩ := hrest.unique (reaches_pure () s₁)
      exact ⟨n, hn, by rwa [max_eq_right hle]⟩
    · rw [if_neg herased] at hrest
      obtain ⟨n, hn, hs'⟩ := ih hs₁ hrest
      have hlt : ¬ n ≤ now := fun hle => herased (hword.mpr ⟨n, hn, hle⟩)
      have hnow : max n now = n := max_eq_left (by omega)
      have hnext : max n (now + 1) = n := max_eq_left (by omega)
      exact ⟨n, hn, by rwa [hnext, ← hnow] at hs'⟩

/-- An erase that gives its commands, polls one address and makes `e` more cycles answers only after both
halves have completed if and only if they complete together. -/
theorem completed_iff {commands : Action σ Unit} {rest : Action σ Bool} {s : Session σ}
    (hcommands : Performs S.Holds commands now () start)
    (hrest : ∀ now, Performs S.Holds rest now true (now + e)) (hs : S.Holds now s) :
    (∀ fuel s', (commands >>= fun _ => waitErased A addr fuel >>= fun _ => rest).Reaches s true s' →
        ∀ half, F.Completed half (S.view s'.device).memory) ↔
      F.Together (halfOf (physical addr)) start (e + 1) := by
  obtain ⟨s₁, h₁, hs₁⟩ := hcommands s hs
  constructor
  · intro h n hn
    have hfuel : max n start < start + (max n start + 1) := by omega
    obtain ⟨s₂, h₂, hs₂⟩ := waitErased_performs hn hfuel s₁ hs₁
    obtain ⟨s₃, h₃, hs₃⟩ := hrest _ s₂ hs₂
    obtain ⟨m, hm, hlt⟩ := h _ s₃ (h₁.bind (h₂.bind h₃)) (!halfOf (physical addr))
    rw [hs₃.memory] at hlt
    exact ⟨m, hm, by omega⟩
  · intro h fuel s' hr half
    obtain ⟨tr, hr⟩ := h₁.continues.reaches_iff.mp hr
    obtain ⟨_, tr₁, s₂, tr₂, h₂, h₃, rfl⟩ := returns_bind_iff.mp hr
    obtain ⟨n, hn, hs₂⟩ := waitErased_completed hs₁ h₂.reaches
    obtain ⟨s₃, hr₃, hs₃⟩ := hrest _ s₂ hs₂
    obtain ⟨-, rfl⟩ := h₃.reaches.unique hr₃
    rw [Halves.Completed, hs₃.memory]
    by_cases hhalf : half = halfOf (physical addr)
    · exact ⟨n, hhalf ▸ hn, by omega⟩
    · obtain ⟨m, hm, hlt⟩ := h n hn
      obtain rfl : half = !halfOf (physical addr) := Bool.eq_not.mpr hhalf
      exact ⟨m, hm, by omega⟩

end Polling

/-- How many stores the commands of an erase take. -/
def Target.commandCycles (t : Target) : Nat := if t.flashDelay ≠ 0 then 6 else 12

section Erases

variable {A : Adapter σ} {t : Target} {r : FlashRegion} {addr : Word}

theorem length_sequenceArgs (h64 : t.flashWidth = 64) (base addr cmd : Word) :
    (sequenceArgs A t base addr cmd).length = t.commandCycles := by
  have h8 : ¬ (64 : Word) = 8 := by decide
  rw [sequenceArgs, Target.commandCycles, h64, if_neg h8]
  by_cases hdelay : t.flashDelay = 0
  · rw [if_neg (not_not.mpr hdelay), if_neg (not_not.mpr hdelay), if_pos rfl]
    rfl
  · rw [if_pos hdelay, if_pos hdelay, nwordsArgs]
    cases A.writeNwords with
    | none => rfl
    | some write => rfl

/-- The steps of a chip erase with the AMD commands. -/
theorem targetErase_amd (hamd : t.micronComSet = false) (hr : t.findRegion (physical addr) = some r)
    (fuel : Nat) : targetErase A t addr fuel =
      eraseSequence A t r.base (r.base + t.flashAddrOdd) t.flashCmd10 >>= fun _ =>
        waitErased A r.base fuel >>= fun _ => pure true := by
  have hbase : (t.computeBase addr : Action σ Word) = pure r.base := by rw [Target.computeBase, hr]
  rw [targetErase, hbase, pure_bind, hamd, if_neg Bool.false_ne_true]
  simp only [pure_bind]
  rfl

/-- The steps of a sector erase with the AMD commands. -/
theorem targetEraseSector_amd (hamd : t.micronComSet = false)
    (hr : t.findRegion (physical addr) = some r) (fuel : Nat) : targetEraseSector A t addr fuel =
      eraseSequence A t r.base (sectorAddress r.base addr) t.flashCmd30 >>= fun _ =>
        waitErased A (sectorAddress r.base addr) fuel >>= fun _ =>
          targetReadWord A mcCscon3 >>= fun _ => pure true := by
  have hbase : (t.computeBase addr : Action σ Word) = pure r.base := by rw [Target.computeBase, hr]
  rw [targetEraseSector, hbase, pure_bind]
  dsimp only
  rw [hamd, if_neg Bool.false_ne_true]
  rfl

/-- Both erases of a 64-bit memory answer only after both halves have completed, for every delay, if and
only if the half that is not polled completes with the other one. -/
theorem targetErase_completed_iff {F : Halves} (S : ServesNwords A F.space) (h64 : t.flashWidth = 64)
    (hamd : t.micronComSet = false) (hr : t.findRegion (physical addr) = some r) {now : Nat}
    {s : Session σ} (hs : S.Holds now s) :
    ((∀ fuel s', (targetErase A t addr fuel).Reaches s true s' →
        ∀ half, F.Completed half (S.view s'.device).memory) ↔
      F.Together (halfOf (physical r.base)) (now + t.commandCycles) 1) ∧
    ((∀ fuel s', (targetEraseSector A t addr fuel).Reaches s true s' →
        ∀ half, F.Completed half (S.view s'.device).memory) ↔
      F.Together (halfOf (physical (sectorAddress r.base addr))) (now + t.commandCycles) 2) := by
  have h8 : t.flashWidth ≠ 8 := by
    rw [h64]
    decide
  have hcommands : ∀ base addr cmd, Performs S.Holds (eraseSequence A t base addr cmd) now ()
      (now + t.commandCycles) := by
    intro base addr cmd
    have hstores := S.eraseSequence_performs (m := now) h8 base addr cmd
    rwa [Halves.storeAll_space, length_sequenceArgs h64] at hstores
  constructor
  · simp only [targetErase_amd hamd hr]
    exact completed_iff (hcommands _ _ _) (fun _ => performs_pure _ _) hs
  · simp only [targetEraseSector_amd hamd hr]
    exact completed_iff (hcommands _ _ _)
      (fun _ => (Serves.readWord_performs mcCscon3).bind (performs_pure _ _)) hs

end Erases

/-- The simplest device in front of a memory has no method for a list of words. -/
def memoryAdapter_servesNwords (M : AddressSpace μ) : ServesNwords (memoryAdapter M false false) M where
  toServes := memoryAdapter_serves M false false
  write_nwords _ h := absurd h (by simp [memoryAdapter])

/-- A board with four 16-bit chips. -/
def fourChips : Target :=
  { Target.allocated with
    toFlashVariant := flashVariant 1
    flash := Target.allocated.setRegion ⟨0, nflash_pos⟩ ⟨0x1FC00000, 0x1FFFFFFF⟩ }

/-- Halves that are done at two cycles. -/
def halvesDone (low high : Nat) : Halves where
  done half := some (if half then high else low)
  status _ _ := 0x00800080
  busy _ _ := by decide

/-- The high half is done before the low one is. -/
theorem fourChips_completed_iff :
    ((∀ fuel s', (targetErase (memoryAdapter (halvesDone 20 15).space false false) fourChips 0xBFC00000
          fuel).Reaches (idleSession 0) true s' →
        ∀ half, (halvesDone 20 15).Completed half s'.device.memory) ↔
      (halvesDone 20 15).Together (halfOf (physical 0x1FC00000)) (0 + fourChips.commandCycles) 1) ∧
    ((∀ fuel s', (targetEraseSector (memoryAdapter (halvesDone 20 15).space false false) fourChips
          0xBFC00000 fuel).Reaches (idleSession 0) true s' →
        ∀ half, (halvesDone 20 15).Completed half s'.device.memory) ↔
      (halvesDone 20 15).Together (halfOf (physical (sectorAddress 0x1FC00000 0xBFC00000)))
        (0 + fourChips.commandCycles) 2) :=
  targetErase_completed_iff (r := ⟨0x1FC00000, 0x1FFFFFFF⟩) (memoryAdapter_servesNwords _) rfl rfl (by decide)
    (idleSession_holds _ false false 0)

/-- The high half is done at the hundredth cycle, and both erases answer long before. -/
theorem fourChips_half_busy :
    (∃ s', (targetErase (memoryAdapter (halvesDone 13 100).space false false) fourChips 0xBFC00000
        2).Reaches (idleSession 0) true s' ∧ s'.device.memory = 14 ∧
        ¬ (halvesDone 13 100).Completed true s'.device.memory) ∧
      ∃ s', (targetEraseSector (memoryAdapter (halvesDone 13 100).space false false) fourChips 0xBFC00000
        2).Reaches (idleSession 0) true s' ∧ s'.device.memory = 15 ∧
        ¬ (halvesDone 13 100).Completed true s'.device.memory := by
  have hbusy : ∀ now ≤ 100, ¬ (halvesDone 13 100).Completed true now := by
    rintro now hnow ⟨n, hn, hlt⟩
    obtain rfl := Option.some.inj hn
    exact absurd hlt (by simp; omega)
  have hreaches : ∀ (m : Action (MemoryInterface Nat) Bool) (now : Nat), now ≤ 100 →
      (m (idleSession 0)).result.toOption.map id = some true →
      (m (idleSession 0)).state.device.memory = now → ∃ s', m.Reaches (idleSession 0) true s' ∧
        s'.device.memory = now ∧ ¬ (halvesDone 13 100).Completed true s'.device.memory := by
    intro m now hnow hresult hmemory
    obtain ⟨a, tr, s', hr, rfl⟩ := exists_returns hresult
    rw [show m (idleSession 0) = _ from hr] at hmemory
    exact ⟨s', hr.reaches, hmemory, hmemory ▸ hbusy now hnow⟩
  exact ⟨hreaches _ 14 (by decide) (by decide +kernel) (by decide +kernel),
    hreaches _ 15 (by decide) (by decide +kernel) (by decide +kernel)⟩

end Mcprog
