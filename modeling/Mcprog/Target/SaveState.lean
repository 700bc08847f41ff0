import Mcprog.Target.Borrow

/-!
# Saving and restoring the processor of 2005

Saving the state borrows the pointers and the memory word from whatever the processor holds,
restoring it gives them back.
-/

namespace Mcprog

open Interaction Program

variable {b : Bool} {t : Target} {c : Core}

theorem gp_ne_fp : gp ≠ fp := by decide

/-- A drained pipeline has no exception under way. -/
theorem drainPipeline_performs (n : Nat) : ∃ c', c'.toMachine = c.toMachine ∧
    Performs At (drainPipeline (mc12 b) n noException) c noException c' := by
  induction n generalizing c with
  | zero => exact ⟨c, rfl, performs_pure _ c⟩
  | succ n ih =>
    obtain ⟨c', hc', hrest⟩ := ih (c := .settled c.toMachine)
    refine ⟨c', hc', ((targetExec_performs mipsNop).of_eq c.exec_nop).bind ?_⟩
    rw [if_pos rfl]
    refine (oncdRead_performs_pc 32).bind ?_
    have hpc : (Core.settled c.toMachine).pc = bootAddr + 4 := rfl
    rw [hpc, if_neg (not_not.mpr rfl)]
    exact hrest

theorem pendingException_performs (pcExec : Word) : ∃ c', c'.toMachine = c.toMachine ∧
    Performs At (pendingException (mc12 b) pcExec) c noException c' := by
  unfold pendingException
  split
  · exact drainPipeline_performs 3
  · exact ⟨c, rfl, performs_pure _ c⟩

/-- The pointers and the memory word are kept before they are overwritten. -/
theorem saveScratch_performs (hid : t.idcode = mc12Id) :
    Performs At (saveScratch (mc12 b) t) c
      (({ t with mem0 := c.mem cramWord }.cache (.cpu gp) (c.reg gp)).cache (.cpu fp) (c.reg fp))
      (.settled (c.borrow cramAddr (c.reg fp) (c.reg fp))) := by
  have hjump : [mipsNop, mipsNop, mipsJr ||| regField gp 21].foldl Core.exec c =
      ⟨c.toMachine, c.reg gp⟩ := by
    simp only [List.foldl_cons, List.foldl_nil, Core.exec_nop]
    rw [Core.exec_of_decode decode_jr]
    rfl
  have hlui : [mipsLui ||| regField gp 16 ||| (cramAddr >>> 16) ||| 0x8000, mipsNop, mipsNop].foldl
      Core.exec ⟨c.toMachine, c.reg gp⟩ = .settled (c.setReg gp cramAddr) := by
    have hval : BitVec.zeroExtend 32 (0xb800 : BitVec 16) <<< 16 = cramAddr := by decide
    simp only [List.foldl_cons, List.foldl_nil, Core.exec_nop]
    rw [Core.exec_of_decode decode_lui, Machine.step, hval]
    rfl
  have hgp : (c.setReg gp cramAddr).AddressesCram ((c.setReg gp cramAddr).reg gp) := by
    rw [Machine.reg_setReg_self _ _ _ (by decide)]
    exact Machine.addressesCram_cramAddr _
  have hread := targetReadReg_performs (b := b) (c := .settled (c.setReg gp cramAddr)) hid hgp fp
  have hfp : (Core.settled (c.setReg gp cramAddr)).reg fp = c.reg fp :=
    Machine.reg_setReg_of_ne c.toMachine cramAddr gp_ne_fp.symm
  have hborrow : (Core.settled (c.setReg gp cramAddr)).loaded (.cpu fp) =
      c.borrow cramAddr (c.reg fp) (c.reg fp) := Machine.borrowed_of_saved
  rw [hfp, hborrow] at hread
  exact (targetReadWord_performs cramAddr).bind (((execAll_performs _).of_eq hjump).bind
    ((oncdRead_performs_pc 32).bind (((execAll_performs _).of_eq hlui).bind
      (hread.bind (performs_pure _ _)))))

/-- What has been saved is the program of the processor. -/
theorem borrowed_saveScratch (hid : t.idcode = mc12Id) (hstopped : t.isRunning = false)
    (hnone : ∀ slot, t.cached slot = none) {program : Machine} (hc : c.toMachine = program) :
    Borrowed program cramAddr
      (({ t with mem0 := c.mem cramWord }.cache (.cpu gp) (c.reg gp)).cache (.cpu fp) (c.reg fp))
      (.settled (c.borrow cramAddr (c.reg fp) (c.reg fp))) := by
  have hne : Slot.cpu gp ≠ Slot.cpu fp := by decide
  subst hc
  constructor
  · exact hid
  · exact hstopped
  · exact ⟨c.reg fp, c.reg fp, rfl⟩
  · rfl
  · rw [Target.cached_cache, if_neg hne, Target.cached_cache, if_pos rfl]
    rfl
  · rw [Target.cached_cache, if_pos rfl]
    rfl
  · intro slot val hcached _
    rw [Target.cached_cache, Target.cached_cache] at hcached
    split_ifs at hcached with hfp hgp
    · rw [hfp, ← Option.some.inj hcached]
      rfl
    · rw [hgp, ← Option.some.inj hcached]
      rfl
    · exact absurd ((hnone slot).symm.trans hcached) (by simp)

/-- The registers that are cached by `target_save_state` alone. -/
theorem cached_saveScratch (hnone : ∀ slot, t.cached slot = none) (gpVal fpVal cram : Word) (slot : Slot) :
    ((({ t with mem0 := cram }.cache (.cpu gp) gpVal).cache (.cpu fp) fpVal).cached slot).isSome ↔
      slot = .cpu gp ∨ slot = .cpu fp := by
  have hnone' : ({ t with mem0 := cram } : Target).cached slot = none := by
    rw [← hnone slot]
    cases slot <;> rfl
  rw [Target.cached_cache, Target.cached_cache, hnone']
  by_cases hfp : slot = .cpu fp
  · simp [hfp]
  · by_cases hgp : slot = .cpu gp
    · simp [hgp, gp_ne_fp]
    · simp [hfp, hgp]

/-- Saving borrows from whatever the processor holds. -/
theorem targetSaveState_reaches (hid : t.idcode = mc12Id) (hstopped : t.isRunning = false)
    (s : Session Mc12) : ∃ t' s' c', (targetSaveState (mc12 b) t).Reaches s t' s' ∧ At c' s' ∧
      Borrowed s.device.machine cramAddr t' c' ∧
      ∀ slot, (t'.cached slot).isSome ↔ slot = .cpu gp ∨ slot = .cpu fp := by
  let c₀ : Core := ⟨s.device.machine, s.device.pcFetch⟩
  have hs₁ : At c₀ { s with oscr := s.device.read oncdOscr } := ⟨rfl, rfl, rfl⟩
  have hready₁ : ∀ x, HasRdym x → HasRdym ((x &&& ~~~oscrNds) ||| oscrNfexp) := by
    intro x hx
    rw [hasRdym_iff] at *
    simp [hx, oscrNds]
  have hready₂ : ∀ x, HasRdym x → HasRdym ((x &&& ~~~oscrNfexp) ||| oscrDbm) := by
    intro x hx
    rw [hasRdym_iff] at *
    simp [hx, oscrNfexp]
  obtain ⟨c₂, hc₂, hpending⟩ := pendingException_performs (b := b) (c := c₀)
    (s.device.read oncdPCexec)
  let saved : Target := { t with
    pcFetch := s.device.read oncdPCfetch
    pcDec := s.device.read oncdPCdec
    irDec := s.device.read oncdIRdec
    pcExec := s.device.read oncdPCexec
    exception := noException }
  have hnone : ∀ slot, saved.forget.cached slot = none := saved.cached_forget
  have hborrowed := borrowed_saveScratch (t := saved.forget) hid hstopped hnone hc₂
  obtain ⟨s₂, hr₂, hs₂⟩ := changeOscr_performs (b := b) hready₁ _ hs₁
  obtain ⟨s₃, hr₃, hs₃⟩ := hpending _ hs₂
  obtain ⟨s₄, hr₄, hs₄⟩ := changeOscr_performs (b := b) hready₂ _ hs₃
  obtain ⟨s₅, hr₅, hs₅⟩ := saveScratch_performs (b := b) (t := saved.forget) hid _ hs₄
  refine ⟨_, s₅, _, ?_, hs₅, hborrowed, cached_saveScratch hnone _ _ _⟩
  refine (reaches_oncdRead _ _ s).bind ((reaches_oncdRead _ _ s).bind ((reaches_oncdRead _ _ s).bind
    ((reaches_oncdRead _ _ s).bind ((reaches_oncdRead _ _ s).bind ((reaches_setOscr _ s).bind
      (hr₂.bind (hr₃.bind (hr₄.bind ?_))))))))
  rw [if_pos hid]
  exact hr₅

/-- A running processor is stopped, and its pointers and memory word are borrowed. -/
theorem targetStop_reaches (hid : t.idcode = mc12Id) (hrun : t.isRunning = true) (s : Session Mc12) :
    ∃ t' s' c', (targetStop (mc12 b) t).Reaches s t' s' ∧ At c' s' ∧
      Borrowed s.device.machine cramAddr t' c' ∧
      ∀ slot, (t'.cached slot).isSome ↔ slot = .cpu gp ∨ slot = .cpu fp := by
  let s₁ : Session Mc12 := { s with device := { s.device with running := false } }
  have hstop : (adapterCall (mc12 b).stopCpu fun _ => .stopCpu).Reaches s () s₁ :=
    reaches_request rfl
  obtain ⟨t₂, s₂, c₂, hr₂, hs₂, hborrowed, hcached⟩ := targetSaveState_reaches (b := b)
    (t := { t with isRunning := false }) hid rfl s₁
  obtain ⟨s₃, hr₃, hs₃⟩ := targetReadWord_performs (b := b) mcCscon3 _ hs₂
  let t₃ : Target := { t₂ with
    cscon3 := c₂.mem (wordNo (physical mcCscon3)) &&& ~~~mcCscon3Addr 3 }
  have hcached₃ : ∀ slot, t₃.cached slot = t₂.cached slot := by
    intro slot
    cases slot <;> rfl
  refine ⟨t₃, s₃, c₂, ?_, hs₃, ?_, ?_⟩
  · rw [targetStop, if_pos hrun]
    exact (hstop.mapEvents _).bind (((reaches_emit _ _).bind (hr₂.mapEvents _)).bind
      ((hr₃.mapEvents _).bind (reaches_pure _ _)))
  · constructor
    · exact hborrowed.idcode
    · exact hborrowed.stopped
    · exact hborrowed.machine
    · exact hborrowed.mem0
    · rw [hcached₃]
      exact hborrowed.gpCached
    · rw [hcached₃]
      exact hborrowed.fpCached
    · intro slot val
      rw [hcached₃]
      exact hborrowed.cached slot val
  · intro slot
    rw [hcached₃]
    exact hcached slot

/-- The pointers and the memory word are given back to the program. -/
theorem restoreScratch_performs {program : Machine} {gpVal : Word} (h : Borrowed program gpVal t c) :
    ∃ c', c'.toMachine = program ∧ Performs At (restoreScratch (mc12 b) t) c () c' := by
  have hvalue : ∀ i : RegNo, i ≠ 0 → (t.cached (.cpu i)).isSome →
      (t.cached (.cpu i)).getD 0 = program.reg i := by
    intro i hi hsome
    obtain ⟨val, hval⟩ := Option.isSome_iff_exists.mp hsome
    rw [hval]
    exact h.cached (.cpu i) val hval fun heq => hi (Slot.cpu.inj heq)
  obtain ⟨fpVal, cram, hm⟩ := h.machine
  refine ⟨_, ?_, (targetWriteReg_performs h.idcode fp _).bind
    ((targetWriteReg_performs h.idcode gp _).bind (targetWriteWord_performs h.stopped cramAddr t.mem0))⟩
  rw [hvalue fp (by decide) h.fpCached, hvalue gp (by decide) h.gpCached, h.mem0]
  change ((c.setReg fp _).setReg gp _).setMem cramWord _ = program
  rw [hm]
  exact Machine.borrow_returned

/-- An empty instruction, wherever it is fetched from, changes nothing but the stages. -/
theorem feed_nop {s : Session Mc12} (hs : At c s) (addr : Word) :
    At { c with pc := addr + 4 } { s with device := s.device.feed addr mipsNop } := by
  have hfeed : s.device.feed addr mipsNop =
      { s.device with pcFetch := addr + 4, irDec := mipsNop } := by
    rw [Mc12.feed_eq, Mc12.clock]
    dsimp only
    rw [decode_nop]
    dsimp only
    rw [Machine.step_nop]
    rfl
  rw [hfeed]
  exact ⟨hs.oscr, hs.machine, rfl⟩

/-- Bringing back the stages leaves the registers and the memory alone. -/
theorem restorePipeline_reaches {s : Session Mc12} (hs : At c s) : ∃ s' c',
    c'.toMachine = c.toMachine ∧ (restorePipeline (mc12 b) t).Reaches s () s' ∧ At c' s' := by
  by_cases he : t.exception = noException
  · have hs' := feed_nop hs t.pcDec
    let s' : Session Mc12 := { s with device :=
      ((s.device.feed t.pcDec mipsNop).write t.irDec oncdIRdec).write t.pcFetch oncdPCfetch }
    refine ⟨s', { c with pc := t.pcFetch }, rfl, ?_, ⟨hs'.oscr, hs'.machine, rfl⟩⟩
    rw [restorePipeline, if_pos he]
    exact (reaches_oncdWrite _ _ _ _).bind ((reaches_oncdWrite _ _ _ _).bind
      ((reaches_oncdWrite _ _ _ _).bind ((reaches_oncdWrite _ _ _ _).bind
        (reaches_oncdWrite _ _ _ _))))
  · refine ⟨_, { c with pc := t.exception + 4 }, rfl, ?_, feed_nop hs t.exception⟩
    rw [restorePipeline, if_neg he]
    exact (reaches_oncdWrite _ _ _ _).bind ((reaches_oncdWrite _ _ _ _).bind
      (reaches_oncdWrite _ _ _ _))

/-- Restoring the state leaves the program in the processor. -/
theorem targetRestoreState_reaches {program : Machine} {gpVal : Word} {s : Session Mc12}
    (h : Borrowed program gpVal t c) (hs : At c s) : ∃ s',
    (targetRestoreState (mc12 b) t).Reaches s () s' ∧ s'.device.machine = program := by
  have hready : ∀ x, HasRdym x → HasRdym ((x ||| oscrNds) &&& ~~~oscrDbm) := by
    intro x hx
    rw [hasRdym_iff] at *
    simp [hx, oscrDbm]
  obtain ⟨c₁, hc₁, hscratch⟩ := restoreScratch_performs (b := b) h
  obtain ⟨s₁, hr₁, hs₁⟩ := hscratch s hs
  obtain ⟨s₂, hr₂, hs₂⟩ := execAll_performs (b := b) [mipsNop, mipsNop, mipsNop] s₁ hs₁
  obtain ⟨s₃, c₃, hc₃, hr₃, hs₃⟩ := restorePipeline_reaches (b := b) (t := t) hs₂
  obtain ⟨s₄, hr₄, hs₄⟩ := changeOscr_performs (b := b) hready s₃ hs₃
  have hnops : ([mipsNop, mipsNop, mipsNop].foldl Core.exec c₁).toMachine = c₁.toMachine := by
    simp only [List.foldl_cons, List.foldl_nil, Core.exec_nop]
    rfl
  refine ⟨s₄, ?_, ?_⟩
  · unfold targetRestoreState
    rw [if_pos h.idcode]
    exact hr₁.bind (hr₂.bind (hr₃.bind hr₄))
  · rw [hs₄.machine, hc₃, hnops, hc₁]

/-- The program is resumed with its own registers and memory. -/
theorem targetResume_reaches {program : Machine} {gpVal : Word} {s : Session Mc12}
    (h : Borrowed program gpVal t c) (hs : At c s) : ∃ t' s',
    (targetResume (mc12 b) t).Reaches s t' s' ∧ s'.device.machine = program ∧
      s'.device.running = true := by
  obtain ⟨s₁, hr₁, hs₁⟩ := targetRestoreState_reaches (b := b) h hs
  refine ⟨{ t with isRunning := true }, { s₁ with device := s₁.device.resume }, ?_, hs₁, rfl⟩
  rw [targetResume, h.stopped, if_neg Bool.false_ne_true]
  have hrun : (runProgram (mc12 b)).Reaches s₁ () { s₁ with device := s₁.device.resume } := by
    refine (reaches_emit _ _).bind ?_
    cases b with
    | false => exact (reaches_oncdWrite _ _ _ _).mapEvents _
    | true => exact Reaches.mapEvents (reaches_request rfl) _
  exact ((reaches_emit _ _).bind (hr₁.mapEvents _)).bind (hrun.bind (reaches_pure _ _))

end Mcprog
