import Mcprog.Target.Scratch

/-!
# The pointers and the memory word that the debugger borrows

While the processor is stopped its global pointer, its frame pointer and the first word of its
internal memory are not those of the program. The program that is to be resumed is kept apart
from them: what it has there is cached, or saved.
-/

namespace Mcprog

open Interaction Program

namespace Machine

variable (m : Machine)

/-- The processor with both of the pointers and the memory word in use. -/
def borrow (gpVal fpVal cram : Word) : Machine :=
  ((m.setReg gp gpVal).setReg fp fpVal).setMem cramWord cram

variable {m} {gpVal fpVal cram : Word}

/-- Nothing but the two pointers is borrowed of the registers. -/
theorem get_borrow {slot : Slot} (hgp : slot ≠ .cpu gp) (hfp : slot ≠ .cpu fp) :
    (m.borrow gpVal fpVal cram).get slot = m.get slot := by
  cases slot with
  | cpu i =>
    have hi : i ≠ gp := fun h => hgp (h ▸ rfl)
    have hi' : i ≠ fp := fun h => hfp (h ▸ rfl)
    rw [get, borrow, reg_setMem, reg_setReg_of_ne _ _ hi', reg_setReg_of_ne _ _ hi, get]
  | cp0 => rfl
  | lo => rfl
  | hi => rfl
  | fpu => rfl
  | fcsr => rfl
  | fir => rfl

/-- The borrowed global pointer. -/
theorem reg_gp_borrow : (m.borrow gpVal fpVal cram).reg gp = gpVal := by
  rw [borrow, reg_setMem, reg_setReg_of_ne _ _ (by decide), reg_setReg_self _ _ _ (by decide)]

/-- The frame pointer and the memory word may be overwritten once more. -/
theorem borrow_overwrite (fpVal' cram' : Word) :
    ((m.borrow gpVal fpVal cram).setReg fp fpVal').setMem cramWord cram' =
      m.borrow gpVal fpVal' cram' := by
  rw [borrow, setReg_setMem, setReg_setReg, setMem_setMem, borrow]

/-- A read of a register overwrites what is borrowed, and nothing else. -/
theorem loaded_borrow (slot : Slot) : ∃ fpVal' cram',
    (m.borrow gpVal fpVal cram).loaded slot = m.borrow gpVal fpVal' cram' := by
  cases slot with
  | cpu i => exact ⟨fpVal, _, setMem_setMem _ _ _ _⟩
  | fpu i => exact ⟨fpVal, _, setMem_setMem _ _ _ _⟩
  | cp0 i => exact ⟨_, _, borrow_overwrite _ _⟩
  | lo => exact ⟨_, _, borrow_overwrite _ _⟩
  | hi => exact ⟨_, _, borrow_overwrite _ _⟩
  | fcsr => exact ⟨_, _, borrow_overwrite _ _⟩
  | fir => exact ⟨_, _, borrow_overwrite _ _⟩

/-- A write of a register of the processor is one of the program, and of what is borrowed where
it is one of the pointers. -/
theorem setReg_borrow (i : RegNo) (val : Word) : ∃ fpVal', (m.borrow gpVal fpVal cram).setReg i val =
    (m.setReg i val).borrow (if i = gp then val else gpVal) fpVal' cram := by
  by_cases hgp : i = gp
  · refine ⟨fpVal, ?_⟩
    rw [if_pos hgp, hgp, borrow, setReg_setMem, setReg_comm _ _ _ (by decide), setReg_setReg, borrow,
      setReg_setReg]
  · by_cases hfp : i = fp
    · have hne : fp ≠ gp := by decide
      refine ⟨val, ?_⟩
      rw [if_neg hgp, hfp, borrow, setReg_setMem, setReg_setReg, borrow, setReg_comm m _ _ hne,
        setReg_setReg]
    · refine ⟨fpVal, ?_⟩
      rw [if_neg hgp, borrow, setReg_setMem, setReg_comm _ _ _ (Ne.symm hfp),
        setReg_comm m _ _ (Ne.symm hgp), borrow]

/-- A write of a register is one of the program. -/
theorem stored_borrow (slot : Slot) (val : Word) : ∃ fpVal',
    (m.borrow gpVal fpVal cram).stored slot val =
      (m.put slot val).borrow (if slot = .cpu gp then val else gpVal) fpVal' cram := by
  have hmoved : (m.borrow gpVal fpVal cram).setReg fp val = m.borrow gpVal val cram := by
    rw [borrow, setReg_setMem, setReg_setReg, borrow]
  cases slot with
  | cpu i =>
    simp only [Slot.cpu.injEq]
    exact setReg_borrow i val
  | fir => exact ⟨fpVal, rfl⟩
  | cp0 i => exact ⟨val, congrArg (put · (.cp0 i) val) hmoved⟩
  | lo => exact ⟨val, congrArg (put · .lo val) hmoved⟩
  | hi => exact ⟨val, congrArg (put · .hi val) hmoved⟩
  | fpu i => exact ⟨val, congrArg (put · (.fpu i) val) hmoved⟩
  | fcsr => exact ⟨val, congrArg (put · .fcsr val) hmoved⟩

/-- What is borrowed is given back. -/
theorem borrow_returned : (((m.borrow gpVal fpVal cram).setReg fp (m.reg fp)).setReg gp
    (m.reg gp)).setMem cramWord (m.mem cramWord) = m := by
  have hgp : (m.setReg gp gpVal).setReg gp (m.reg gp) = m := by rw [setReg_setReg, setReg_reg]
  rw [borrow, setReg_setMem, setReg_setReg, setReg_setMem, setMem_setMem,
    setReg_comm _ _ _ (by decide), hgp, setReg_reg, setMem_mem]

/-- What saving the state leaves behind. -/
theorem borrowed_of_saved : ((m.setReg gp cramAddr).loaded (.cpu fp)) =
    m.borrow cramAddr (m.reg fp) (m.reg fp) := by
  have hfp : (m.setReg gp cramAddr).reg fp = m.reg fp := reg_setReg_of_ne _ _ (by decide)
  rw [loaded, hfp, borrow, setReg_comm _ _ _ (by decide), setReg_reg]

end Machine

/-- A cached value is found again, and no other is touched. -/
theorem Target.cached_cache (t : Target) (slot slot' : Slot) (val : Word) :
    (t.cache slot val).cached slot' = if slot' = slot then some val else t.cached slot' := by
  have hget : ∀ (v : Vector Cached 32) (i j : RegNo),
      (v.set i (some val)).get j = if j = i then some val else v.get j := by
    intro v i j
    change (v.set i (some val))[j.val] = if j = i then some val else v[j.val]
    rw [Vector.getElem_set]
    simp only [Fin.ext_iff, eq_comm]
  cases slot with
  | cpu i =>
    cases slot' with
    | cpu j =>
      simp only [Slot.cpu.injEq]
      exact hget t.reg i j
    | _ => rfl
  | cp0 i =>
    cases slot' with
    | cp0 j =>
      simp only [Slot.cp0.injEq]
      exact hget t.regCp0 i j
    | _ => rfl
  | fpu i =>
    cases slot' with
    | fpu j =>
      simp only [Slot.fpu.injEq]
      exact hget t.regFpu i j
    | _ => rfl
  | lo => cases slot' <;> rfl
  | hi => cases slot' <;> rfl
  | fcsr => cases slot' <;> rfl
  | fir => cases slot' <;> rfl

/-- Nothing is cached after the registers have been forgotten. -/
theorem Target.cached_forget (t : Target) (slot : Slot) : t.forget.cached slot = none := by
  have hget : ∀ i : RegNo, (Vector.replicate 32 (none : Cached)).get i = none := by
    intro i
    change (Vector.replicate 32 (none : Cached))[i.val] = none
    rw [Vector.getElem_replicate]
  cases slot with
  | cpu i => exact hget i
  | cp0 i => exact hget i
  | fpu i => exact hget i
  | lo => rfl
  | hi => rfl
  | fcsr => rfl
  | fir => rfl

/-- Caching a register changes nothing else of what an access looks at. -/
theorem Target.cache_frame (t : Target) (slot : Slot) (val : Word) :
    (t.cache slot val).idcode = t.idcode ∧ (t.cache slot val).mem0 = t.mem0 := by
  cases slot with
  | cpu => exact ⟨rfl, rfl⟩
  | cp0 => exact ⟨rfl, rfl⟩
  | lo => exact ⟨rfl, rfl⟩
  | hi => exact ⟨rfl, rfl⟩
  | fpu => exact ⟨rfl, rfl⟩
  | fcsr => exact ⟨rfl, rfl⟩
  | fir => exact ⟨rfl, rfl⟩

namespace Machine

/-- A register that is written is found again, and no other is touched. -/
theorem get_put (m : Machine) {slot : Slot} (hfir : slot ≠ .fir) (hzero : slot ≠ .cpu 0)
    (slot' : Slot) (val : Word) :
    (m.put slot val).get slot' = if slot' = slot then val else m.get slot' := by
  have hupd : ∀ (f : RegNo → Word) (i j : RegNo),
      Function.update f i val j = if j = i then val else f j :=
    fun f i j => Function.update_apply f i val j
  cases slot with
  | cpu i =>
    have hi : i ≠ 0 := fun h => hzero (h ▸ rfl)
    cases slot' with
    | cpu j =>
      simp only [Slot.cpu.injEq]
      by_cases hj : j = i
      · rw [if_pos hj, hj]
        exact m.reg_setReg_self i val hi
      · rw [if_neg hj]
        exact m.reg_setReg_of_ne val hj
    | _ => simp [put, get, setReg, hi]
  | cp0 i =>
    cases slot' with
    | cp0 j =>
      simp only [Slot.cp0.injEq]
      exact hupd m.cp0 i j
    | _ => rfl
  | fpu i =>
    cases slot' with
    | fpu j =>
      simp only [Slot.fpu.injEq]
      exact hupd m.fpu i j
    | _ => rfl
  | lo => cases slot' <;> rfl
  | hi => cases slot' <;> rfl
  | fcsr =>
    cases slot' with
    | fcsr => exact hupd m.fpuctl cp1Fcsr cp1Fcsr
    | fir => exact hupd m.fpuctl cp1Fcsr cp1Fir
    | _ => rfl
  | fir => exact absurd rfl hfir

/-- Register 0 cannot be written. -/
theorem put_zero (m : Machine) (val : Word) : m.put (.cpu 0) val = m := m.setReg_zero val

/-- The memory and the segments are not registers. -/
theorem put_frame (m : Machine) (slot : Slot) (val : Word) :
    (m.put slot val).mem = m.mem ∧ (m.put slot val).mapped = m.mapped := by
  cases slot with
  | cpu i =>
    rw [put, setReg]
    split
    · exact ⟨rfl, rfl⟩
    · exact ⟨rfl, rfl⟩
  | cp0 => exact ⟨rfl, rfl⟩
  | lo => exact ⟨rfl, rfl⟩
  | hi => exact ⟨rfl, rfl⟩
  | fpu => exact ⟨rfl, rfl⟩
  | fcsr => exact ⟨rfl, rfl⟩
  | fir => exact ⟨rfl, rfl⟩

end Machine

/-- A stopped processor whose program is to be resumed with the given registers and memory,
while its own global pointer is the given one. -/
structure Borrowed (program : Machine) (gpVal : Word) (t : Target) (c : Core) : Prop where
  idcode : t.idcode = mc12Id
  stopped : t.isRunning = false
  machine : ∃ fpVal cram, c.toMachine = program.borrow gpVal fpVal cram
  mem0 : t.mem0 = program.mem cramWord
  gpCached : (t.cached (.cpu gp)).isSome
  fpCached : (t.cached (.cpu fp)).isSome
  cached : ∀ slot val, t.cached slot = some val → slot ≠ .cpu 0 → val = program.get slot

namespace Borrowed

variable {b : Bool} {program : Machine} {gpVal : Word} {t : Target} {c : Core}

/-- What the cache knows besides may be replaced. -/
theorem cache (h : Borrowed program gpVal t c) {program' : Machine} {gpVal' : Word} {c' : Core}
    {slot : Slot} {val : Word} (hmachine : ∃ fpVal cram, c'.toMachine = program'.borrow gpVal' fpVal cram)
    (hmem : program'.mem = program.mem) (hval : slot ≠ .cpu 0 → val = program'.get slot)
    (hother : ∀ slot', slot' ≠ slot → program'.get slot' = program.get slot') :
    Borrowed program' gpVal' (t.cache slot val) c' where
  idcode := (t.cache_frame slot val).1.trans h.idcode
  stopped := (t.cache_isRunning slot val).trans h.stopped
  machine := hmachine
  mem0 := by rw [(t.cache_frame slot val).2, hmem, h.mem0]
  gpCached := by
    rw [Target.cached_cache]
    split
    · rfl
    · exact h.gpCached
  fpCached := by
    rw [Target.cached_cache]
    split
    · rfl
    · exact h.fpCached
  cached := by
    intro slot' val' hc hzero
    rw [Target.cached_cache] at hc
    split at hc
    · rename_i heq
      rw [heq, ← Option.some.inj hc]
      exact hval (heq ▸ hzero)
    · rename_i hne
      rw [hother slot' hne]
      exact h.cached slot' val' hc hzero

/-- A register that is not cached is that of the program. -/
theorem loadSlot (h : Borrowed program gpVal t c) {slot : Slot} (hnone : t.cached slot = none)
    (hgp : program.AddressesCram gpVal) : ∃ c',
      Performs At (targetLoadSlot (mc12 b) t slot) c (program.get slot) c' ∧
      Borrowed program gpVal (t.cache slot (program.get slot)) c' := by
  obtain ⟨fpVal, cram, hm⟩ := h.machine
  have hslotGp : slot ≠ .cpu gp := by
    rintro rfl
    simpa [hnone] using h.gpCached
  have hslotFp : slot ≠ .cpu fp := by
    rintro rfl
    simpa [hnone] using h.fpCached
  have hbase : c.AddressesCram (c.reg gp) := by
    rw [hm, Machine.reg_gp_borrow]
    exact hgp
  have hval : c.get slot = program.get slot := by rw [hm, Machine.get_borrow hslotGp hslotFp]
  have hload := targetLoadSlot_performs (b := b) h.idcode hbase slot
  rw [hval] at hload
  obtain ⟨fpVal', cram', hm'⟩ : ∃ fpVal' cram',
      c.loaded slot = program.borrow gpVal fpVal' cram' := by
    rw [hm]
    exact Machine.loaded_borrow slot
  exact ⟨_, hload, h.cache ⟨fpVal', cram', hm'⟩ rfl (fun _ => rfl) fun _ _ => rfl⟩

/-- A register that is written is one of the program. -/
theorem storeSlot (h : Borrowed program gpVal t c) {slot : Slot} (hfir : slot ≠ .fir) (val : Word) :
    ∃ c', Performs At (targetStoreSlot (mc12 b) t val slot) c () c' ∧
      Borrowed (program.put slot val) (if slot = .cpu gp then val else gpVal) (t.cache slot val) c' := by
  obtain ⟨fpVal, cram, hm⟩ := h.machine
  have hstore := targetStoreSlot_performs (b := b) (c := c) h.idcode slot hfir val
  obtain ⟨fpVal', hmachine⟩ : ∃ fpVal', c.stored slot val =
      (program.put slot val).borrow (if slot = .cpu gp then val else gpVal) fpVal' cram := by
    rw [hm]
    exact Machine.stored_borrow slot val
  by_cases hzero : slot = .cpu 0
  · have hput : program.put slot val = program := by rw [hzero, Machine.put_zero]
    rw [hput] at hmachine ⊢
    exact ⟨_, hstore, h.cache ⟨_, _, hmachine⟩ rfl (absurd hzero) fun _ _ => rfl⟩
  · refine ⟨_, hstore, h.cache ⟨_, _, hmachine⟩ (program.put_frame slot val).1 ?_ ?_⟩
    · intro _
      rw [Machine.get_put _ hfir hzero, if_pos rfl]
    · intro slot' hne
      rw [Machine.get_put _ hfir hzero, if_neg hne]

end Borrowed

end Mcprog
