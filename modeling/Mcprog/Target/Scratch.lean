import Mcprog.Target.Mc12

/-!
# What the accesses to registers overwrite

Every register is read by way of the first word of the internal memory, which the global
pointer must address, and most of them by way of the frame pointer. Each access is given with
the registers and the memory that it leaves behind.
-/

namespace Mcprog

open Interaction Program

/-- The first word of the internal memory. -/
def cramWord : WordNo := wordNo (physical cramAddr)

namespace Machine

variable (m : Machine)

/-- A store of the program to an address reaches the first word of the internal memory. -/
def AddressesCram (addr : Word) : Prop := addr &&& 3 = 0 ∧ wordNo (m.translate addr) = cramWord

/-- A register that the debugger knows. -/
def get : Slot → Word
  | .cpu i => m.reg i
  | .cp0 i => m.cp0 i
  | .lo => m.lo
  | .hi => m.hi
  | .fpu i => m.fpu i
  | .fcsr => m.fpuctl cp1Fcsr
  | .fir => m.fpuctl cp1Fir

/-- Assign a register that the debugger can write. -/
def put (slot : Slot) (val : Word) : Machine :=
  match slot with
  | .cpu i => m.setReg i val
  | .cp0 i => { m with cp0 := Function.update m.cp0 i val }
  | .lo => { m with lo := val }
  | .hi => { m with hi := val }
  | .fpu i => { m with fpu := Function.update m.fpu i val }
  | .fcsr => { m with fpuctl := Function.update m.fpuctl cp1Fcsr val }
  | .fir => m

/-- The registers of the processor and of the FPU are stored as they are, the others by way of
the frame pointer. -/
def loaded (slot : Slot) : Machine :=
  match slot with
  | .cpu i => m.setMem cramWord (m.reg i)
  | .fpu i => m.setMem cramWord (m.fpu i)
  | slot => (m.setReg fp (m.get slot)).setMem cramWord (m.get slot)

/-- All registers but those of the processor are written by way of the frame pointer. -/
def stored (slot : Slot) (val : Word) : Machine :=
  match slot with
  | .cpu i => m.setReg i val
  | .fir => m
  | slot => (m.setReg fp val).put slot val

theorem addressesCram_cramAddr : m.AddressesCram cramAddr := by
  have hkseg : (0x80000000 : Word) ≤ cramAddr ∧ cramAddr < 0xC0000000 := by decide
  refine ⟨by decide, ?_⟩
  rw [translate, if_pos hkseg]
  decide

/-- A store to an address of the first word of the internal memory. -/
theorem store_of_addressesCram {addr : Word} (h : m.AddressesCram addr) (val : Word) :
    m.store (addr + BitVec.signExtend 32 (0 : BitVec 16)) val = m.setMem cramWord val := by
  have hadd : addr + BitVec.signExtend 32 (0 : BitVec 16) = addr := BitVec.add_zero addr
  rw [hadd, store, if_pos h.1, h.2]

end Machine

namespace Core

/-- The core after an instruction that is no jump. -/
def settled (m : Machine) : Core := ⟨m, bootAddr + 4⟩

variable (c : Core)

@[simp] theorem exec_nop : c.exec mipsNop = settled c.toMachine := by
  rw [exec_of_decode decode_nop, Machine.step_nop]
  rfl

/-- The registers are loaded by three instructions. -/
theorem exec_load (regno : RegNo) (val : Word) :
    ((c.exec (mipsAddi ||| regField regno 16 ||| (val >>> 16))).exec
      (mipsSll ||| regField regno 11 ||| regField regno 16 ||| (16 <<< 6))).exec
      (mipsOri ||| regField regno 16 ||| regField regno 21 ||| (val &&& 0xffff)) =
      settled (c.setReg regno val) := by
  rw [exec_of_decode (decode_addi regno val), exec_of_decode (decode_sll regno),
    exec_of_decode (decode_ori regno val)]
  exact congrArg settled (c.step_load regno val)

end Core

section Access

variable {b : Bool} {t : Target} {c : Core}

/-- What an instruction stores to the internal memory is loaded from there. -/
theorem readBack_performs {w : Word} {instr : Instr} {val : Word} (hw : decode w = some instr)
    (hstep : c.step instr = c.setMem cramWord val) :
    Performs At (do execAll (mc12 b) [w, mipsNop, mipsNop, mipsNop]
                    targetReadWord (mc12 b) cramAddr) c val
      (.settled (c.setMem cramWord val)) := by
  have hcore : [w, mipsNop, mipsNop, mipsNop].foldl Core.exec c =
      .settled (c.setMem cramWord val) := by
    simp only [List.foldl_cons, List.foldl_nil, Core.exec_nop]
    rw [Core.exec_of_decode hw]
    exact congrArg Core.settled hstep
  have hval : (Core.settled (c.setMem cramWord val)).mem (wordNo (physical cramAddr)) = val := by
    change Function.update c.mem cramWord val cramWord = val
    rw [Function.update_self]
  have hread := targetReadWord_performs (b := b)
    (c := .settled (c.setMem cramWord val)) cramAddr
  rw [hval] at hread
  exact ((execAll_performs _).of_eq hcore).bind hread

/-- A register of the processor is left in the internal memory. -/
theorem targetReadReg_performs (hid : t.idcode = mc12Id) (hgp : c.AddressesCram (c.reg gp))
    (regno : RegNo) : Performs At (targetReadReg (mc12 b) t regno) c (c.reg regno)
      (.settled (c.loaded (.cpu regno))) := by
  rw [targetReadReg, if_neg (not_not.mpr hid)]
  exact readBack_performs (decode_sw regno) (c.store_of_addressesCram hgp _)

/-- A register of the FPU is left in the internal memory. -/
theorem targetReadFpu_performs (hid : t.idcode = mc12Id) (hgp : c.AddressesCram (c.reg gp))
    (regno : RegNo) : Performs At (targetReadFpu (mc12 b) t regno) c (c.fpu regno)
      (.settled (c.loaded (.fpu regno))) := by
  rw [targetReadFpu, if_neg (not_not.mpr hid)]
  exact readBack_performs (decode_swc1 regno) (c.store_of_addressesCram hgp _)

/-- What instructions move to the frame pointer is read from there. -/
theorem readMoved_performs (hid : t.idcode = mc12Id) (hgp : c.AddressesCram (c.reg gp))
    {m : Action Mc12 Unit} {val : Word} (hm : Performs At m c () (.settled (c.setReg fp val))) :
    Performs At (do m; targetReadReg (mc12 b) t fp) c val
      (.settled ((c.setReg fp val).setMem cramWord val)) := by
  have hgp' : (c.setReg fp val).AddressesCram ((c.setReg fp val).reg gp) := by
    rw [Machine.reg_setReg_of_ne _ _ (by decide)]
    exact hgp
  have hread := targetReadReg_performs (b := b) (c := .settled (c.setReg fp val)) hid hgp' fp
  have hval : (Core.settled (c.setReg fp val)).reg fp = val :=
    Machine.reg_setReg_self c.toMachine fp val (by decide)
  rw [Machine.loaded, hval] at hread
  exact hm.bind hread

/-- Instructions of which the first one moves to the frame pointer. -/
theorem move_performs {w : Word} {instr : Instr} {val : Word} (hw : decode w = some instr)
    (hstep : (⟨c.step instr, c.nextPc bootAddr instr⟩ : Core) = .settled (c.setReg fp val)) :
    Performs At (execAll (mc12 b) [w, mipsNop, mipsNop]) c () (.settled (c.setReg fp val)) := by
  refine (execAll_performs _).of_eq ?_
  simp only [List.foldl_cons, List.foldl_nil, Core.exec_nop]
  rw [Core.exec_of_decode hw, hstep]
  rfl

/-- A register that is not cached is read. -/
theorem targetLoadSlot_performs (hid : t.idcode = mc12Id) (hgp : c.AddressesCram (c.reg gp))
    (slot : Slot) : Performs At (targetLoadSlot (mc12 b) t slot) c (c.get slot)
      (.settled (c.loaded slot)) := by
  cases slot with
  | cpu i => exact targetReadReg_performs hid hgp i
  | cp0 i =>
    rw [targetLoadSlot, targetReadCp0, if_neg (not_not.mpr hid)]
    exact readMoved_performs hid hgp (move_performs (decode_mfc0 i) rfl)
  | lo =>
    rw [targetLoadSlot, if_neg (not_not.mpr hid)]
    exact readMoved_performs hid hgp
      ((targetExec_performs _).of_eq (Core.exec_of_decode decode_mflo))
  | hi =>
    rw [targetLoadSlot, if_neg (not_not.mpr hid)]
    exact readMoved_performs hid hgp
      ((targetExec_performs _).of_eq (Core.exec_of_decode decode_mfhi))
  | fpu i => exact targetReadFpu_performs hid hgp i
  | fcsr =>
    rw [targetLoadSlot, targetReadFpuctl, if_neg (not_not.mpr hid)]
    exact readMoved_performs hid hgp (move_performs (decode_cfc1 _) rfl)
  | fir =>
    rw [targetLoadSlot, targetReadFpuctl, if_neg (not_not.mpr hid)]
    exact readMoved_performs hid hgp (move_performs (decode_cfc1 _) rfl)

/-- A register of the processor is loaded by three instructions. -/
theorem targetWriteReg_performs (hid : t.idcode = mc12Id) (regno : RegNo) (val : Word) :
    Performs At (targetWriteReg (mc12 b) t regno val) c () (.settled (c.setReg regno val)) := by
  rw [targetWriteReg, if_neg (not_not.mpr hid)]
  exact (execAll_performs _).of_eq (c.exec_load regno val)

/-- What is loaded to the frame pointer is moved on by an instruction. -/
theorem writeMoved_performs (hid : t.idcode = mc12Id) {instrs : List Word} {val : Word} {m : Machine}
    (hinstrs : instrs.foldl Core.exec (.settled (c.setReg fp val)) = .settled m) :
    Performs At (do targetWriteReg (mc12 b) t fp val; execAll (mc12 b) instrs) c ()
      (.settled m) :=
  (targetWriteReg_performs hid fp val).bind ((execAll_performs instrs).of_eq hinstrs)

/-- A register is written. -/
theorem targetStoreSlot_performs (hid : t.idcode = mc12Id) (slot : Slot) (hfir : slot ≠ .fir)
    (val : Word) : Performs At (targetStoreSlot (mc12 b) t val slot) c ()
      (.settled (c.stored slot val)) := by
  have hval : (Core.settled (c.setReg fp val)).reg fp = val :=
    Machine.reg_setReg_self c.toMachine fp val (by decide)
  cases slot with
  | cpu i => exact targetWriteReg_performs hid i val
  | cp0 i =>
    rw [targetStoreSlot, targetWriteCp0, if_neg (not_not.mpr hid)]
    refine writeMoved_performs hid ?_
    simp only [List.foldl_cons, List.foldl_nil, Core.exec_nop]
    rw [Core.exec_of_decode (decode_mtc0 i), Machine.step, hval]
    rfl
  | lo =>
    rw [targetStoreSlot, targetWriteHilo, if_neg (not_not.mpr hid)]
    refine writeMoved_performs hid ?_
    simp only [List.foldl_cons, List.foldl_nil, Core.exec_nop]
    rw [Core.exec_of_decode decode_mtlo, Machine.step]
    exact congrArg (fun v => Core.settled { (c.setReg fp val) with lo := v }) hval
  | hi =>
    rw [targetStoreSlot, targetWriteHilo, if_neg (not_not.mpr hid)]
    refine writeMoved_performs hid ?_
    simp only [List.foldl_cons, List.foldl_nil, Core.exec_nop]
    rw [Core.exec_of_decode decode_mthi, Machine.step]
    exact congrArg (fun v => Core.settled { (c.setReg fp val) with hi := v }) hval
  | fpu i =>
    rw [targetStoreSlot, targetWriteFpu, if_neg (not_not.mpr hid)]
    refine writeMoved_performs hid ?_
    simp only [List.foldl_cons, List.foldl_nil, Core.exec_nop]
    rw [Core.exec_of_decode (decode_mtc1 i), Machine.step, hval]
    rfl
  | fcsr =>
    rw [targetStoreSlot, targetWriteFpuctl, if_neg (not_not.mpr hid)]
    refine writeMoved_performs hid ?_
    simp only [List.foldl_cons, List.foldl_nil, Core.exec_nop]
    rw [Core.exec_of_decode (decode_ctc1 _), Machine.step, hval]
    rfl
  | fir => exact absurd rfl hfir

end Access

end Mcprog
