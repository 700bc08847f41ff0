import Mcprog.Oncd.Instructions
import Mcprog.Target.Memory

/-!
# Registers of the stopped processor

Registers are read and written by feeding instructions to the pipeline, or on the newer
processors through the register `REGF`. What has been read or written is cached.
-/

namespace Mcprog

open Interaction

variable {σ : Type}

/-- The id code of the oldest processor, of 2005. -/
def mc12Id : Word := 0x20777001

/-- `exception` where there is none. -/
def noException : Word := 0xffffffff

/-- Run one instruction. -/
def targetExec (A : Adapter σ) (instr : Word) : Action σ Unit := do
  oncdWrite A bootAddr oncdPCfetch 32
  oncdWrite A instr oncdIRdec 32
  oncdWrite A 0 (oncdGo ||| irdFlushPipe ||| irdStep1Clk) 0

/-- Run instructions. -/
def execAll (A : Adapter σ) : List Word → Action σ Unit
  | [] => pure ()
  | instr :: instrs => do
    targetExec A instr
    execAll A instrs

/-- Read an object behind `REGF`. -/
def regfRead (A : Adapter σ) (group : Word) (n : RegNo) : Action σ Word := do
  oncdWrite A (if group < 2 then group ||| regField n 16 else group ||| regField n 3) oncdIRdec 32
  oncdRead A oncdRegf 32

/-- Write an object behind `REGF`. -/
def regfWrite (A : Adapter σ) (group : Word) (n : RegNo) (val : Word) : Action σ Unit := do
  oncdWrite A (group ||| regField n 3) oncdIRdec 32
  oncdWrite A val oncdRegf 32

/-- Read a register of the processor, by way of the internal memory. -/
def targetReadReg (A : Adapter σ) (t : Target) (regno : RegNo) : Action σ Word :=
  if t.idcode ≠ mc12Id then regfRead A groupRfcpu regno
  else do
    execAll A [mipsSw ||| regField gp 21 ||| regField regno 16, mipsNop, mipsNop, mipsNop]
    targetReadWord A cramAddr

/-- Write a register of the processor. -/
def targetWriteReg (A : Adapter σ) (t : Target) (regno : RegNo) (val : Word) : Action σ Unit :=
  if t.idcode ≠ mc12Id then regfWrite A groupRfcpu regno val
  else
    execAll A [mipsAddi ||| regField regno 16 ||| (val >>> 16),
      mipsSll ||| regField regno 11 ||| regField regno 16 ||| (16 <<< 6),
      mipsOri ||| regField regno 16 ||| regField regno 21 ||| (val &&& 0xffff)]

/-- Read a register of coprocessor 0, by way of the frame pointer. -/
def targetReadCp0 (A : Adapter σ) (t : Target) (regno : RegNo) : Action σ Word :=
  if t.idcode ≠ mc12Id then regfRead A groupCp0 regno
  else do
    execAll A [mipsMfc0 ||| regField fp 16 ||| regField regno 11, mipsNop, mipsNop]
    targetReadReg A t fp

/-- Write a register of coprocessor 0, by way of the frame pointer. -/
def targetWriteCp0 (A : Adapter σ) (t : Target) (regno : RegNo) (val : Word) : Action σ Unit :=
  if t.idcode ≠ mc12Id then regfWrite A groupCp0 regno val
  else do
    targetWriteReg A t fp val
    execAll A [mipsMtc0 ||| regField fp 16 ||| regField regno 11, mipsNop]

/-- Read a register of the FPU, by way of the internal memory. -/
def targetReadFpu (A : Adapter σ) (t : Target) (regno : RegNo) : Action σ Word :=
  if t.idcode ≠ mc12Id then regfRead A groupRffpu regno
  else do
    execAll A [mipsSwc1 ||| regField gp 21 ||| regField regno 16, mipsNop, mipsNop, mipsNop]
    targetReadWord A cramAddr

/-- Write a register of the FPU, by way of the frame pointer. -/
def targetWriteFpu (A : Adapter σ) (t : Target) (regno : RegNo) (val : Word) : Action σ Unit :=
  if t.idcode ≠ mc12Id then regfWrite A groupRffpu regno val
  else do
    targetWriteReg A t fp val
    execAll A [mipsMtc1 ||| regField fp 16 ||| regField regno 11, mipsNop]

/-- Read a control register of the FPU, by way of the frame pointer. -/
def targetReadFpuctl (A : Adapter σ) (t : Target) (regno : RegNo) : Action σ Word :=
  if t.idcode ≠ mc12Id then regfRead A groupCp1 regno
  else do
    execAll A [mipsCfc1 ||| regField fp 16 ||| regField regno 11, mipsNop, mipsNop]
    targetReadReg A t fp

/-- Write a control register of the FPU, by way of the frame pointer. -/
def targetWriteFpuctl (A : Adapter σ) (t : Target) (regno : RegNo) (val : Word) : Action σ Unit :=
  if t.idcode ≠ mc12Id then regfWrite A groupCp1 regno val
  else do
    targetWriteReg A t fp val
    execAll A [mipsCtc1 ||| regField fp 16 ||| regField regno 11, mipsNop]

/-- The registers that are cached. -/
inductive Slot
  | cpu (regno : RegNo)
  | cp0 (regno : RegNo)
  | lo
  | hi
  | fpu (regno : RegNo)
  | fcsr
  | fir
  deriving DecidableEq, Repr

/-- The cached register of a number, where it has one. -/
def slotOf (regno : Nat) : Option Slot :=
  if h : regno < 32 then some (.cpu ⟨regno, h⟩)
  else if regno = 32 then some (.cp0 cp0Status)
  else if regno = 33 then some .lo
  else if regno = 34 then some .hi
  else if regno = 35 then some (.cp0 cp0Badvaddr)
  else if regno = 36 then some (.cp0 cp0Cause)
  else if h : 38 ≤ regno ∧ regno ≤ 69 then some (.fpu ⟨regno - 38, by omega⟩)
  else if regno = 70 then some .fcsr
  else if regno = 71 then some .fir
  else none

/-- The number of the program counter. -/
def regnoPc : Nat := 37

namespace Target

variable (t : Target)

/-- What is cached of a register. -/
def cached : Slot → Cached
  | .cpu i => t.reg.get i
  | .cp0 i => t.regCp0.get i
  | .lo => t.regLo
  | .hi => t.regHi
  | .fpu i => t.regFpu.get i
  | .fcsr => t.regFcsr
  | .fir => t.regFir

/-- Cache a value of a register. -/
def cache (slot : Slot) (val : Word) : Target :=
  match slot with
  | .cpu i => { t with reg := t.reg.set i (some val) }
  | .cp0 i => { t with regCp0 := t.regCp0.set i (some val) }
  | .lo => { t with regLo := some val }
  | .hi => { t with regHi := some val }
  | .fpu i => { t with regFpu := t.regFpu.set i (some val) }
  | .fcsr => { t with regFcsr := some val }
  | .fir => { t with regFir := some val }

/-- Forget the values of the registers. -/
def forget : Target :=
  { t with
    reg := Vector.replicate 32 none
    regCp0 := Vector.replicate 32 none
    regFpu := Vector.replicate 32 none
    regLo := none
    regHi := none
    regFcsr := none
    regFir := none }

end Target

/-- Read a register that is not cached. -/
def targetLoadSlot (A : Adapter σ) (t : Target) : Slot → Action σ Word
  | .cpu i => targetReadReg A t i
  | .cp0 i => targetReadCp0 A t i
  | .lo =>
    if t.idcode ≠ mc12Id then regfRead A groupHilo 0
    else do
      targetExec A (mipsMflo ||| regField fp 11)
      targetReadReg A t fp
  | .hi =>
    if t.idcode ≠ mc12Id then regfRead A groupHilo 1
    else do
      targetExec A (mipsMfhi ||| regField fp 11)
      targetReadReg A t fp
  | .fpu i => targetReadFpu A t i
  | .fcsr => targetReadFpuctl A t cp1Fcsr
  | .fir => targetReadFpuctl A t cp1Fir

/-- Write `LO` or `HI` through its own instruction, by way of the frame pointer. -/
def targetWriteHilo (A : Adapter σ) (t : Target) (n : RegNo) (instr val : Word) : Action σ Unit :=
  if t.idcode ≠ mc12Id then regfWrite A groupHilo n val
  else do
    targetWriteReg A t fp val
    execAll A [mipsNop, instr ||| regField fp 21, mipsNop]

/-- Write a register to the processor. -/
def targetStoreSlot (A : Adapter σ) (t : Target) (val : Word) : Slot → Action σ Unit
  | .cpu i => targetWriteReg A t i val
  | .cp0 i => targetWriteCp0 A t i val
  | .lo => targetWriteHilo A t 0 mipsMtlo val
  | .hi => targetWriteHilo A t 1 mipsMthi val
  | .fpu i => targetWriteFpu A t i val
  | .fcsr => targetWriteFpuctl A t cp1Fcsr val
  | .fir => pure ()

/-- Read a register by its number. -/
def targetReadRegister (A : Adapter σ) (t : Target) (regno : Nat) : Action σ (Word × Target) :=
  if regno = regnoPc then
    return (if t.exception ≠ noException then t.exception else t.pcDec, t)
  else
    match slotOf regno with
    | none => return (0, t)
    | some slot =>
      match t.cached slot with
      | some val => return (val, t)
      | none => do
        let val ← targetLoadSlot A t slot
        return (val, t.cache slot val)

/-- The registers 35 and 71 cannot be written. -/
def Slot.writable : Slot → Bool
  | .cp0 i => i ≠ cp0Badvaddr
  | .fir => false
  | _ => true

/-- Write a register by its number. -/
def targetWriteRegister (A : Adapter σ) (t : Target) (regno : Nat) (val : Word) : Action σ Target :=
  if regno = regnoPc then return { t with exception := val }
  else
    match slotOf regno with
    | none => return t
    | some slot =>
      if slot.writable then do
        targetStoreSlot A t val slot
        return t.cache slot val
      else return t

/-- Change `OSCR` on both sides. -/
def changeOscr (A : Adapter σ) (f : Word → Word) : Action σ Unit := do
  let oscr ← getOscr
  setOscr (f oscr)
  oncdWrite A (f oscr) oncdOscr 32

/-- Run the pipeline empty, and note the first exception. -/
def drainPipeline (A : Adapter σ) : Nat → Word → Action σ Word
  | 0, exception => pure exception
  | n + 1, exception => do
    targetExec A mipsNop
    if exception = noException then do
      let pc ← oncdRead A oncdPCfetch 32
      drainPipeline A n (if pc ≠ bootAddr + 4 then pc else exception)
    else drainPipeline A n exception

/-- The exception of the instructions that are under way, where there are any. -/
def pendingException (A : Adapter σ) (pcExec : Word) : Action σ Word :=
  if pcExec ≠ 0 then drainPipeline A 3 noException else pure noException

/-- Save what the accesses to registers of the oldest processor overwrite: the first word of
the internal memory, the global pointer and the frame pointer. -/
def saveScratch (A : Adapter σ) (t : Target) : Action σ Target := do
  let mem0 ← targetReadWord A cramAddr
  execAll A [mipsNop, mipsNop, mipsJr ||| regField gp 21]
  let gpVal ← oncdRead A oncdPCfetch 32
  execAll A [mipsLui ||| regField gp 16 ||| (cramAddr >>> 16) ||| 0x8000, mipsNop, mipsNop]
  let fpVal ← targetReadReg A t fp
  return (({ t with mem0 }).cache (.cpu gp) gpVal).cache (.cpu fp) fpVal

/-- Save the state of the processor. -/
def targetSaveState (A : Adapter σ) (t : Target) : Action σ Target := do
  let pcFetch ← oncdRead A oncdPCfetch 32
  let pcDec ← oncdRead A oncdPCdec 32
  let irDec ← oncdRead A oncdIRdec 32
  let pcExec ← oncdRead A oncdPCexec 32
  let oscr ← oncdRead A oncdOscr 32
  setOscr oscr
  changeOscr A fun oscr => (oscr &&& ~~~oscrNds) ||| oscrNfexp
  let exception ← pendingException A pcExec
  changeOscr A fun oscr => (oscr &&& ~~~oscrNfexp) ||| oscrDbm
  let saved := { t with pcFetch, pcDec, irDec, pcExec, exception }.forget
  if t.idcode = mc12Id then saveScratch A saved else return saved

theorem Target.cache_isRunning (t : Target) (slot : Slot) (val : Word) :
    (t.cache slot val).isRunning = t.isRunning := by
  cases slot with
  | cpu => rfl
  | cp0 => rfl
  | lo => rfl
  | hi => rfl
  | fpu => rfl
  | fcsr => rfl
  | fir => rfl

/-- Saving does not let the processor run. -/
theorem targetSaveState_isRunning (A : Adapter σ) (t : Target) :
    (targetSaveState A t).Ensures fun t' => t'.isRunning = t.isRunning := by
  have hscratch : ∀ t₁ : Target, t₁.isRunning = t.isRunning →
      (saveScratch A t₁).Ensures fun t' => t'.isRunning = t.isRunning := by
    intro t₁ h
    refine Program.ensures_bind fun mem0 => Program.ensures_bind fun _ =>
      Program.ensures_bind fun gpVal => Program.ensures_bind fun _ =>
      Program.ensures_bind fun fpVal => Program.ensures_pure ?_
    rw [Target.cache_isRunning, Target.cache_isRunning]
    exact h
  refine Program.ensures_bind fun pcFetch => Program.ensures_bind fun pcDec =>
    Program.ensures_bind fun irDec => Program.ensures_bind fun pcExec =>
    Program.ensures_bind fun oscr => Program.ensures_bind fun _ => Program.ensures_bind fun _ =>
    Program.ensures_bind fun exception => Program.ensures_bind fun _ => ?_
  split
  · exact hscratch _ rfl
  · exact Program.ensures_pure rfl

/-- Bring back what the accesses to registers have overwritten. A saved state has both of
the pointers cached. -/
def restoreScratch (A : Adapter σ) (t : Target) : Action σ Unit := do
  targetWriteReg A t fp ((t.cached (.cpu fp)).getD 0)
  targetWriteReg A t gp ((t.cached (.cpu gp)).getD 0)
  targetWriteWord A t cramAddr t.mem0

/-- Bring back the stages of the pipeline, or go to the handler of the exception. -/
def restorePipeline (A : Adapter σ) (t : Target) : Action σ Unit :=
  if t.exception = noException then do
    oncdWrite A t.pcDec oncdPCfetch 32
    oncdWrite A mipsNop oncdIRdec 32
    oncdWrite A 0 (oncdGo ||| irdFlushPipe ||| irdStep1Clk) 0
    oncdWrite A t.irDec oncdIRdec 32
    oncdWrite A t.pcFetch oncdPCfetch 32
  else do
    oncdWrite A t.exception oncdPCfetch 32
    oncdWrite A mipsNop oncdIRdec 32
    oncdWrite A 0 (oncdGo ||| irdFlushPipe ||| irdStep1Clk) 0

/-- Restore the state of the processor. -/
def targetRestoreState (A : Adapter σ) (t : Target) : Action σ Unit := do
  (if t.idcode = mc12Id then restoreScratch A t else pure ())
  execAll A [mipsNop, mipsNop, mipsNop]
  restorePipeline A t
  changeOscr A fun oscr => (oscr ||| oscrNds) &&& ~~~oscrDbm

end Mcprog
