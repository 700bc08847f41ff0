import Mcprog.Oncd.Instructions

/-!
# The processor as its instructions see it

The registers and the memory of the processor, and what each of the instructions that the
debugger feeds to it does to them.
-/

namespace Mcprog

/-- The number of a word of the physical memory. -/
abbrev WordNo : Type := BitVec 30

/-- The word that holds a physical address. -/
def wordNo (addr : Word) : WordNo := addr.extractLsb' 2 30

/-- The registers and the memory of the processor. -/
@[ext] structure Machine where
  /-- The general registers. What is held for register 0 is never seen. -/
  regs : RegNo → Word
  hi : Word
  lo : Word
  cp0 : RegNo → Word
  fpu : RegNo → Word
  /-- The control registers of the FPU. -/
  fpuctl : RegNo → Word
  mem : WordNo → Word
  /-- Where the addresses of the mapped segments lead. -/
  mapped : Word → Word

namespace Machine

variable (m : Machine)

/-- A general register. -/
def reg (r : RegNo) : Word := if r = 0 then 0 else m.regs r

/-- Assign a general register. -/
def setReg (r : RegNo) (val : Word) : Machine :=
  if r = 0 then m else { m with regs := Function.update m.regs r val }

/-- Assign a word of the memory. -/
def setMem (w : WordNo) (val : Word) : Machine := { m with mem := Function.update m.mem w val }

/-- The physical address of a program address. -/
def translate (addr : Word) : Word :=
  if 0x80000000 ≤ addr ∧ addr < 0xC0000000 then addr &&& 0x1FFFFFFF else m.mapped addr

/-- Store a word from the program. An unaligned store is not performed. -/
def store (addr val : Word) : Machine :=
  if addr &&& 3 = 0 then m.setMem (wordNo (m.translate addr)) val else m

end Machine

/-- The instructions that are fed to the processor. -/
inductive Instr
  | sll (rd rt : RegNo) (sa : BitVec 5)
  | jr (rs : RegNo)
  | mfhi (rd : RegNo)
  | mthi (rs : RegNo)
  | mflo (rd : RegNo)
  | mtlo (rs : RegNo)
  | addi (rt rs : RegNo) (imm : BitVec 16)
  | ori (rt rs : RegNo) (imm : BitVec 16)
  | lui (rt : RegNo) (imm : BitVec 16)
  | mfc0 (rt rd : RegNo)
  | mtc0 (rt rd : RegNo)
  | cfc1 (rt fs : RegNo)
  | mtc1 (rt fs : RegNo)
  | ctc1 (rt fs : RegNo)
  | sw (rt base : RegNo) (offset : BitVec 16)
  | swc1 (ft base : RegNo) (offset : BitVec 16)
  deriving DecidableEq, Repr

/-- A register field of an instruction. -/
def fieldAt (shift : Nat) (instr : Word) : RegNo := (instr.extractLsb' shift 5).toFin

/-- The instructions that are told by their last field. -/
def decodeSpecial (instr : Word) : Option Instr :=
  match (instr.extractLsb' 0 6).toNat with
  | 0x00 => some (.sll (fieldAt 11 instr) (fieldAt 16 instr) (instr.extractLsb' 6 5))
  | 0x08 => some (.jr (fieldAt 21 instr))
  | 0x10 => some (.mfhi (fieldAt 11 instr))
  | 0x11 => some (.mthi (fieldAt 21 instr))
  | 0x12 => some (.mflo (fieldAt 11 instr))
  | 0x13 => some (.mtlo (fieldAt 21 instr))
  | _ => none

/-- The moves from and to coprocessor 0. -/
def decodeCop0 (instr : Word) : Option Instr :=
  match (fieldAt 21 instr).val with
  | 0 => some (.mfc0 (fieldAt 16 instr) (fieldAt 11 instr))
  | 4 => some (.mtc0 (fieldAt 16 instr) (fieldAt 11 instr))
  | _ => none

/-- The moves from and to the FPU. -/
def decodeCop1 (instr : Word) : Option Instr :=
  match (fieldAt 21 instr).val with
  | 2 => some (.cfc1 (fieldAt 16 instr) (fieldAt 11 instr))
  | 4 => some (.mtc1 (fieldAt 16 instr) (fieldAt 11 instr))
  | 6 => some (.ctc1 (fieldAt 16 instr) (fieldAt 11 instr))
  | _ => none

/-- The instruction of a word, where it is one of those that are fed. -/
def decode (instr : Word) : Option Instr :=
  match (instr.extractLsb' 26 6).toNat with
  | 0x00 => decodeSpecial instr
  | 0x08 => some (.addi (fieldAt 16 instr) (fieldAt 21 instr) (instr.extractLsb' 0 16))
  | 0x0d => some (.ori (fieldAt 16 instr) (fieldAt 21 instr) (instr.extractLsb' 0 16))
  | 0x0f => some (.lui (fieldAt 16 instr) (instr.extractLsb' 0 16))
  | 0x10 => decodeCop0 instr
  | 0x11 => decodeCop1 instr
  | 0x2b => some (.sw (fieldAt 16 instr) (fieldAt 21 instr) (instr.extractLsb' 0 16))
  | 0x39 => some (.swc1 (fieldAt 16 instr) (fieldAt 21 instr) (instr.extractLsb' 0 16))
  | _ => none

namespace Machine

variable (m : Machine)

/-- The effect of an instruction on the registers and the memory. An addition that overflows
keeps its register. -/
def step : Instr → Machine
  | .sll rd rt sa => m.setReg rd (m.reg rt <<< sa.toNat)
  | .jr _ => m
  | .mfhi rd => m.setReg rd m.hi
  | .mthi rs => { m with hi := m.reg rs }
  | .mflo rd => m.setReg rd m.lo
  | .mtlo rs => { m with lo := m.reg rs }
  | .addi rt rs imm =>
    if (m.reg rs).saddOverflow (imm.signExtend 32) then m
    else m.setReg rt (m.reg rs + imm.signExtend 32)
  | .ori rt rs imm => m.setReg rt (m.reg rs ||| imm.zeroExtend 32)
  | .lui rt imm => m.setReg rt (imm.zeroExtend 32 <<< 16)
  | .mfc0 rt rd => m.setReg rt (m.cp0 rd)
  | .mtc0 rt rd => { m with cp0 := Function.update m.cp0 rd (m.reg rt) }
  | .cfc1 rt fs => m.setReg rt (m.fpuctl fs)
  | .mtc1 rt fs => { m with fpu := Function.update m.fpu fs (m.reg rt) }
  | .ctc1 rt fs => { m with fpuctl := Function.update m.fpuctl fs (m.reg rt) }
  | .sw rt base offset => m.store (m.reg base + offset.signExtend 32) (m.reg rt)
  | .swc1 ft base offset => m.store (m.reg base + offset.signExtend 32) (m.fpu ft)

/-- Where the processor fetches from after an instruction. -/
def nextPc (pc : Word) : Instr → Word
  | .jr rs => m.reg rs
  | _ => pc + 4

end Machine

section Words

variable (regno : RegNo) (val : Word)

/-- The instructions of the debugger, as the processor takes them. This one does nothing. -/
theorem decode_nop : decode mipsNop = some (.sll 0 0 0) := by decide

theorem decode_jr : decode (mipsJr ||| regField gp 21) = some (.jr gp) := by decide

/-- The upper half of an address, the bit for the uncached segment included. -/
theorem decode_lui :
    decode (mipsLui ||| regField gp 16 ||| (cramAddr >>> 16) ||| 0x8000) = some (.lui gp 0xb800) := by
  decide

theorem decode_mfhi : decode (mipsMfhi ||| regField fp 11) = some (.mfhi fp) := by decide

theorem decode_mflo : decode (mipsMflo ||| regField fp 11) = some (.mflo fp) := by decide

theorem decode_mthi : decode (mipsMthi ||| regField fp 21) = some (.mthi fp) := by decide

theorem decode_mtlo : decode (mipsMtlo ||| regField fp 21) = some (.mtlo fp) := by decide

/-- A register is stored at the address in another one. -/
theorem decode_sw :
    decode (mipsSw ||| regField gp 21 ||| regField regno 16) = some (.sw regno gp 0) := by
  decide +revert

theorem decode_swc1 :
    decode (mipsSwc1 ||| regField gp 21 ||| regField regno 16) = some (.swc1 regno gp 0) := by
  decide +revert

theorem decode_mfc0 :
    decode (mipsMfc0 ||| regField fp 16 ||| regField regno 11) = some (.mfc0 fp regno) := by
  decide +revert

theorem decode_mtc0 :
    decode (mipsMtc0 ||| regField fp 16 ||| regField regno 11) = some (.mtc0 fp regno) := by
  decide +revert

theorem decode_cfc1 :
    decode (mipsCfc1 ||| regField fp 16 ||| regField regno 11) = some (.cfc1 fp regno) := by
  decide +revert

theorem decode_mtc1 :
    decode (mipsMtc1 ||| regField fp 16 ||| regField regno 11) = some (.mtc1 fp regno) := by
  decide +revert

theorem decode_ctc1 :
    decode (mipsCtc1 ||| regField fp 16 ||| regField regno 11) = some (.ctc1 fp regno) := by
  decide +revert

/-- A register is shifted by sixteen places. -/
theorem decode_sll :
    decode (mipsSll ||| regField regno 11 ||| regField regno 16 ||| (16 <<< 6)) =
      some (.sll regno regno 16) := by
  decide +revert

/-- The fields of a word into which nothing else is merged. -/
theorem extract_or_left {a b : Word} {s n : Nat} (h : b.extractLsb' s n = 0#n) :
    (a ||| b).extractLsb' s n = a.extractLsb' s n := by
  rw [BitVec.extractLsb'_or, h, BitVec.or_zero]

/-- The upper half of a word has no bits above it. -/
theorem extract_shiftRight {s n : Nat} (h : 16 ≤ s) : (val >>> 16).extractLsb' s n = 0#n := by
  apply BitVec.eq_of_getLsbD_eq
  intro i hi
  simp only [BitVec.getLsbD_extractLsb', BitVec.getLsbD_ushiftRight, BitVec.getLsbD_zero]
  rw [BitVec.getLsbD_of_ge _ _ (by omega), Bool.and_false]

/-- The bits of the mask for the lower half. -/
theorem getLsbD_lowHalf (i : Nat) : (0xffff : Word).getLsbD i = decide (i < 16) := by
  have h : (0xffff : Word) = BitVec.setWidth 32 (BitVec.allOnes 16) := by decide
  rw [h, BitVec.getLsbD_setWidth, BitVec.getLsbD_allOnes]
  by_cases hi : i < 16
  · simp [hi, show i < 32 by omega]
  · simp [hi]

/-- The lower half of a word has no bits above it. -/
theorem extract_lowHalf {s n : Nat} (h : 16 ≤ s) : (val &&& 0xffff).extractLsb' s n = 0#n := by
  apply BitVec.eq_of_getLsbD_eq
  intro i hi
  have hs : ¬ s + i < 16 := by omega
  simp only [BitVec.getLsbD_extractLsb', BitVec.getLsbD_and, getLsbD_lowHalf, BitVec.getLsbD_zero, hs]
  simp

/-- An immediate operand that is merged into an instruction word. -/
theorem decode_immediate {w imm : Word} (hlow : w.extractLsb' 0 16 = 0#16)
    (himm : ∀ s n, 16 ≤ s → imm.extractLsb' s n = 0#n) :
    (w ||| imm).extractLsb' 26 6 = w.extractLsb' 26 6 ∧ fieldAt 21 (w ||| imm) = fieldAt 21 w ∧
      fieldAt 16 (w ||| imm) = fieldAt 16 w ∧ (w ||| imm).extractLsb' 0 16 = imm.extractLsb' 0 16 := by
  refine ⟨extract_or_left (himm _ _ (by decide)), ?_, ?_, ?_⟩
  · rw [fieldAt, extract_or_left (himm _ _ (by decide)), fieldAt]
  · rw [fieldAt, extract_or_left (himm _ _ (by decide)), fieldAt]
  · rw [BitVec.extractLsb'_or, hlow, BitVec.zero_or]

/-- The upper half of a value as an operand, without bits in the other fields. -/
theorem decode_addi : decode (mipsAddi ||| regField regno 16 ||| (val >>> 16)) =
    some (.addi regno 0 ((val >>> 16).extractLsb' 0 16)) := by
  have hword : ∀ r : RegNo, (mipsAddi ||| regField r 16).extractLsb' 0 16 = 0#16 ∧
      (mipsAddi ||| regField r 16).extractLsb' 26 6 = 8#6 ∧
      fieldAt 21 (mipsAddi ||| regField r 16) = 0 ∧
      fieldAt 16 (mipsAddi ||| regField r 16) = r := by decide
  obtain ⟨hlow, hop, hrs, hrt⟩ := hword regno
  obtain ⟨h₁, h₂, h₃, h₄⟩ := decode_immediate hlow fun s n => extract_shiftRight val
  rw [decode, h₁, h₂, h₃, h₄, hop, hrs, hrt]
  rfl

/-- The lower half of a value as an operand, without bits in the other fields. -/
theorem decode_ori :
    decode (mipsOri ||| regField regno 16 ||| regField regno 21 ||| (val &&& 0xffff)) =
      some (.ori regno regno ((val &&& 0xffff).extractLsb' 0 16)) := by
  have hword : ∀ r : RegNo,
      (mipsOri ||| regField r 16 ||| regField r 21).extractLsb' 0 16 = 0#16 ∧
      (mipsOri ||| regField r 16 ||| regField r 21).extractLsb' 26 6 = 13#6 ∧
      fieldAt 21 (mipsOri ||| regField r 16 ||| regField r 21) = r ∧
      fieldAt 16 (mipsOri ||| regField r 16 ||| regField r 21) = r := by decide
  obtain ⟨hlow, hop, hrs, hrt⟩ := hword regno
  obtain ⟨h₁, h₂, h₃, h₄⟩ := decode_immediate hlow fun s n => extract_lowHalf val
  rw [decode, h₁, h₂, h₃, h₄, hop, hrs, hrt]
  rfl

/-- The two halves of a word, the upper one loaded with its sign, make up the word. -/
theorem halves_or : ((val >>> 16).extractLsb' 0 16).signExtend 32 <<< 16 |||
    ((val &&& 0xffff).extractLsb' 0 16).zeroExtend 32 = val := by
  apply BitVec.eq_of_getLsbD_eq
  intro i hi
  simp only [BitVec.getLsbD_or, BitVec.getLsbD_shiftLeft, BitVec.getLsbD_signExtend,
    BitVec.getLsbD_setWidth, BitVec.getLsbD_extractLsb', BitVec.getLsbD_ushiftRight,
    BitVec.getLsbD_and, getLsbD_lowHalf, Nat.zero_add]
  by_cases h : i < 16
  · simp [h, hi]
  · have h₁ : i - 16 < 16 := by omega
    have h₂ : 16 + (i - 16) = i := by omega
    have h₃ : i - 16 < 32 := by omega
    simp [h, hi, h₁, h₂, h₃]

end Words

namespace Machine

variable (m : Machine) (r : RegNo) (w : WordNo) (a b : Word)

@[simp] theorem reg_zero : m.reg 0 = 0 := if_pos rfl

@[simp] theorem setReg_zero : m.setReg 0 a = m := if_pos rfl

/-- What a register holds after another one, or itself, was written. -/
theorem reg_setReg (r' : RegNo) :
    (m.setReg r a).reg r' = if r' = 0 then 0 else if r' = r then a else m.reg r' := by
  unfold setReg reg
  by_cases hr' : r' = 0
  · rw [if_pos hr', if_pos hr']
  · rw [if_neg hr', if_neg hr', if_neg hr']
    by_cases hr : r = 0
    · have hne : r' ≠ r := by rwa [hr]
      rw [if_pos hr, if_neg hne]
    · rw [if_neg hr]
      exact Function.update_apply m.regs r a r'

/-- What was written is there. -/
theorem reg_setReg_self (h : r ≠ 0) : (m.setReg r a).reg r = a := by
  rw [reg_setReg, if_neg h, if_pos rfl]

/-- The other registers keep what they hold. -/
theorem reg_setReg_of_ne {r r' : RegNo} (h : r' ≠ r) : (m.setReg r a).reg r' = m.reg r' := by
  rw [reg_setReg, if_neg h]
  split
  · rename_i h₀
    rw [h₀, reg_zero]
  · rfl

@[simp] theorem setReg_setReg : (m.setReg r a).setReg r b = m.setReg r b := by
  by_cases hr : r = 0
  · rw [hr, setReg_zero, setReg_zero, setReg_zero]
  · simp [setReg, hr]

/-- Writes to different registers may change places. -/
theorem setReg_comm {r r' : RegNo} (h : r ≠ r') :
    (m.setReg r a).setReg r' b = (m.setReg r' b).setReg r a := by
  by_cases hr : r = 0
  · rw [hr, setReg_zero, setReg_zero]
  · by_cases hr' : r' = 0
    · rw [hr', setReg_zero, setReg_zero]
    · simp only [setReg, hr, hr', if_false, Function.update_comm h]

@[simp] theorem setMem_setMem : (m.setMem w a).setMem w b = m.setMem w b := by
  simp [setMem]

theorem setReg_setMem : (m.setMem w b).setReg r a = (m.setReg r a).setMem w b := by
  unfold setReg
  split
  · rfl
  · rfl

@[simp] theorem reg_setMem : (m.setMem w b).reg r = m.reg r := rfl

/-- A register that is assigned what it holds. -/
theorem setReg_reg : m.setReg r (m.reg r) = m := by
  unfold setReg reg
  split
  · rfl
  · simp

/-- A word that is stored where it is already changes nothing. -/
theorem setMem_mem : m.setMem w (m.mem w) = m := by simp [setMem]

theorem step_nop : m.step (.sll 0 0 0) = m := setReg_zero m _

/-- An addition to register 0 loads the operand with its sign. -/
theorem step_addi (imm : BitVec 16) : m.step (.addi r 0 imm) = m.setReg r (imm.signExtend 32) := by
  have hover : (0 : Word).saddOverflow (imm.signExtend 32) = false := by
    rw [BitVec.saddOverflow_eq]
    simp
  have hadd : (0 : Word) + imm.signExtend 32 = imm.signExtend 32 := BitVec.zero_add _
  rw [step, reg_zero, hover, if_neg Bool.false_ne_true, hadd]

/-- The three instructions that load a register with a value. -/
theorem step_load (val : Word) :
    ((m.step (.addi r 0 ((val >>> 16).extractLsb' 0 16))).step (.sll r r 16)).step
      (.ori r r ((val &&& 0xffff).extractLsb' 0 16)) = m.setReg r val := by
  rw [step_addi]
  by_cases hr : r = 0
  · rw [hr, setReg_zero, step, setReg_zero, step, setReg_zero, setReg_zero]
  · rw [step, reg_setReg_self _ _ _ hr, setReg_setReg, step, reg_setReg_self _ _ _ hr, setReg_setReg]
    exact congrArg _ (halves_or val)

end Machine

end Mcprog
