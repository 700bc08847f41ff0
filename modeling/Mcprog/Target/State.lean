import Mcprog.Adapter.Interface

/-!
# The state of the target

`target_t` and what is computed from it alone: the physical address of a program
address, the table of flash regions and the lookup of a region.
-/

namespace Mcprog

open Interaction

/-- The number of entries in the table of flash regions. -/
def nflash : Nat := 16

theorem nflash_pos : 0 < nflash - 1 := by decide

/-- One entry of `flash_base` and `flash_last`. -/
structure FlashRegion where
  base : Word
  last : Word
  deriving DecidableEq, Repr

/-- A cached register: its value, where it is valid. -/
abbrev Cached : Type := Option Word

/-- What a probing variant sets: the bus, the unlock addresses and the command words. -/
@[ext] structure FlashVariant where
  flashWidth : Word
  chipWidth : Word
  flashAddrOdd : Word
  flashAddrEven : Word
  flashCmdAA : Word
  flashCmd55 : Word
  flashCmd10 : Word
  flashCmd20 : Word
  flashCmd30 : Word
  flashCmd80 : Word
  flashCmd90 : Word
  flashCmdA0 : Word
  flashCmdF0 : Word
  flashDevidOffset : Word
  deriving DecidableEq, Repr

/-- The flash parameters of a target. -/
@[ext] structure FlashParams extends FlashVariant where
  flashBytes : Word
  sectorSize : Word
  flashDelay : Word
  micronComSet : Bool
  deriving DecidableEq, Repr

/-- The description of the target. -/
structure Target extends FlashParams where
  idcode : Word
  isRunning : Bool
  cscon3 : Word
  flash : Vector FlashRegion nflash
  pcFetch : Word
  pcDec : Word
  irDec : Word
  pcExec : Word
  mem0 : Word
  reg : Vector Cached 32
  regLo : Cached
  regHi : Cached
  regCp0 : Vector Cached 32
  regFpu : Vector Cached 32
  regFcsr : Cached
  regFir : Cached
  exception : Word

/-- The end mark of the table of regions. -/
def noRegion : FlashRegion := ⟨0xFFFFFFFF, 0xFFFFFFFF⟩

/-- Flash parameters before any chip is detected. -/
def FlashParams.cleared : FlashParams :=
  { flashWidth := 0, chipWidth := 0, flashAddrOdd := 0, flashAddrEven := 0, flashCmdAA := 0,
    flashCmd55 := 0, flashCmd10 := 0, flashCmd20 := 0, flashCmd30 := 0, flashCmd80 := 0,
    flashCmd90 := 0, flashCmdA0 := 0, flashCmdF0 := 0, flashDevidOffset := 0, flashBytes := 0,
    sectorSize := 0, flashDelay := 0, micronComSet := false }

/-- A target as `target_open` allocates it: cleared, with no flash regions. -/
def Target.allocated : Target :=
  { FlashParams.cleared with
    idcode := 0
    isRunning := false
    cscon3 := 0
    flash := (Vector.replicate nflash ⟨0, 0⟩).set 0 noRegion
    pcFetch := 0
    pcDec := 0
    irDec := 0
    pcExec := 0
    mem0 := 0
    reg := Vector.replicate 32 none
    regLo := none
    regHi := none
    regCp0 := Vector.replicate 32 none
    regFpu := Vector.replicate 32 none
    regFcsr := none
    regFir := none
    exception := 0 }

/-- The physical address: the segments from `0x80000000` and `0xA0000000` on are mapped. -/
def physical (addr : Word) : Word :=
  if addr ≥ 0xA0000000 then addr - 0xA0000000
  else if addr ≥ 0x80000000 then addr - 0x80000000
  else addr

/-- The physical address as a number. -/
theorem physical_toNat (addr : Word) : (physical addr).toNat =
    if 0xA0000000 ≤ addr.toNat then addr.toNat - 0xA0000000
    else if 0x80000000 ≤ addr.toNat then addr.toNat - 0x80000000
    else addr.toNat := by
  have haddr := addr.isLt
  have hhigh : addr ≥ 0xA0000000 ↔ 0xA0000000 ≤ addr.toNat := Iff.rfl
  have hlow : addr ≥ 0x80000000 ↔ 0x80000000 ≤ addr.toNat := Iff.rfl
  have hsubHigh : (addr - 0xA0000000).toNat = (2 ^ 32 - 0xA0000000 + addr.toNat) % 2 ^ 32 :=
    BitVec.toNat_sub addr 0xA0000000
  have hsubLow : (addr - 0x80000000).toNat = (2 ^ 32 - 0x80000000 + addr.toNat) % 2 ^ 32 :=
    BitVec.toNat_sub addr 0x80000000
  simp only [physical, hhigh, hlow]
  split
  · omega
  · split
    · omega
    · rfl

/-- A physical address is below `0x80000000`. -/
theorem physical_lt (addr : Word) : physical addr < 0x80000000 := by
  have haddr := addr.isLt
  have hphys := physical_toNat addr
  have hlt : (physical addr).toNat < 0x80000000 := by
    rw [hphys]
    split_ifs <;> omega
  exact hlt

/-- An address below `0x80000000` is physical. -/
theorem physical_of_lt {addr : Word} (h : addr < 0x80000000) : physical addr = addr := by
  have h' : ¬ addr ≥ 0x80000000 := by simpa using h
  have h'' : ¬ addr ≥ 0xA0000000 := by
    simp only [ge_iff_le, BitVec.le_def, BitVec.lt_def] at *
    simp at *
    omega
  rw [physical, if_neg h'', if_neg h']

/-- Mapping a segment keeps the low 28 bits. -/
theorem physical_mod (addr : Word) : (physical addr).toNat % 2 ^ 28 = addr.toNat % 2 ^ 28 := by
  rw [physical_toNat]
  split_ifs <;> omega

/-- A step of the address moves the physical address no further. -/
theorem physical_add_le (addr w : Word) :
    (physical (addr + w)).toNat ≤ (physical addr).toNat + w.toNat := by
  have haddr := addr.isLt
  have hw := w.isLt
  rw [physical_toNat, physical_toNat, BitVec.toNat_add]
  split_ifs <;> omega

@[simp] theorem physical_physical (addr : Word) : physical (physical addr) = physical addr :=
  physical_of_lt (physical_lt addr)

namespace Target

variable {σ : Type} (t : Target)

/-- The entries that `compute_base` looks at: those before the first `last` that is 0. -/
def regions : List FlashRegion := t.flash.toList.takeWhile fun r => r.last ≠ 0

/-- The first region that holds a physical address. -/
def findRegion (phys : Word) : Option FlashRegion :=
  t.regions.find? fun r => r.base ≤ phys ∧ phys ≤ r.last

/-- The base of the region that holds an address, or `exit (1)`. -/
def computeBase (addr : Word) : Action σ Word :=
  match t.findRegion (physical addr) with
  | some r => pure r.base
  | none => fatal 1 "target: no flash region for address 0x%08X\n" [physical addr]

/-- The base that is found is not above the physical address. -/
theorem base_le_of_findRegion {phys : Word} {r : FlashRegion} (h : t.findRegion phys = some r) :
    r.base ≤ phys ∧ phys ≤ r.last := by
  have hp := List.find?_some h
  simpa using hp

/-- A run of `compute_base` that answers found the region. -/
theorem computeBase_returns {s s' : Session σ} {addr base : Word} {tr : List Call}
    (h : (t.computeBase addr).Returns s base tr s') :
    ∃ r, t.findRegion (physical addr) = some r ∧ base = r.base ∧ tr = [] ∧ s' = s := by
  unfold computeBase at h
  cases hr : t.findRegion (physical addr) with
  | none =>
    rw [hr] at h
    exact absurd h Program.not_returns_stop
  | some r =>
    rw [hr] at h
    exact ⟨r, rfl, Program.returns_pure_iff.mp h⟩

/-- The index of the first entry that is free: `flash_last` is the end mark there. -/
def freeRegion : Option (Fin (nflash - 1)) :=
  (List.finRange (nflash - 1)).find? fun i => (t.flash.get i.castSucc).last = noRegion.last

/-- The table with the region of index `i` set and the end mark after it. -/
def setRegion (i : Fin (nflash - 1)) (r : FlashRegion) : Vector FlashRegion nflash :=
  (t.flash.set i.castSucc r).set i.succ noRegion

/-- Add a flash region in place of the end mark. -/
def flashConfigure (first last : Word) : Action σ Target :=
  match t.freeRegion with
  | some i => pure { t with flash := t.setRegion i ⟨first, last⟩ }
  | none => fatal 1 "target_flash_configure: too many flash regions.\n" []

end Target

end Mcprog
