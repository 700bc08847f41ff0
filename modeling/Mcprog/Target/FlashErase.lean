import Mcprog.Target.Memory

/-!
# Erasing flash memory

The chip and sector erase of `target.c`. The stores of a sector erase are the same
for all addresses but the last of each unlock sequence, which is the command proper;
its address is not computed in the way of all other operations.
-/

namespace Mcprog

open Interaction

variable {σ : Type}

/-- One bit of the status of a chip that is ready, for each chip on the bus. -/
def statusMask (t : Target) : Word :=
  (List.range (t.flashWidth / t.chipWidth).toNat).foldl
    (fun mask _ => (mask <<< t.chipWidth.toNat) ||| 0x80) 0

/-- Poll the status of a Micron chip, `timeout` times and once more. -/
def pollStatus (A : Adapter σ) (addr mask : Word) : Nat → Action σ Bool
  | 0 => do
    let _ ← targetReadWord A addr
    return false
  | timeout + 1 => do
    let status ← targetReadWord A addr
    if status = mask then pure true else pollStatus A addr mask timeout

/-- Five unlock stores and the erase command at an address, word by word. -/
def eraseWords (A : Adapter σ) (t : Target) (base addr cmd : Word) : Action σ Unit := do
  targetWriteWord A t (base + t.flashAddrOdd) t.flashCmdAA
  targetWriteWord A t (base + t.flashAddrEven) t.flashCmd55
  targetWriteWord A t (base + t.flashAddrOdd) t.flashCmd80
  targetWriteWord A t (base + t.flashAddrOdd) t.flashCmdAA
  targetWriteWord A t (base + t.flashAddrEven) t.flashCmd55
  targetWriteWord A t addr cmd

/-- The erase sequence of an AMD chip, with the command and its address. On a 64-bit bus
it is repeated for the high half. -/
def eraseSequence (A : Adapter σ) (t : Target) (base addr cmd : Word) : Action σ Unit :=
  if t.flashWidth = 8 then do
    targetWriteByte A t (base + t.flashAddrOdd) t.flashCmdAA
    targetWriteByte A t (base + t.flashAddrEven) t.flashCmd55
    targetWriteByte A t (base + t.flashAddrOdd) t.flashCmd80
    targetWriteByte A t (base + t.flashAddrOdd) t.flashCmdAA
    targetWriteByte A t (base + t.flashAddrEven) t.flashCmd55
    targetWriteByte A t addr cmd
  else if t.flashDelay ≠ 0 then
    targetWriteNwords A t (base + t.flashAddrOdd, t.flashCmdAA)
      [(base + t.flashAddrEven, t.flashCmd55), (base + t.flashAddrOdd, t.flashCmd80),
        (base + t.flashAddrOdd, t.flashCmdAA), (base + t.flashAddrEven, t.flashCmd55),
        (addr, cmd)]
  else do
    eraseWords A t base addr cmd
    if t.flashWidth = 64 then eraseWords A t (base + 4) (addr + 4) cmd else pure ()

/-- Wait until a word reads as erased. -/
def waitErased (A : Adapter σ) (addr : Word) : Nat → Action σ Unit
  | 0 => Program.stop .fuel
  | fuel + 1 => do
    let word ← targetReadWord A addr
    if word = 0xffffffff then pure () else waitErased A addr fuel

/-- Erase the chip of Micron sector by sector, from an offset on. -/
def eraseMicron (A : Adapter σ) (t : Target) (base : Word) : Nat → Word → Action σ Bool
  | 0, _ => Program.stop .fuel
  | fuel + 1, offset =>
    if offset < t.flashBytes then do
      targetWriteWord A t (base + offset) 0x20202020
      targetWriteWord A t (base + offset) 0xd0d0d0d0
      if ← pollStatus A (base + offset) (statusMask t) 10000 then
        eraseMicron A t base fuel (offset + t.sectorSize)
      else
        pure false
    else do
      targetWriteWord A t base 0xffffffff
      pure true

/-- Erase the chip at an address. -/
def targetErase (A : Adapter σ) (t : Target) (addr : Word) (fuel : Nat) : Action σ Bool := do
  let base ← t.computeBase addr
  let ok ← if t.micronComSet then eraseMicron A t base fuel 0
    else do
      eraseSequence A t base (base + t.flashAddrOdd) t.flashCmd10
      pure true
  if ok then do
    waitErased A base fuel
    pure true
  else
    pure false

/-- The address that a sector erase uses: the low 28 bits of the address given, under the
top four bits of the base of the region. -/
def sectorAddress (base addr : Word) : Word := (addr &&& 0x0FFFFFFF) ||| (base &&& 0xF0000000)

/-- Erase the sector of Micron at an address. -/
def eraseSectorMicron (A : Adapter σ) (t : Target) (addr : Word) : Action σ Bool := do
  targetWriteWord A t addr 0x20202020
  targetWriteWord A t addr 0xd0d0d0d0
  if ← pollStatus A addr (statusMask t) 10000 then do
    targetWriteWord A t addr 0xffffffff
    pure true
  else
    pure false

/-- The tail of a sector erase: wait, and load from another address. -/
def finishSector (A : Adapter σ) (addr : Word) (fuel : Nat) : Action σ Bool := do
  waitErased A addr fuel
  let _ ← targetReadWord A mcCscon3
  return true

/-- Erase the sector at an address. -/
def targetEraseSector (A : Adapter σ) (t : Target) (addr : Word) (fuel : Nat) :
    Action σ Bool := do
  let base ← t.computeBase addr
  let addr := sectorAddress base addr
  if t.micronComSet then do
    if ← eraseSectorMicron A t addr then finishSector A addr fuel else pure false
  else do
    eraseSequence A t base addr t.flashCmd30
    finishSector A addr fuel

/-- Erase sector after sector until the length is reached. -/
def eraseSectors (A : Adapter σ) (t : Target) (addr len : Word) (fuel : Nat) :
    Nat → Word → Action σ Bool
  | 0, _ => Program.stop .fuel
  | steps + 1, curLen =>
    if curLen < len then do
      if ← targetEraseSector A t (addr + curLen) fuel then
        eraseSectors A t addr len fuel steps (curLen + t.sectorSize)
      else
        pure false
    else
      pure true

/-- Erase the sectors of an area. -/
def targetEraseArea (A : Adapter σ) (t : Target) (addr len : Word) (fuel : Nat) : Action σ Bool :=
  eraseSectors A t addr len fuel fuel 0

end Mcprog
