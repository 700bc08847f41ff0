import Mcprog.Adapter.Scripted
import Mcprog.Target.Exec
import Mcprog.Target.FlashProgram

/-!
# Addresses that name the same memory

The first half gigabyte of the physical memory is seen in two more segments, one that is cached
and one that is not. The operations of `target.c` do the same at the three names of an address.
-/

namespace Mcprog

open Interaction

variable {σ : Type}

/-- An operation on the memory of the target that is given an address. -/
inductive AddressedOp
  | readWord
  | writeWord (data : Word)
  | readBlock (nwords : Word)
  | writeBlock (nwords : Word) (data : Nat → Word)
  | programBlock (nwords : Word) (data : Nat → Word)
  | flashRewrite (bad expected : Word)
  | erase
  | eraseSector
  | eraseArea (len : Word)

/-- What an operation answers. -/
inductive Answer
  | done
  | word (word : Word)
  | words (words : List Word)
  | success (ok : Bool)
  deriving DecidableEq, Repr

namespace AddressedOp

/-- How many bytes from its address on an operation is about. -/
def length : AddressedOp → Nat
  | readWord | writeWord _ | flashRewrite _ _ => 4
  | readBlock nwords | writeBlock nwords _ | programBlock nwords _ => 4 * nwords.toNat
  | erase | eraseSector => 1
  | eraseArea len => len.toNat

/-- Perform an operation at an address. -/
def perform (A : Adapter σ) (t : Target) (fuel : Nat) (addr : Word) : AddressedOp → Action σ Answer
  | readWord => do
    let word ← targetReadWord A addr
    return .word word
  | writeWord data => do
    targetWriteWord A t addr data
    return .done
  | readBlock nwords => do
    let words ← targetReadBlock A addr nwords
    return .words words
  | writeBlock nwords data => do
    targetWriteBlock A t addr nwords data
    return .done
  | programBlock nwords data => do
    targetProgramBlock A t addr nwords data fuel
    return .done
  | flashRewrite bad expected => do
    let ok ← targetFlashRewrite A t addr bad expected
    return .success ok
  | erase => do
    let ok ← targetErase A t addr fuel
    return .success ok
  | eraseSector => do
    let ok ← targetEraseSector A t addr fuel
    return .success ok
  | eraseArea len => do
    let ok ← targetEraseArea A t addr len fuel
    return .success ok

end AddressedOp

/-- The start of a segment in which the first half gigabyte of the physical memory is seen. -/
def IsSegment (seg : Word) : Prop := seg = 0x80000000 ∨ seg = 0xA0000000

section Alias

variable {A : Adapter σ} {t : Target} {p seg : Word} (hseg : IsSegment seg)

include hseg

/-- The physical address behind an alias. -/
theorem physical_alias (hp : p.toNat < 0x20000000) : physical (p + seg) = physical p := by
  apply BitVec.eq_of_toNat_eq
  rw [physical_toNat, physical_toNat, BitVec.toNat_add]
  rcases hseg with rfl | rfl
  · have hval : (0x80000000 : Word).toNat = 0x80000000 := rfl
    rw [hval]
    split_ifs <;> omega
  · have hval : (0xA0000000 : Word).toNat = 0xA0000000 := rfl
    rw [hval]
    split_ifs <;> omega

/-- The region of an alias is that of the physical address. -/
theorem computeBase_alias (hp : p.toNat < 0x20000000) :
    (t.computeBase (p + seg) : Action σ Word) = t.computeBase p := by
  unfold Target.computeBase
  rw [physical_alias hseg hp]

/-- An alias differs in the four bits that a sector erase takes from the region. -/
theorem sectorAddress_alias (base : Word) : sectorAddress base (p + seg) = sectorAddress base p := by
  have hlow : (p + seg) &&& 0x0FFFFFFF = p &&& 0x0FFFFFFF := by
    apply BitVec.eq_of_toNat_eq
    have hmask : (0x0FFFFFFF : Word).toNat = 2 ^ 28 - 1 := rfl
    rw [BitVec.toNat_and, BitVec.toNat_and, hmask, Nat.and_two_pow_sub_one_eq_mod,
      Nat.and_two_pow_sub_one_eq_mod, BitVec.toNat_add]
    rcases hseg with rfl | rfl
    · have hval : (0x80000000 : Word).toNat = 0x80000000 := rfl
      rw [hval]
      omega
    · have hval : (0xA0000000 : Word).toNat = 0xA0000000 := rfl
      rw [hval]
      omega
  rw [sectorAddress, sectorAddress, hlow]

/-- A word is loaded from the physical address, whatever the segment is. -/
theorem targetReadWord_alias (hp : p.toNat < 0x20000000) :
    targetReadWord A (p + seg) = targetReadWord A p := by
  unfold targetReadWord targetReadNext
  rw [physical_alias hseg hp]

/-- A word is stored at the physical address, whatever the segment is. -/
theorem targetWriteWord_alias (hp : p.toNat < 0x20000000) (data : Word) :
    targetWriteWord A t (p + seg) data = targetWriteWord A t p data := by
  unfold targetWriteWord targetWriteNext
  rw [physical_alias hseg hp]

/-- A block is read from the physical addresses, whatever the segment is. -/
theorem targetReadBlock_alias (hp : p.toNat < 0x20000000) (nwords : Word) :
    targetReadBlock A (p + seg) nwords = targetReadBlock A p nwords := by
  unfold targetReadBlock
  rw [physical_alias hseg hp]

/-- A block is stored at the physical addresses, whatever the segment is. -/
theorem targetWriteBlock_alias (hp : p.toNat < 0x20000000) (nwords : Word) (data : Nat → Word) :
    targetWriteBlock A t (p + seg) nwords data = targetWriteBlock A t p nwords data := by
  unfold targetWriteBlock
  rw [physical_alias hseg hp]

/-- A block is programmed in the same chip, whatever the segment is. -/
theorem targetProgramBlock_alias (hp : p.toNat < 0x20000000) (nwords : Word) (data : Nat → Word)
    (fuel : Nat) :
    targetProgramBlock A t (p + seg) nwords data fuel = targetProgramBlock A t p nwords data fuel := by
  unfold targetProgramBlock
  rw [computeBase_alias hseg hp, physical_alias hseg hp]

/-- A word is programmed again in the same chip, whatever the segment is. -/
theorem targetFlashRewrite_alias (hp : p.toNat < 0x20000000) (bad expected : Word) :
    targetFlashRewrite A t (p + seg) bad expected = targetFlashRewrite A t p bad expected := by
  unfold targetFlashRewrite
  rw [computeBase_alias hseg hp, physical_alias hseg hp]

/-- The same chip is erased, whatever the segment is. -/
theorem targetErase_alias (hp : p.toNat < 0x20000000) (fuel : Nat) :
    targetErase A t (p + seg) fuel = targetErase A t p fuel := by
  unfold targetErase
  rw [computeBase_alias hseg hp]

/-- The same sector is erased, whatever the segment is. -/
theorem targetEraseSector_alias (hp : p.toNat < 0x20000000) (fuel : Nat) :
    targetEraseSector A t (p + seg) fuel = targetEraseSector A t p fuel := by
  unfold targetEraseSector
  simp only [computeBase_alias hseg hp, sectorAddress_alias hseg]

/-- Every sector of the area has its alias, as long as the area ends in the half gigabyte. -/
theorem eraseSectors_alias {len : Word} (hlen : p.toNat + len.toNat ≤ 0x20000000) (fuel steps : Nat)
    (curLen : Word) :
    eraseSectors A t (p + seg) len fuel steps curLen = eraseSectors A t p len fuel steps curLen := by
  induction steps generalizing curLen with
  | zero => rfl
  | succ steps ih =>
    rw [eraseSectors, eraseSectors]
    by_cases hcur : curLen < len
    · have hlt : curLen.toNat < len.toNat := hcur
      have hstep : (p + curLen).toNat < 0x20000000 := by
        rw [BitVec.toNat_add]
        omega
      have hcomm : p + seg + curLen = p + curLen + seg := by
        rw [BitVec.add_assoc, BitVec.add_comm seg, ← BitVec.add_assoc]
      rw [if_pos hcur, if_pos hcur, hcomm, targetEraseSector_alias hseg hstep]
      simp only [ih]
    · rw [if_neg hcur, if_neg hcur]

/-- An operation is the same program at an alias of its address. -/
theorem perform_alias (op : AddressedOp) (fuel : Nat) (hp : p.toNat < 0x20000000)
    (hlen : p.toNat + op.length ≤ 0x20000000) :
    op.perform A t fuel (p + seg) = op.perform A t fuel p := by
  cases op with
  | readWord => simp only [AddressedOp.perform, targetReadWord_alias hseg hp]
  | writeWord data => simp only [AddressedOp.perform, targetWriteWord_alias hseg hp]
  | readBlock nwords => simp only [AddressedOp.perform, targetReadBlock_alias hseg hp]
  | writeBlock nwords data => simp only [AddressedOp.perform, targetWriteBlock_alias hseg hp]
  | programBlock nwords data => simp only [AddressedOp.perform, targetProgramBlock_alias hseg hp]
  | flashRewrite bad expected => simp only [AddressedOp.perform, targetFlashRewrite_alias hseg hp]
  | erase => simp only [AddressedOp.perform, targetErase_alias hseg hp]
  | eraseSector => simp only [AddressedOp.perform, targetEraseSector_alias hseg hp]
  | eraseArea len =>
    simp only [AddressedOp.perform, targetEraseArea, eraseSectors_alias hseg hlen]

end Alias

/-- An operation is the same program at each of the three names of its address: the same accesses
to the registers, the same calls of the adapter and the same answer. -/
theorem perform_aliases (A : Adapter σ) (t : Target) (op : AddressedOp) (fuel : Nat) {p : Word}
    (hp : p.toNat < 0x20000000) (hlen : p.toNat + op.length ≤ 0x20000000) :
    op.perform A t fuel (p + 0x80000000) = op.perform A t fuel p ∧
      op.perform A t fuel (p + 0xA0000000) = op.perform A t fuel p :=
  ⟨perform_alias (.inl rfl) op fuel hp hlen, perform_alias (.inr rfl) op fuel hp hlen⟩

/-- A part of the boot memory that is erased. -/
theorem perform_aliases_boot :
    let erase := (AddressedOp.eraseArea 0x1000).perform (scripted mc12Id 0) Target.allocated 3
    erase (0x1FC00000 + 0x80000000) = erase 0x1FC00000 ∧
      erase (0x1FC00000 + 0xA0000000) = erase 0x1FC00000 :=
  perform_aliases _ _ _ 3 (by decide) (by decide)

end Mcprog
