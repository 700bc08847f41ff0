import Mathlib.Data.BitVec
import Mathlib.Tactic

/-!
# Registers of the on-chip debug block

The register numbers, command bits and field masks of `oncd.h`. A register number
is what the adapters shift into `IRd`, so the command bits are added to it. The
field constants are words, as the program computes with them.
-/

namespace Mcprog

/-- A machine word of the target and an `unsigned` of the program. -/
abbrev Word : Type := BitVec 32

/-- An `unsigned char`. -/
abbrev Byte : Type := BitVec 8

instance lawfulBEq_byte : LawfulBEq Byte := inferInstance

/-- The numbers of registers start at 0. -/
instance neZero_thirtyTwo : NeZero 32 := ⟨by decide⟩

/-- The code of a character. -/
def ascii (c : Char) : Byte := BitVec.ofNat 8 c.toNat

/-- The character that ends a line. -/
def newline : Byte := 0x0A

/-- The bytes of a number in memory, the low one first. -/
def leBytes {w : Nat} (n : Nat) (x : BitVec w) : List Byte :=
  (List.range n).map fun i => (x >>> (8 * i)).setWidth 8

@[simp] theorem length_leBytes {w : Nat} (n : Nat) (x : BitVec w) : (leBytes n x).length = n := by
  simp [leBytes]

def irdResume : Nat := 0x20
def irdRead : Nat := 0x40
def irdFlushPipe : Nat := 0x40
def irdStep1Clk : Nat := 0x80

def oncdOscr : Nat := 0x00
def oncdOmbc : Nat := 0x01
def oncdOmlr0 : Nat := 0x02
def oncdOmlr1 : Nat := 0x03
def oncdObcr : Nat := 0x04
def oncdIRdec : Nat := 0x05
def oncdPCdec : Nat := 0x07
def oncdPCexec : Nat := 0x08
def oncdPCfetch : Nat := 0x0A
def oncdOmar : Nat := 0x0B
def oncdOmdr : Nat := 0x0C
def oncdMem : Nat := 0x0D
def oncdGo : Nat := 0x0F
def oncdRegf : Nat := 0x10

def oscrSlctMem : Word := 0x0001
def oscrRo : Word := 0x0002
def oscrRdym : Word := 0x0020
def oscrSwo : Word := 0x0100
def oscrDbm : Word := 0x0400
def oscrNds : Word := 0x0800
def oscrNfexp : Word := 0x2000

def obcrMbs0 : Word := 0x001
def obcrMbs1 : Word := 0x002
def obcrRw0Write : Word := 0x004
def obcrRw0Read : Word := 0x008
def obcrRw0Rw : Word := 0x00c
def obcrRw0Mask : Word := 0x00c
def obcrCc0Eq : Word := 0x010
def obcrCc0Mask : Word := 0x030
def obcrRw1Rw : Word := 0x0c0
def obcrRw1Mask : Word := 0x0c0
def obcrCc1Mask : Word := 0x300
def obcrAny : Word := 0x400

def groupRfcpu : Word := 0
def groupRffpu : Word := 1
def groupCp0 : Word := 2
def groupHilo : Word := 3
def groupCp1 : Word := 4

end Mcprog
