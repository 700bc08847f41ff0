import Mcprog.Oncd.Registers

/-!
# Instructions of the processor

The instruction words and register numbers of `mips.h` that are fed through the debug block.
-/

namespace Mcprog

def mipsJr : Word := 0x8
def mipsAddi : Word := 0x8 <<< 26
def mipsMfhi : Word := 0x10
def mipsMflo : Word := 0x12
def mipsMthi : Word := 0x11
def mipsMtlo : Word := 0x13
def mipsSll : Word := 0x0
def mipsNop : Word := mipsSll
def mipsOri : Word := 0xd <<< 26
def mipsMfc0 : Word := 0x10 <<< 26
def mipsMtc0 : Word := (0x10 <<< 26) ||| (4 <<< 21)
def mipsLui : Word := 15 <<< 26
def mipsSw : Word := 0x2b <<< 26
def mipsSwc1 : Word := 0x39 <<< 26
def mipsMtc1 : Word := (0x11 <<< 26) ||| (4 <<< 21)
def mipsCtc1 : Word := (0x11 <<< 26) ||| (6 <<< 21)
def mipsCfc1 : Word := (0x11 <<< 26) ||| (2 <<< 21)

/-- The number of a register. -/
abbrev RegNo : Type := Fin 32

/-- The global pointer. -/
def gp : RegNo := 28

/-- The frame pointer. -/
def fp : RegNo := 30

def cp0Badvaddr : RegNo := 8
def cp0Status : RegNo := 12
def cp0Cause : RegNo := 13
def cp1Fir : RegNo := 0
def cp1Fcsr : RegNo := 31

/-- A register number in a field of an instruction. -/
def regField (regno : RegNo) (shift : Nat) : Word := BitVec.ofNat 32 regno <<< shift

/-- The internal memory. -/
def cramAddr : Word := 0xb8000000

/-- Where the processor starts. -/
def bootAddr : Word := 0xbfc00000

end Mcprog
