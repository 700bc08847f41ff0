import Mcprog.Adapter.RegisterFile

/-!
# Hardware breakpoints of the target

`target_add_break` and `target_remove_break` shift two breakpoints through the
comparators of the debug block. Comparator 0 holds the newest one.
-/

namespace Mcprog

open Interaction

variable {σ : Type}

/-- The fields of comparator 0 for a breakpoint of the type `'b'`, `'r'`, `'w'` or `'a'`. -/
def breakBits (type : Char) : Word :=
  match type with
  | 'b' => obcrCc0Eq ||| obcrRw0Read
  | 'r' => obcrCc0Eq ||| obcrRw0Read ||| obcrMbs0
  | 'w' => obcrCc0Eq ||| obcrRw0Write ||| obcrMbs0
  | 'a' => obcrCc0Eq ||| obcrRw0Rw ||| obcrMbs0
  | _ => 0

/-- The fields of comparator 0 moved to comparator 1. -/
def toSecond (obcr : Word) : Word :=
  ((obcr <<< 1) &&& obcrMbs1) ||| ((obcr <<< 4) &&& (obcrRw1Mask ||| obcrCc1Mask))

/-- The fields of comparator 1 moved to comparator 0. -/
def toFirst (obcr : Word) : Word :=
  ((obcr >>> 1) &&& obcrMbs0) ||| ((obcr >>> 4) &&& (obcrRw0Mask ||| obcrCc0Mask))

/-- The tail of `target_add_break`: write the registers, and clear the match counter. -/
def placeComparators (A : Adapter σ) (obcr omlr0 omlr1 : Word) : Action σ Unit := do
  oncdWrite A omlr0 oncdOmlr0 32
  oncdWrite A omlr1 oncdOmlr1 32
  oncdWrite A obcr oncdObcr 12
  oncdWrite A 0 oncdOmbc 16

/-- Add a breakpoint. One that is already there moves to the second comparator. -/
def targetAddBreak (A : Adapter σ) (addr : Word) (type : Char) : Action σ Unit := do
  let obcr ← oncdRead A oncdObcr 12
  if obcr &&& obcrRw0Rw ≠ 0 then
    let omlr1 ← oncdRead A oncdOmlr0 32
    placeComparators A (toSecond obcr ||| breakBits type) addr omlr1
  else
    placeComparators A (obcrAny ||| breakBits type) addr 0

/-- The tail of `target_remove_break`: write the three registers back. -/
def writeComparators (A : Adapter σ) (obcr omlr0 omlr1 : Word) : Action σ Unit := do
  oncdWrite A obcr oncdObcr 12
  oncdWrite A omlr0 oncdOmlr0 32
  oncdWrite A omlr1 oncdOmlr1 32

/-- Remove the breakpoint at an address, looking at comparator 0 first. -/
def targetRemoveBreak (A : Adapter σ) (addr : Word) : Action σ Unit := do
  let obcr ← oncdRead A oncdObcr 12
  let omlr0 ← oncdRead A oncdOmlr0 32
  let omlr1 ← oncdRead A oncdOmlr1 32
  if obcr &&& obcrRw0Rw ≠ 0 ∧ omlr0 = addr then
    if obcr &&& obcrRw1Rw ≠ 0 then
      writeComparators A (toFirst obcr) omlr1 0
    else
      writeComparators A 0 0 0
  else if obcr &&& obcrRw1Rw ≠ 0 ∧ omlr1 = addr then
    if obcr &&& obcrRw0Rw ≠ 0 then
      writeComparators A (obcr &&& ~~~(obcrMbs1 ||| obcrRw1Mask ||| obcrCc1Mask)) omlr0 0
    else
      writeComparators A 0 0 0
  else
    pure ()

end Mcprog
