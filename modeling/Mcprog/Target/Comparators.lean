import Mcprog.Library.Runs
import Mcprog.Target.Breakpoint

/-!
# The two comparators behind the breakpoint registers

A breakpoint is an address with a kind, and each of the two comparators may hold
one. The registers encode such a table, and `target_add_break` and
`target_remove_break` act on it as a short queue. Every fact about the control
register is stated for the encoding of a table, where it is a finite check.
-/

namespace Mcprog

open Interaction

/-- What a breakpoint stops at. -/
inductive BreakKind
  | code
  | read
  | write
  | access
  deriving DecidableEq, Repr

/-- The type that `target_add_break` takes. -/
def BreakKind.letter : BreakKind → Char
  | .code => 'b'
  | .read => 'r'
  | .write => 'w'
  | .access => 'a'

/-- A breakpoint of the target. -/
structure Breakpoint where
  addr : Word
  kind : BreakKind
  deriving DecidableEq, Repr

/-- The control register for the kinds in the comparators and the trigger condition. -/
def obcrOf (kind0 kind1 : Option BreakKind) (any : Bool) : Word :=
  (kind0.elim 0 fun k => breakBits k.letter) |||
    (kind1.elim 0 fun k => toSecond (breakBits k.letter)) ||| if any then obcrAny else 0

/-- The control register of the comparators has twelve bits. -/
@[simp] theorem shifted_obcrOf (kind0 kind1 : Option BreakKind) (any : Bool) :
    shifted (obcrOf kind0 kind1 any) 12 = obcrOf kind0 kind1 any := by
  rcases kind0 with _ | _ | _ | _ | _ <;> rcases kind1 with _ | _ | _ | _ | _ <;> cases any <;> rfl

/-- The field `RW0` says whether comparator 0 is in use. -/
theorem obcrOf_rw0 (kind0 kind1 : Option BreakKind) (any : Bool) :
    obcrOf kind0 kind1 any &&& obcrRw0Rw ≠ 0 ↔ kind0.isSome := by
  rcases kind0 with _ | _ | _ | _ | _ <;> rcases kind1 with _ | _ | _ | _ | _ <;> cases any <;>
    decide

/-- The field `RW1` says whether comparator 1 is in use. -/
theorem obcrOf_rw1 (kind0 kind1 : Option BreakKind) (any : Bool) :
    obcrOf kind0 kind1 any &&& obcrRw1Rw ≠ 0 ↔ kind1.isSome := by
  rcases kind0 with _ | _ | _ | _ | _ <;> rcases kind1 with _ | _ | _ | _ | _ <;> cases any <;>
    decide

/-- The two fields together say whether any comparator is in use. -/
theorem obcrOf_rw (kind0 kind1 : Option BreakKind) (any : Bool) :
    obcrOf kind0 kind1 any &&& (obcrRw0Mask ||| obcrRw1Mask) ≠ 0 ↔
      kind0.isSome ∨ kind1.isSome := by
  rcases kind0 with _ | _ | _ | _ | _ <;> rcases kind1 with _ | _ | _ | _ | _ <;> cases any <;>
    decide

/-- The bit `ANY` is the trigger condition. -/
theorem obcrOf_any (kind0 kind1 : Option BreakKind) (any : Bool) :
    obcrOf kind0 kind1 any &&& obcrAny ≠ 0 ↔ any := by
  rcases kind0 with _ | _ | _ | _ | _ <;> rcases kind1 with _ | _ | _ | _ | _ <;> cases any <;>
    decide

/-- Adding to an empty comparator 0 triggers on any match. -/
theorem obcrAny_or_breakBits (kind : BreakKind) :
    obcrAny ||| breakBits kind.letter = obcrOf (some kind) none true := by
  cases kind <;> rfl

/-- Adding to a full comparator 0 moves it on, and clears the trigger condition. -/
theorem toSecond_or_breakBits (old kind : BreakKind) (kind1 : Option BreakKind) (any : Bool) :
    toSecond (obcrOf (some old) kind1 any) ||| breakBits kind.letter =
      obcrOf (some kind) (some old) false := by
  rcases kind1 with _ | _ | _ | _ | _ <;> cases any <;> cases old <;> cases kind <;> rfl

/-- Removing comparator 0 moves comparator 1 back, and clears the trigger condition. -/
theorem toFirst_obcrOf (kind0 : Option BreakKind) (kind : BreakKind) (any : Bool) :
    toFirst (obcrOf kind0 (some kind) any) = obcrOf (some kind) none false := by
  rcases kind0 with _ | _ | _ | _ | _ <;> cases any <;> cases kind <;> rfl

/-- Removing comparator 1 leaves comparator 0 and the trigger condition. -/
theorem obcrOf_clear_second (kind0 kind1 : Option BreakKind) (any : Bool) :
    obcrOf kind0 kind1 any &&& ~~~(obcrMbs1 ||| obcrRw1Mask ||| obcrCc1Mask) =
      obcrOf kind0 none any := by
  rcases kind0 with _ | _ | _ | _ | _ <;> rcases kind1 with _ | _ | _ | _ | _ <;> cases any <;> rfl

/-- What the comparators hold. -/
structure Comparators where
  slot0 : Option Breakpoint
  slot1 : Option Breakpoint
  /-- Whether one match is enough to stop. -/
  any : Bool
  deriving DecidableEq, Repr

namespace Comparators

/-- The control register of a table. -/
def obcr (c : Comparators) : Word := obcrOf (c.slot0.map (·.kind)) (c.slot1.map (·.kind)) c.any

/-- No breakpoints. -/
def empty : Comparators := ⟨none, none, false⟩

/-- What `target_add_break` makes of a table. -/
def add (c : Comparators) (b : Breakpoint) : Comparators :=
  match c.slot0 with
  | some old => ⟨some b, some old, false⟩
  | none => ⟨some b, none, true⟩

/-- The comparator in a slot answers to an address. -/
def Matches (slot : Option Breakpoint) (addr : Word) : Prop := ∃ b, slot = some b ∧ b.addr = addr

instance (slot : Option Breakpoint) (addr : Word) : Decidable (Matches slot addr) :=
  match slot with
  | none => isFalse (by rintro ⟨b, hb, -⟩; simp at hb)
  | some b => decidable_of_iff (b.addr = addr)
      ⟨fun h => ⟨b, rfl, h⟩, by rintro ⟨b', hb, h⟩; rw [Option.some.inj hb]; exact h⟩

/-- What `target_remove_break` makes of a table. -/
def remove (c : Comparators) (addr : Word) : Comparators :=
  if Matches c.slot0 addr then ⟨c.slot1, none, false⟩
  else if Matches c.slot1 addr then
    if c.slot0.isSome then ⟨c.slot0, none, c.any⟩ else empty
  else c

/-- The registers encode the table. The value register of a free comparator is arbitrary. -/
structure Encoded (r : Registers) (c : Comparators) : Prop where
  obcr : r oncdObcr = c.obcr
  addr0 : ∀ b, c.slot0 = some b → r oncdOmlr0 = b.addr
  addr1 : ∀ b, c.slot1 = some b → r oncdOmlr1 = b.addr

variable {r : Registers} {c : Comparators} {addr : Word}

/-- The control register 0 means that there are no breakpoints. -/
theorem encoded_empty (h : r oncdObcr = 0) : Encoded r empty where
  obcr := h
  addr0 := by simp [empty]
  addr1 := by simp [empty]

/-- It is read as it is. -/
theorem Encoded.shifted_obcr (h : Encoded r c) : shifted (r oncdObcr) 12 = c.obcr := by
  rw [h.obcr, Comparators.obcr, shifted_obcrOf]

/-- The bits for the first comparator are set where it is in use. -/
theorem rw0_obcr : c.obcr &&& obcrRw0Rw ≠ 0 ↔ c.slot0.isSome := by
  rw [obcr, obcrOf_rw0, Option.isSome_map]

/-- The bits for the second comparator are set where it is in use. -/
theorem rw1_obcr : c.obcr &&& obcrRw1Rw ≠ 0 ↔ c.slot1.isSome := by
  rw [obcr, obcrOf_rw1, Option.isSome_map]

theorem rw_obcr : c.obcr &&& (obcrRw0Mask ||| obcrRw1Mask) ≠ 0 ↔
    c.slot0.isSome ∨ c.slot1.isSome := by
  rw [obcr, obcrOf_rw, Option.isSome_map, Option.isSome_map]

/-- The bit that lets either of them stop the program. -/
theorem any_obcr : c.obcr &&& obcrAny ≠ 0 ↔ c.any := by
  rw [obcr, obcrOf_any]

/-- The test of `target_remove_break` on comparator 0. -/
theorem Encoded.matches0 (h : Encoded r c) :
    c.obcr &&& obcrRw0Rw ≠ 0 ∧ r oncdOmlr0 = addr ↔ Matches c.slot0 addr := by
  rw [rw0_obcr, Option.isSome_iff_exists]
  constructor
  · rintro ⟨⟨b, hb⟩, ha⟩
    exact ⟨b, hb, (h.addr0 b hb).symm.trans ha⟩
  · rintro ⟨b, hb, ha⟩
    exact ⟨⟨b, hb⟩, (h.addr0 b hb).trans ha⟩

/-- The test of `target_remove_break` on comparator 1. -/
theorem Encoded.matches1 (h : Encoded r c) :
    c.obcr &&& obcrRw1Rw ≠ 0 ∧ r oncdOmlr1 = addr ↔ Matches c.slot1 addr := by
  rw [rw1_obcr, Option.isSome_iff_exists]
  constructor
  · rintro ⟨⟨b, hb⟩, ha⟩
    exact ⟨b, hb, (h.addr1 b hb).symm.trans ha⟩
  · rintro ⟨b, hb, ha⟩
    exact ⟨⟨b, hb⟩, (h.addr1 b hb).trans ha⟩

variable {s : Session Registers} {obcr omlr0 omlr1 : Word}

/-- Three register values that describe a table. -/
structure Describes (obcr omlr0 omlr1 : Word) (c : Comparators) : Prop where
  obcr : obcr = c.obcr
  addr0 : ∀ b, c.slot0 = some b → omlr0 = b.addr
  addr1 : ∀ b, c.slot1 = some b → omlr1 = b.addr

/-- Registers that describe the comparators are read as they are. -/
theorem Describes.shifted_obcr (h : Describes obcr omlr0 omlr1 c) :
    shifted obcr 12 = c.obcr := by
  rw [h.obcr, Comparators.obcr, shifted_obcrOf]

/-- The tail of `target_add_break` encodes the table that its values describe. -/
theorem Describes.place (h : Describes obcr omlr0 omlr1 c) (s : Session Registers) :
    ∃ s', (placeComparators registerFile obcr omlr0 omlr1).Reaches s () s' ∧
      Encoded s'.device c := by
  refine ⟨_, (registerFile_write _ _ _ _).bind ((registerFile_write _ _ _ _).bind
    ((registerFile_write _ _ _ _).bind (registerFile_write _ _ _ _))), ?_, ?_, ?_⟩
  · exact h.shifted_obcr
  · intro b hb
    exact (shifted_thirtyTwo omlr0).trans (h.addr0 b hb)
  · intro b hb
    exact (shifted_thirtyTwo omlr1).trans (h.addr1 b hb)

/-- The tail of `target_remove_break` encodes the table that its values describe. -/
theorem Describes.write (h : Describes obcr omlr0 omlr1 c) (s : Session Registers) :
    ∃ s', (writeComparators registerFile obcr omlr0 omlr1).Reaches s () s' ∧
      Encoded s'.device c := by
  refine ⟨_, (registerFile_write _ _ _ _).bind ((registerFile_write _ _ _ _).bind
    (registerFile_write _ _ _ _)), ?_, ?_, ?_⟩
  · exact h.shifted_obcr
  · intro b hb
    exact (shifted_thirtyTwo omlr0).trans (h.addr0 b hb)
  · intro b hb
    exact (shifted_thirtyTwo omlr1).trans (h.addr1 b hb)

/-- The registers that `target_add_break` computes for an empty comparator 0. -/
theorem describes_add_first (addr : Word) (kind : BreakKind) :
    Describes (obcrAny ||| breakBits kind.letter) addr 0 ⟨some ⟨addr, kind⟩, none, true⟩ where
  obcr := obcrAny_or_breakBits kind
  addr0 := by simp
  addr1 := by simp

/-- The registers that `target_add_break` computes for a full comparator 0. -/
theorem Encoded.describes_add_second (h : Encoded r c) {old : Breakpoint} (h₀ : c.slot0 = some old)
    (addr : Word) (kind : BreakKind) :
    Describes (toSecond c.obcr ||| breakBits kind.letter) addr (r oncdOmlr0)
      ⟨some ⟨addr, kind⟩, some old, false⟩ where
  obcr := by
    rw [Comparators.obcr, h₀]
    exact toSecond_or_breakBits old.kind kind _ _
  addr0 := by simp
  addr1 b hb := by rw [h.addr0 old h₀, ← Option.some.inj hb]

/-- `target_add_break` adds to the table. -/
theorem Encoded.targetAddBreak (h : Encoded s.device c) (addr : Word) (kind : BreakKind) :
    ∃ s', (targetAddBreak registerFile addr kind.letter).Reaches s () s' ∧
      Encoded s'.device (c.add ⟨addr, kind⟩) := by
  have hread := registerFile_read oncdObcr 12 s
  rw [h.shifted_obcr] at hread
  cases h₀ : c.slot0 with
  | none =>
    obtain ⟨s', hs', he⟩ := (describes_add_first addr kind).place s
    refine ⟨s', hread.bind ?_, ?_⟩
    · rw [if_neg (by rw [rw0_obcr, h₀]; simp)]
      exact hs'
    · simpa only [add, h₀] using he
  | some old =>
    obtain ⟨s', hs', he⟩ := (h.describes_add_second h₀ addr kind).place s
    refine ⟨s', hread.bind ?_, ?_⟩
    · rw [if_pos (by rw [rw0_obcr, h₀]; rfl)]
      have hread0 := registerFile_read oncdOmlr0 32 s
      rw [shifted_thirtyTwo] at hread0
      exact hread0.bind hs'
    · simpa only [add, h₀] using he

/-- The register values 0 describe the empty table. -/
theorem describes_empty : Describes 0 0 0 empty where
  obcr := rfl
  addr0 := by simp [empty]
  addr1 := by simp [empty]

/-- The registers that `target_remove_break` computes to move comparator 1 back. -/
theorem Encoded.describes_move (h : Encoded r c) {b₁ : Breakpoint} (h₁ : c.slot1 = some b₁) :
    Describes (toFirst c.obcr) (r oncdOmlr1) 0 ⟨c.slot1, none, false⟩ where
  obcr := by
    rw [Comparators.obcr, Comparators.obcr, h₁]
    exact toFirst_obcrOf _ b₁.kind _
  addr0 b hb := h.addr1 b hb
  addr1 := by simp

/-- The registers that `target_remove_break` computes to clear comparator 1. -/
theorem Encoded.describes_clear (h : Encoded r c) :
    Describes (c.obcr &&& ~~~(obcrMbs1 ||| obcrRw1Mask ||| obcrCc1Mask)) (r oncdOmlr0) 0
      ⟨c.slot0, none, c.any⟩ where
  obcr := obcrOf_clear_second _ _ _
  addr0 b hb := h.addr0 b hb
  addr1 := by simp

/-- `target_remove_break` removes from the table. -/
theorem Encoded.targetRemoveBreak (h : Encoded s.device c) (addr : Word) :
    ∃ s', (targetRemoveBreak registerFile addr).Reaches s () s' ∧
      Encoded s'.device (c.remove addr) := by
  have hread := registerFile_read oncdObcr 12 s
  have hread0 := registerFile_read oncdOmlr0 32 s
  have hread1 := registerFile_read oncdOmlr1 32 s
  rw [h.shifted_obcr] at hread
  rw [shifted_thirtyTwo] at hread0 hread1
  by_cases hm₀ : Matches c.slot0 addr
  · rw [remove, if_pos hm₀]
    cases h₁ : c.slot1 with
    | none =>
      obtain ⟨s', hs', he⟩ := describes_empty.write s
      refine ⟨s', hread.bind (hread0.bind (hread1.bind ?_)), he⟩
      rw [if_pos (h.matches0.mpr hm₀), if_neg (by rw [rw1_obcr, h₁]; simp)]
      exact hs'
    | some b₁ =>
      obtain ⟨s', hs', he⟩ := (h.describes_move h₁).write s
      refine ⟨s', hread.bind (hread0.bind (hread1.bind ?_)), h₁ ▸ he⟩
      rw [if_pos (h.matches0.mpr hm₀), if_pos (by rw [rw1_obcr, h₁]; rfl)]
      exact hs'
  · rw [remove, if_neg hm₀]
    by_cases hm₁ : Matches c.slot1 addr
    · rw [if_pos hm₁]
      by_cases h₀ : c.slot0.isSome
      · rw [if_pos h₀]
        obtain ⟨s', hs', he⟩ := h.describes_clear.write s
        refine ⟨s', hread.bind (hread0.bind (hread1.bind ?_)), he⟩
        rw [if_neg (mt h.matches0.mp hm₀), if_pos (h.matches1.mpr hm₁), if_pos (rw0_obcr.mpr h₀)]
        exact hs'
      · rw [if_neg h₀]
        obtain ⟨s', hs', he⟩ := describes_empty.write s
        refine ⟨s', hread.bind (hread0.bind (hread1.bind ?_)), he⟩
        rw [if_neg (mt h.matches0.mp hm₀), if_pos (h.matches1.mpr hm₁),
          if_neg (mt rw0_obcr.mp h₀)]
        exact hs'
    · rw [if_neg hm₁]
      refine ⟨s, hread.bind (hread0.bind (hread1.bind ?_)), h⟩
      rw [if_neg (mt h.matches0.mp hm₀), if_neg (mt h.matches1.mp hm₁)]
      exact Program.Returns.reaches (Program.returns_pure_iff.mpr ⟨rfl, rfl, rfl⟩)

end Comparators

end Mcprog
