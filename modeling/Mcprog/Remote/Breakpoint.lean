import Mcprog.Target.BreakpointRuns

/-!
# Breakpoint requests of the debugger

`elvees_add_break` and `elvees_remove_break` pass the `Z` and `z` requests on to the
target. A run of requests is followed on both sides: the pairs that the comparators
hold, and the pairs that the debugger was granted and has not taken back.
-/

namespace Mcprog

open Interaction

/-- The answer of a target method. -/
inductive TargetRet
  | ok
  | nosupp
  deriving DecidableEq, Repr

variable {σ : Type}

/-- Handle a `Z` request. The 64-bit address is cut to an `unsigned`. -/
def elveesAddBreak (A : Adapter σ) (type : Int) (addr : BitVec 64) : Action σ TargetRet :=
  match type with
  | 1 => do
    targetAddBreak A (addr.setWidth 32) 'b'
    return .ok
  | 2 => do
    targetAddBreak A (addr.setWidth 32) 'w'
    return .ok
  | 3 => do
    targetAddBreak A (addr.setWidth 32) 'r'
    return .ok
  | 4 => do
    targetAddBreak A (addr.setWidth 32) 'a'
    return .ok
  | _ => return .nosupp

/-- Handle a `z` request. -/
def elveesRemoveBreak (A : Adapter σ) (_type : Int) (addr : BitVec 64) : Action σ TargetRet := do
  targetRemoveBreak A (addr.setWidth 32)
  return .ok

/-- The number of a kind in `Z` and `z` requests. -/
def BreakKind.type : BreakKind → Int
  | .code => 1
  | .write => 2
  | .read => 3
  | .access => 4

/-- A breakpoint as the debugger names it. -/
abbrev BreakPair : Type := BitVec 64 × BreakKind

/-- A request of one of the types 1 to 4. -/
inductive BreakRequest
  | insert (pair : BreakPair)
  | remove (pair : BreakPair)
  deriving DecidableEq

/-- Handle the request. -/
def BreakRequest.run (A : Adapter σ) : BreakRequest → Action σ TargetRet
  | .insert pair => elveesAddBreak A pair.2.type pair.1
  | .remove pair => elveesRemoveBreak A pair.2.type pair.1

/-- The kind that the fields of comparator 0 select. -/
def kindOf (obcr : Word) : BreakKind :=
  if obcr &&& obcrMbs0 = 0 then .code
  else if obcr &&& obcrRw0Mask = obcrRw0Rw then .access
  else if obcr &&& obcrRw0Mask = obcrRw0Write then .write
  else .read

/-- The pair in comparator 0, where it is enabled. -/
def pair0 (r : Registers) : Option BreakPair :=
  if r oncdObcr &&& obcrRw0Mask ≠ 0 then
    some ((r oncdOmlr0).setWidth 64, kindOf (r oncdObcr))
  else none

/-- The pair in comparator 1, where it is enabled. -/
def pair1 (r : Registers) : Option BreakPair :=
  if r oncdObcr &&& obcrRw1Mask ≠ 0 then
    some ((r oncdOmlr1).setWidth 64, kindOf (toFirst (r oncdObcr)))
  else none

/-- The pairs held in the enabled comparators. -/
def heldPairs (r : Registers) : Finset BreakPair := (pair0 r).toFinset ∪ (pair1 r).toFinset

/-- Both sides of a run of requests. -/
structure DebugState where
  session : Session Registers
  /-- The pairs whose insertion was answered `ok` and that were not removed since. -/
  granted : Finset BreakPair

/-- Handle a request, and keep the debugger's record of it. -/
def requestStep (d : DebugState) (req : BreakRequest) : DebugState where
  session := (req.run registerFile d.session).state
  granted := match (req.run registerFile d.session).result with
    | .ok .ok => match req with
      | .insert pair => insert pair d.granted
      | .remove pair => d.granted.erase pair
    | _ => d.granted

/-- The comparators hold exactly what the debugger was granted. -/
def HoldsGranted (d : DebugState) : Prop := heldPairs d.session.device = d.granted

/-- The pair that `target_remove_break` finds for an address, comparator 0 first, and the
pair in the other comparator. -/
def foundPair (r : Registers) (addr : BitVec 64) : Option (BreakPair × Option BreakPair) :=
  ((pair0 r).filter (answersTo addr)).map (·, pair1 r) <|>
    ((pair1 r).filter (answersTo addr)).map (·, pair0 r)
where
  /-- The comparator compares the low half of the address. -/
  answersTo (addr : BitVec 64) (p : BreakPair) : Bool := p.1 = (addr.setWidth 32).setWidth 64

/-- The requests that the comparators can follow. An insertion has an address of 32 bits
and finds comparator 1 free, or holding a pair that is not lost. A removal names the
pair that is found, unless both comparators hold the found one. -/
def Followable (d : DebugState) : BreakRequest → Prop
  | .insert pair => pair.1.toNat < 2 ^ 32 ∧ (pair1 d.session.device = none ∨
      pair1 d.session.device = pair0 d.session.device ∨ pair1 d.session.device = some pair)
  | .remove pair => ∀ p other, foundPair d.session.device pair.1 = some (p, other) →
      (p = pair ↔ other ≠ some p)

section Pairs

variable {α : Type} [DecidableEq α] {a b p : α} {o₀ o₁ : Option α}

/-- Replacing the second pair is inserting one, where the second one is not lost. -/
theorem insert_toFinset_eq_iff (hab : a = b ∨ a ∉ insert b o₀.toFinset) :
    insert b o₀.toFinset = insert a (o₀.toFinset ∪ o₁.toFinset) ↔
      a = b ∧ (o₁ = none ∨ o₁ = o₀ ∨ o₁ = some a) := by
  constructor
  · intro h
    have ha : a = b := by
      rcases hab with hab | hab
      · exact hab
      · exact absurd (h ▸ Finset.mem_insert_self a _) hab
    refine ⟨ha, ?_⟩
    cases o₁ with
    | none => exact Or.inl rfl
    | some q =>
      have hq : q ∈ insert b o₀.toFinset := by
        rw [h]
        simp
      rcases Finset.mem_insert.mp hq with hq | hq
      · exact Or.inr (Or.inr (by rw [hq, ha]))
      · exact Or.inr (Or.inl (Option.mem_toFinset.mp hq).symm)
  · rintro ⟨rfl, rfl | rfl | rfl⟩
    · simp
    · rw [Finset.union_self]
    · rw [Option.toFinset_some, Finset.union_comm, Finset.singleton_union,
        Finset.insert_idem]

/-- Dropping the found pair is erasing the named one, where these are the same or the
found one is held twice. -/
theorem toFinset_eq_erase_iff :
    o₁.toFinset = (insert p o₁.toFinset).erase a ↔ (p = a ↔ o₁ ≠ some p) := by
  have hmem : p ∈ o₁.toFinset ↔ o₁ = some p := Option.mem_toFinset
  by_cases hpa : p = a
  · subst hpa
    rw [Finset.erase_insert_eq_erase, eq_comm, Finset.erase_eq_self, hmem]
    simp
  · simp only [hpa, false_iff, not_not]
    constructor
    · intro h
      rw [← hmem, h]
      exact Finset.mem_erase.mpr ⟨hpa, Finset.mem_insert_self p _⟩
    · rintro rfl
      rw [Option.toFinset_some, Finset.insert_eq_of_mem (Finset.mem_singleton_self p),
        Finset.erase_eq_of_notMem (by simpa using Ne.symm hpa)]

end Pairs

/-- A breakpoint of the target as the debugger names it. -/
def Breakpoint.pair (b : Breakpoint) : BreakPair := (b.addr.setWidth 64, b.kind)

/-- The address of a breakpoint has 32 bits. -/
theorem Breakpoint.pair_lt (b : Breakpoint) : b.pair.1.toNat < 2 ^ 32 := by
  rw [Breakpoint.pair, BitVec.toNat_setWidth]
  have := b.addr.isLt
  omega

/-- A pair whose address has 32 bits is kept whole. -/
theorem pair_eq_of_lt {p : BreakPair} (h : p.1.toNat < 2 ^ 32) :
    (Breakpoint.mk (p.1.setWidth 32) p.2).pair = p := by
  apply Prod.ext
  · apply BitVec.eq_of_toNat_eq
    simp only [Breakpoint.pair, BitVec.toNat_setWidth]
    omega
  · rfl

theorem kindOf_obcrOf (kind : BreakKind) (kind1 : Option BreakKind) (any : Bool) :
    kindOf (obcrOf (some kind) kind1 any) = kind := by
  rcases kind1 with _ | _ | _ | _ | _ <;> cases any <;> cases kind <;> rfl

namespace Comparators

variable {r : Registers} {c : Comparators} {addr : BitVec 64}

/-- The pair read from the registers of comparator 0. -/
theorem Encoded.pair0 (h : Encoded r c) : pair0 r = c.slot0.map Breakpoint.pair := by
  have hrw := rw0_obcr (c := c)
  rw [Mcprog.pair0, h.obcr, show obcrRw0Mask = obcrRw0Rw from rfl]
  cases h₀ : c.slot0 with
  | none => rw [if_neg (by rw [hrw, h₀]; simp), Option.map_none]
  | some b =>
    rw [if_pos (by rw [hrw, h₀]; rfl), Option.map_some, h.addr0 b h₀, Comparators.obcr, h₀,
      Option.map_some, kindOf_obcrOf, Breakpoint.pair]

/-- The pair read from the registers of comparator 1. -/
theorem Encoded.pair1 (h : Encoded r c) : pair1 r = c.slot1.map Breakpoint.pair := by
  have hrw := rw1_obcr (c := c)
  rw [Mcprog.pair1, h.obcr, show obcrRw1Mask = obcrRw1Rw from rfl]
  cases h₁ : c.slot1 with
  | none => rw [if_neg (by rw [hrw, h₁]; simp), Option.map_none]
  | some b =>
    rw [if_pos (by rw [hrw, h₁]; rfl), Option.map_some, h.addr1 b h₁, Comparators.obcr, h₁,
      Option.map_some, toFirst_obcrOf, kindOf_obcrOf, Breakpoint.pair]

/-- Only the low half of the address is compared. -/
theorem answersTo_pair (b : Breakpoint) (addr : BitVec 64) :
    foundPair.answersTo addr b.pair = decide (b.addr = addr.setWidth 32) := by
  rw [foundPair.answersTo, decide_eq_decide]
  constructor
  · intro h
    have hlow := congrArg (BitVec.setWidth 32) h
    simpa [Breakpoint.pair] using hlow
  · intro h
    rw [Breakpoint.pair, h]

/-- The pairs of a table. -/
def pairs (c : Comparators) : Finset BreakPair :=
  (c.slot0.map Breakpoint.pair).toFinset ∪ (c.slot1.map Breakpoint.pair).toFinset

theorem Encoded.heldPairs (h : Encoded r c) : heldPairs r = c.pairs := by
  rw [Mcprog.heldPairs, h.pair0, h.pair1, pairs]

/-- The pairs after an addition: comparator 1 is lost. -/
theorem pairs_add (c : Comparators) (b : Breakpoint) :
    (c.add b).pairs = insert b.pair (c.slot0.map Breakpoint.pair).toFinset := by
  cases h₀ : c.slot0 with
  | none => simp [pairs, add, h₀]
  | some old =>
    simp only [pairs, add, h₀, Option.map_some, Option.toFinset_some]
    rfl

/-- A slot is looked at by its address. -/
theorem filter_answersTo (slot : Option Breakpoint) (addr : BitVec 64) :
    (slot.map Breakpoint.pair).filter (foundPair.answersTo addr) =
      if Matches slot (addr.setWidth 32) then slot.map Breakpoint.pair else none := by
  cases slot with
  | none => simp
  | some b =>
    have hm : Matches (some b) (addr.setWidth 32) ↔ b.addr = addr.setWidth 32 := by
      simp [Matches]
    simp only [Option.map_some, Option.filter_some, answersTo_pair, decide_eq_true_eq, hm]

/-- The pair that is found is the one that `target_remove_break` takes out. -/
theorem Encoded.foundPair (h : Encoded r c) (addr : BitVec 64) : foundPair r addr =
    if Matches c.slot0 (addr.setWidth 32) then
      (c.slot0.map Breakpoint.pair).map (·, c.slot1.map Breakpoint.pair)
    else if Matches c.slot1 (addr.setWidth 32) then
      (c.slot1.map Breakpoint.pair).map (·, c.slot0.map Breakpoint.pair)
    else none := by
  rw [Mcprog.foundPair, h.pair0, h.pair1, filter_answersTo, filter_answersTo]
  by_cases hm₀ : Matches c.slot0 (addr.setWidth 32)
  · obtain ⟨b, hb, -⟩ := id hm₀
    rw [if_pos hm₀, if_pos hm₀, hb]
    rfl
  · by_cases hm₁ : Matches c.slot1 (addr.setWidth 32)
    · simp [hm₀, hm₁]
    · simp [hm₀, hm₁]

/-- A removal that finds a pair leaves the other comparator. -/
theorem Encoded.pairs_remove_found (h : Encoded r c) {p : BreakPair} {other : Option BreakPair}
    (hf : Mcprog.foundPair r addr = some (p, other)) :
    c.pairs = insert p other.toFinset ∧ (c.remove (addr.setWidth 32)).pairs = other.toFinset := by
  rw [h.foundPair] at hf
  split at hf
  · rename_i hm₀
    obtain ⟨b, hb, -⟩ := id hm₀
    rw [hb] at hf
    obtain ⟨rfl, rfl⟩ := Prod.mk.inj (Option.some.inj hf)
    rw [remove, if_pos hm₀]
    constructor
    · rw [pairs, hb]
      rfl
    · rw [pairs, Option.map_none, Option.toFinset_none, Finset.union_empty]
  · rename_i hm₀
    split at hf
    · rename_i hm₁
      obtain ⟨b, hb, -⟩ := id hm₁
      rw [hb] at hf
      obtain ⟨rfl, rfl⟩ := Prod.mk.inj (Option.some.inj hf)
      rw [remove, if_neg hm₀, if_pos hm₁]
      constructor
      · rw [pairs, hb, Finset.union_comm]
        rfl
      · cases h₀ : c.slot0 with
        | none => simp [pairs, empty]
        | some b₀ => simp [pairs]
    · simp at hf

/-- A removal that finds nothing changes nothing, and no pair with the address is held. -/
theorem Encoded.pairs_remove_not_found (h : Encoded r c)
    (hf : Mcprog.foundPair r addr = none) (kind : BreakKind) :
    (addr, kind) ∉ c.pairs ∧ c.remove (addr.setWidth 32) = c := by
  rw [h.foundPair] at hf
  have hm₀ : ¬ Matches c.slot0 (addr.setWidth 32) := by
    intro hm₀
    obtain ⟨b, hb, -⟩ := id hm₀
    rw [if_pos hm₀, hb] at hf
    simp at hf
  have hm₁ : ¬ Matches c.slot1 (addr.setWidth 32) := by
    intro hm₁
    obtain ⟨b, hb, -⟩ := id hm₁
    rw [if_neg hm₀, if_pos hm₁, hb] at hf
    simp at hf
  refine ⟨?_, by rw [remove, if_neg hm₀, if_neg hm₁]⟩
  have hslot : ∀ slot : Option Breakpoint, ¬ Matches slot (addr.setWidth 32) →
      (addr, kind) ∉ (slot.map Breakpoint.pair).toFinset := by
    intro slot hm hmem
    obtain ⟨b, hb, hp⟩ := Option.map_eq_some_iff.mp (Option.mem_toFinset.mp hmem)
    refine hm ⟨b, hb, ?_⟩
    rw [← (Prod.mk.inj hp).1]
    simp
  rw [pairs, Finset.mem_union, not_or]
  exact ⟨hslot _ hm₀, hslot _ hm₁⟩

/-- What a request makes of a table. -/
def follow (c : Comparators) : BreakRequest → Comparators
  | .insert pair => c.add ⟨pair.1.setWidth 32, pair.2⟩
  | .remove pair => c.remove (pair.1.setWidth 32)

end Comparators

/-- The debugger's record after a request that is answered `ok`. -/
def record (granted : Finset BreakPair) : BreakRequest → Finset BreakPair
  | .insert pair => insert pair granted
  | .remove pair => granted.erase pair

open Comparators

/-- A request of one of the types 1 to 4 is the call on the target, answered `ok`. -/
theorem elveesAddBreak_type (A : Adapter σ) (kind : BreakKind) (addr : BitVec 64) :
    elveesAddBreak A kind.type addr = (do
      targetAddBreak A (addr.setWidth 32) kind.letter
      return .ok) := by
  cases kind <;> rfl

/-- Every request is answered `ok`, whatever it does to the comparators. -/
theorem Comparators.Encoded.requestStep {d : DebugState} {c : Comparators}
    (h : Encoded d.session.device c) (req : BreakRequest) :
    Encoded (requestStep d req).session.device (c.follow req) ∧
      (requestStep d req).granted = record d.granted req := by
  have hok : ∀ s : Session Registers,
      (pure .ok : Action Registers TargetRet).Reaches s .ok s := fun s =>
    Program.Returns.reaches (Program.returns_pure_iff.mpr ⟨rfl, rfl, rfl⟩)
  cases req with
  | insert pair =>
    obtain ⟨s', hs', he⟩ := h.targetAddBreak (pair.1.setWidth 32) pair.2
    have hrun : ((BreakRequest.insert pair).run registerFile).Reaches d.session .ok s' := by
      rw [BreakRequest.run, elveesAddBreak_type]
      exact hs'.bind (hok s')
    rw [Mcprog.requestStep, hrun.state, hrun.result]
    exact ⟨he, rfl⟩
  | remove pair =>
    obtain ⟨s', hs', he⟩ := h.targetRemoveBreak (pair.1.setWidth 32)
    have hrun : ((BreakRequest.remove pair).run registerFile).Reaches d.session .ok s' :=
      hs'.bind (hok s')
    rw [Mcprog.requestStep, hrun.state, hrun.result]
    exact ⟨he, rfl⟩

/-- A request keeps the comparators and the record together exactly where it can be
followed. -/
theorem holdsGranted_requestStep {d : DebugState} {c : Comparators}
    (he : Encoded d.session.device c) (hd : HoldsGranted d) (req : BreakRequest) :
    HoldsGranted (requestStep d req) ↔ Followable d req := by
  obtain ⟨he', hg'⟩ := he.requestStep req
  rw [HoldsGranted, he.heldPairs] at hd
  rw [HoldsGranted, he'.heldPairs, hg', ← hd]
  cases req with
  | insert pair =>
    have hlt : pair = (Breakpoint.mk (pair.1.setWidth 32) pair.2).pair ↔
        pair.1.toNat < 2 ^ 32 := by
      constructor
      · intro h
        rw [h]
        exact Breakpoint.pair_lt _
      · intro h
        exact (pair_eq_of_lt h).symm
    rw [follow, pairs_add, record, pairs, insert_toFinset_eq_iff, Followable, he.pair0, he.pair1,
      hlt]
    by_cases h : pair.1.toNat < 2 ^ 32
    · exact Or.inl (hlt.mpr h)
    · right
      intro hmem
      rcases Finset.mem_insert.mp hmem with hp | hp
      · exact h (hlt.mp hp)
      · obtain ⟨b, -, hb⟩ := Option.map_eq_some_iff.mp (Option.mem_toFinset.mp hp)
        exact h (hb ▸ Breakpoint.pair_lt b)
  | remove pair =>
    rw [follow, record, Followable]
    cases hf : Mcprog.foundPair d.session.device pair.1 with
    | none =>
      obtain ⟨hmem, hrem⟩ := he.pairs_remove_not_found hf pair.2
      rw [hrem, Finset.erase_eq_of_notMem hmem]
      simp
    | some found =>
      obtain ⟨p, other⟩ := found
      obtain ⟨hpairs, hrem⟩ := he.pairs_remove_found hf
      rw [hrem, hpairs, toFinset_eq_erase_iff]
      simp

/-- From empty comparators, in every state of a run the comparators hold exactly what
the debugger was granted, exactly where each request of the run can be followed. -/
theorem throughout_holdsGranted {s : Session Registers} (h₀ : s.device oncdObcr = 0)
    (reqs : List BreakRequest) :
    Throughout requestStep HoldsGranted ⟨s, ∅⟩ reqs ↔
      AtEachStep requestStep Followable ⟨s, ∅⟩ reqs := by
  have he := encoded_empty h₀
  apply throughout_iff_atEachStep requestStep (I := fun d => ∃ c, Encoded d.session.device c)
  · rintro d req ⟨c, hc⟩ hd
    exact holdsGranted_requestStep hc hd req
  · rintro d req ⟨c, hc⟩ - -
    exact ⟨_, (hc.requestStep req).1⟩
  · exact ⟨_, he⟩
  · rw [HoldsGranted, he.heldPairs]
    rfl

/-- The run that inserts a breakpoint and a watchpoint and removes the older one. -/
theorem throughout_holdsGranted_two_pairs :
    clearSession.device oncdObcr = 0 ∧
      (Throughout requestStep HoldsGranted ⟨clearSession, ∅⟩
        [.insert (0x100, .code), .insert (0x200, .write), .remove (0x100, .code)] ↔
      AtEachStep requestStep Followable ⟨clearSession, ∅⟩
        [.insert (0x100, .code), .insert (0x200, .write), .remove (0x100, .code)]) :=
  ⟨rfl, throughout_holdsGranted rfl _⟩

/-- A third breakpoint is granted, and the first one is lost. -/
theorem not_holdsGranted_after_three_inserts :
    clearSession.device oncdObcr = 0 ∧
      ¬ HoldsGranted (runFrom requestStep ⟨clearSession, ∅⟩
        [.insert (0x100, .code), .insert (0x200, .code), .insert (0x300, .code)]) := by
  refine ⟨rfl, ?_⟩
  unfold HoldsGranted
  decide

end Mcprog
