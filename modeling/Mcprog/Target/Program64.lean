import Mathlib.Data.Nat.Bitwise
import Mcprog.Adapter.Scripted
import Mcprog.Target.FlashDetect
import Mcprog.Target.FlashProgram

/-!
# Programming over a bus of 64 bits

Consecutive words go to the two halves of the bus in turn, and each half has unlock
addresses of its own. The packet of the adapter takes the half anew for each word, the
stores without such a method take it once, so they agree for one word only.
-/

namespace Mcprog

open Interaction

variable {σ σ' : Type} {A : Adapter σ} {A' : Adapter σ'} {t : Target} {addr base : Word}

/-- The stores that program one word through its own half of the bus. -/
def writes64 (t : Target) (base : Word) (a : Word × Word) : List (Word × Word) :=
  [(base + t.flashAddrOdd + (a.1 &&& 4), t.flashCmdAA),
    (base + t.flashAddrEven + (a.1 &&& 4), t.flashCmd55),
    (base + t.flashAddrOdd + (a.1 &&& 4), t.flashCmdA0), a]

/-- The stores that program a block, word after word. -/
def blockWrites64 (t : Target) (addr base nwords : Word) (data : Nat → Word) :
    List (Word × Word) :=
  (consecutive addr (wordsOf nwords.toNat data)).flatMap (writes64 t base)

/-- With the method of the adapter each word goes through its own half. -/
theorem targetProgramBlock64_packets (h : A.programBlock64.isSome) (nwords : Word)
    (data : Nat → Word) : Stores (targetProgramBlock64 A t addr base nwords data)
      (blockWrites64 t addr base nwords data) := by
  obtain ⟨program, hprogram⟩ := Option.isSome_iff_exists.mp h
  unfold targetProgramBlock64
  rw [hprogram]
  apply blockLoop_stores
  intro addr words
  apply extension_stores
  intro k
  rw [busStep, packetWrites_usbProgramBlock64 (Or.inl rfl)]
  rfl

/-- The unlock sequence of one word and the word. -/
def wordArgs (t : Target) (base : Word) (a : Word × Word) : List (Word × Word) :=
  [(base + t.flashAddrOdd, t.flashCmdAA), (base + t.flashAddrEven, t.flashCmd55),
    (base + t.flashAddrOdd, t.flashCmdA0), a]

theorem programWords_stores (words : List Word) (addr base : Word) :
    Stores (programWords A t base words addr)
      (nwordsArgs A ((consecutive addr words).flatMap (wordArgs t base))) := by
  induction words generalizing addr with
  | nil =>
    apply stores_pure.of_eq
    unfold nwordsArgs
    split <;> rfl
  | cons word words ih =>
    rw [consecutive, List.flatMap_cons, nwordsArgs_append]
    exact (targetWriteNwords_stores _ _).seq (ih (addr + 4))

/-- Without the method all words go through the half of the first one. -/
theorem targetProgramBlock64_words (h : A.programBlock64 = none) (nwords : Word)
    (data : Nat → Word) : Stores (targetProgramBlock64 A t addr base nwords data)
      (nwordsArgs A ((consecutive addr (wordsOf nwords.toNat data)).flatMap
        (wordArgs t (if addr &&& 4 ≠ 0 then base + 4 else base)))) := by
  unfold targetProgramBlock64
  rw [h]
  exact programWords_stores _ _ _

/-- The half of the bus as a number. -/
theorem half_toNat (addr : Word) : (addr &&& 4).toNat = addr.toNat / 4 % 2 * 4 := by
  have htwo : (4 : Word).toNat = 2 ^ 2 := rfl
  rw [BitVec.toNat_and, htwo, Nat.and_two_pow, Nat.testBit_eq_decide_div_mod_eq]
  have hfour : 2 ^ 2 = 4 := rfl
  rw [hfour]
  rcases Nat.mod_two_eq_zero_or_one (addr.toNat / 4) with h | h
  · rw [h]
    rfl
  · rw [h]
    rfl

/-- The base that is moved to the half of a word. -/
theorem halfBase_eq (addr base : Word) :
    (if addr &&& 4 ≠ 0 then base + 4 else base) = base + (addr &&& 4) := by
  have hhalf := half_toNat addr
  split
  · rename_i h
    have hne : (addr &&& 4).toNat ≠ 0 := fun hz => h (BitVec.eq_of_toNat_eq hz)
    have hfour : addr &&& 4 = 4 := by
      apply BitVec.eq_of_toNat_eq
      change (addr &&& 4).toNat = 4
      omega
    rw [hfour]
  · rename_i h
    rw [not_not.mp h]
    exact (BitVec.add_zero base).symm

/-- The first word goes through its own half without the method as well. -/
theorem wordArgs_halfBase (t : Target) (base : Word) (a : Word × Word) :
    wordArgs t (if a.1 &&& 4 ≠ 0 then base + 4 else base) a = writes64 t base a := by
  have hswap : ∀ off : Word, base + (a.1 &&& 4) + off = base + off + (a.1 &&& 4) := by
    intro off
    rw [BitVec.add_assoc, BitVec.add_comm (a.1 &&& 4), ← BitVec.add_assoc]
  rw [halfBase_eq, wordArgs, hswap, hswap, writes64]

/-- An address that is mapped to itself. -/
theorem physical_eq_self_iff : physical addr = addr ↔ addr < 0x80000000 := by
  constructor
  · intro h
    rw [← h]
    exact physical_lt addr
  · exact physical_of_lt

/-- Stores arrive at the addresses they are given for, where the adapter has its own
method for lists of words or these are physical addresses. -/
theorem nwordsArgs_eq_self_iff {args : List (Word × Word)} : nwordsArgs A args = args ↔
    A.writeNwords.isSome ∨ ∀ a ∈ args, a.1 < 0x80000000 := by
  unfold nwordsArgs
  cases A.writeNwords with
  | some write => simp
  | none =>
    have hmap : (args.map fun a => (physical a.1, a.2)) = args ↔
        ∀ a ∈ args, (physical a.1, a.2) = a := by
      conv_lhs => rhs; rw [← List.map_id args]
      exact List.map_inj_left
    simp only [hmap, Prod.ext_iff, and_true, physical_eq_self_iff]
    simp

/-- The half of the next word is the other one. -/
theorem half_succ_ne (x addr : Word) : physical (x + (addr &&& 4)) ≠ x + (addr + 4 &&& 4) ∧
    x + (addr &&& 4) ≠ x + (addr + 4 &&& 4) := by
  have hx := x.isLt
  have haddr := addr.isLt
  have hhalf := half_toNat addr
  have hnext := half_toNat (addr + 4)
  have hadd : (addr + 4).toNat = (addr.toNat + 4) % 2 ^ 32 := BitVec.toNat_add addr 4
  constructor
  · rw [ne_eq, ← BitVec.toNat_inj, physical_toNat, BitVec.toNat_add, BitVec.toNat_add]
    split_ifs <;> omega
  · rw [ne_eq, ← BitVec.toNat_inj, BitVec.toNat_add, BitVec.toNat_add]
    omega

/-- With two words or more the second one goes through the wrong half. -/
theorem words_ne_blockWrites64 {nwords : Word} {data : Nat → Word} (h : 2 ≤ nwords.toNat) :
    nwordsArgs A ((consecutive addr (wordsOf nwords.toNat data)).flatMap
      (wordArgs t (if addr &&& 4 ≠ 0 then base + 4 else base))) ≠
        blockWrites64 t addr base nwords data := by
  obtain ⟨n, hn⟩ : ∃ n, nwords.toNat = n + 1 + 1 := ⟨nwords.toNat - 2, by omega⟩
  obtain ⟨hmapped, hraw⟩ := half_succ_ne (base + t.flashAddrOdd) addr
  have hswap : base + (addr &&& 4) + t.flashAddrOdd = base + t.flashAddrOdd + (addr &&& 4) := by
    rw [BitVec.add_assoc, BitVec.add_comm (addr &&& 4), ← BitVec.add_assoc]
  rw [halfBase_eq, blockWrites64, hn, wordsOf_succ, wordsOf_succ]
  intro heq
  have hfifth := congrArg (fun l => (l[4]?).map Prod.fst) heq
  unfold nwordsArgs at hfifth
  cases hA : A.writeNwords with
  | some write =>
    rw [hA] at hfifth
    simp only [consecutive, List.flatMap_cons, wordArgs, writes64, List.cons_append,
      List.nil_append, List.getElem?_cons_succ, List.getElem?_cons_zero, Option.map_some,
      Option.some.injEq, hswap] at hfifth
    exact hraw hfifth
  | none =>
    rw [hA] at hfifth
    simp only [consecutive, List.flatMap_cons, wordArgs, writes64, List.cons_append,
      List.nil_append, List.map_cons, List.getElem?_cons_succ, List.getElem?_cons_zero,
      Option.map_some, Option.some.injEq, hswap] at hfifth
    exact hmapped hfifth

/-- The stores without the method are those of the packets exactly for a single word at
most, whose stores arrive at the addresses they are given for. -/
theorem words_eq_blockWrites64_iff {nwords : Word} {data : Nat → Word} :
    nwordsArgs A ((consecutive addr (wordsOf nwords.toNat data)).flatMap
      (wordArgs t (if addr &&& 4 ≠ 0 then base + 4 else base))) =
        blockWrites64 t addr base nwords data ↔
    nwords.toNat ≤ 1 ∧ (A.writeNwords.isSome ∨
      ∀ a ∈ blockWrites64 t addr base nwords data, a.1 < 0x80000000) := by
  by_cases htwo : 2 ≤ nwords.toNat
  · constructor
    · intro h
      exact absurd h (words_ne_blockWrites64 htwo)
    · rintro ⟨hone, -⟩
      omega
  · have hone : nwords.toNat ≤ 1 := by omega
    have hargs : (consecutive addr (wordsOf nwords.toNat data)).flatMap
        (wordArgs t (if addr &&& 4 ≠ 0 then base + 4 else base)) =
          blockWrites64 t addr base nwords data := by
      rcases Nat.le_one_iff_eq_zero_or_eq_one.mp hone with h | h
      · rw [blockWrites64, h]
        rfl
      · rw [blockWrites64, h]
        exact congrArg (· ++ []) (wordArgs_halfBase t base (addr, data 0))
    rw [hargs, nwordsArgs_eq_self_iff]
    simp [hone]

/-- The two ways to program a block put the same stores on the bus, each word through its
own half, exactly for a single word at most, whose stores without the method arrive at
the addresses they are given for. -/
theorem targetProgramBlock64_same_iff {nwords : Word} {data : Nat → Word} {s s₁ : Session σ}
    {s' s₁' : Session σ'} {tr tr' : List Call} (hA : A.programBlock64.isSome)
    (hA' : A'.programBlock64 = none)
    (h : (targetProgramBlock64 A t addr base nwords data).Returns s () tr s₁)
    (h' : (targetProgramBlock64 A' t addr base nwords data).Returns s' () tr' s₁') :
    (busWrites (busEvents tr') = busWrites (busEvents tr) ∧
      busWrites (busEvents tr) = blockWrites64 t addr base nwords data) ↔
    nwords.toNat ≤ 1 ∧ (A'.writeNwords.isSome ∨
      ∀ a ∈ blockWrites64 t addr base nwords data, a.1 < 0x80000000) := by
  have hpackets := busEvents_of_exhibits (targetProgramBlock64_packets hA nwords data) h
  have hwords := busEvents_of_exhibits (targetProgramBlock64_words hA' nwords data) h'
  rw [hpackets, hwords, busWrites_stores, busWrites_stores, words_eq_blockWrites64_iff]
  simp

/-- A board whose flash memory is 64 bits wide. -/
def wideBoard : Target := { Target.allocated with toFlashVariant := flashVariant 1 }

/-- Program erased words at the start of its flash memory, without the method. -/
def programWide (nwords : Word) : Outcome Call (Session (List Word)) Fatal Unit :=
  targetProgramBlock64 (scripted 0 0) wideBoard 0 0 nwords (fun _ => 0xFFFFFFFF) ⟨0, []⟩

/-- The same through packets. -/
def programWidePackets (nwords : Word) : Outcome Call (Session (List Word)) Fatal Unit :=
  targetProgramBlock64 (scriptedUsb 0 0) wideBoard 0 0 nwords (fun _ => 0xFFFFFFFF) ⟨0, []⟩

/-- One word of that flash memory. -/
theorem programWide_one_same_iff : ∃ tr tr' s s',
    (targetProgramBlock64 (scriptedUsb 0 0) wideBoard 0 0 1 fun _ => 0xFFFFFFFF).Returns
        ⟨0, []⟩ () tr s ∧
    (targetProgramBlock64 (scripted 0 0) wideBoard 0 0 1 fun _ => 0xFFFFFFFF).Returns
        ⟨0, []⟩ () tr' s' ∧
    ((busWrites (busEvents tr') = busWrites (busEvents tr) ∧
      busWrites (busEvents tr) = blockWrites64 wideBoard 0 0 1 fun _ => 0xFFFFFFFF) ↔
    (1 : Word).toNat ≤ 1 ∧ ((scripted 0 0).writeNwords.isSome ∨
      ∀ a ∈ blockWrites64 wideBoard 0 0 1 fun _ => 0xFFFFFFFF, a.1 < 0x80000000)) := by
  have h : (programWidePackets 1).result.toOption.map id = some () := by decide
  have h' : (programWide 1).result.toOption.map id = some () := by decide
  obtain ⟨_, tr, s, hr, _⟩ := Program.exists_returns h
  obtain ⟨_, tr', s', hr', _⟩ := Program.exists_returns h'
  exact ⟨tr, tr', s, s', hr, hr', targetProgramBlock64_same_iff rfl rfl hr hr'⟩

/-- Two words: without the method the second one goes through the half of the first. -/
theorem programWide_two_differ :
    (programWidePackets 2).result.toOption = some () ∧
      (programWide 2).result.toOption = some () ∧
      busWrites (busEvents (programWide 2).trace) ≠
        busWrites (busEvents (programWidePackets 2).trace) := by
  have hpackets : (busWrites (busEvents (programWidePackets 2).trace))[4]? =
      some (0x2AAAC, wideBoard.flashCmdAA) := by decide
  have hwords : (busWrites (busEvents (programWide 2).trace))[4]? =
      some (0x2AAA8, wideBoard.flashCmdAA) := by decide
  refine ⟨by decide, by decide, ?_⟩
  intro h
  rw [h, hpackets] at hwords
  exact absurd hwords (by decide)

end Mcprog
