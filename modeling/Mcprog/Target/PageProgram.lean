import Mcprog.Adapter.Scripted
import Mcprog.Target.FlashDetect
import Mcprog.Target.FlashProgram

/-!
# Programming page by page

The number of page cycles of an Atmel block. The loop over the methods of the adapter
ends with the page in which the words end, the loop by stores ends only where its counter
comes down to 0: for a block that is no multiple of a page it never does.
-/

namespace Mcprog

open Interaction

variable {σ : Type} {A : Adapter σ} {t : Target} {addr base nwords : Word}
  {data : Nat → Word} {s : Session σ}

/-- One page cycle, on the path that the adapter provides. -/
def programPage (A : Adapter σ) (t : Target) (base addr : Word) (data : Nat → Word) :
    Action σ Unit :=
  match A.programBlock32Protect with
  | some protect => programPagePackets A t protect base addr data
  | none => programPageWords A t base addr data

/-- The page cycles from page `k` on: page `k` takes its words from the buffer at
`128 * k` to the address `512 * k` further on. -/
def programPages (A : Adapter σ) (t : Target) (base addr : Word) (data : Nat → Word) :
    Nat → Nat → Action σ Unit
  | 0, _ => pure ()
  | n + 1, k => do
    programPage A t base (addr + BitVec.ofNat 32 (512 * k)) fun i => data (atmelPage * k + i)
    programPages A t base addr data n (k + 1)

/-- The pages that a number of words begins. -/
def pageCount (nwords : Word) : Nat := (nwords.toNat + 127) / atmelPage

/-- The block operation makes the page cycles of its words, and then it ends. -/
def EndsAfterPages (A : Adapter σ) (t : Target) (addr base nwords : Word) (data : Nat → Word)
    (s : Session σ) : Prop :=
  ∃ enough, ∀ fuel ≥ enough, targetProgramBlock32Atmel A t addr base nwords data fuel s =
    programPages A t base addr data (pageCount nwords) 0 s

/-- The unlock stores of the unprotected cycle and of the protected one. -/
def unprotectArgs (t : Target) (base : Word) : List (Word × Word) :=
  [(base + t.flashAddrOdd, t.flashCmdAA), (base + t.flashAddrEven, t.flashCmd55),
    (base + t.flashAddrOdd, 0x80808080), (base + t.flashAddrOdd, t.flashCmdAA),
    (base + t.flashAddrEven, t.flashCmd55), (base + t.flashAddrOdd, 0x20202020)]

def protectArgs (t : Target) (base : Word) : List (Word × Word) :=
  [(base + t.flashAddrOdd, t.flashCmdAA), (base + t.flashAddrEven, t.flashCmd55),
    (base + t.flashAddrOdd, t.flashCmdA0)]

/-- With the methods of the adapter a page cycle stores its 128 words after each of the
two unlock sequences. -/
theorem programPage_packets (h : A.programBlock32Protect.isSome) :
    Stores (programPage A t base addr data)
      (unprotectArgs t base ++ consecutive addr (wordsOf atmelPage data) ++
        (protectArgs t base ++ consecutive addr (wordsOf atmelPage data))) := by
  obtain ⟨protect, hprotect⟩ := Option.isSome_iff_exists.mp h
  obtain ⟨unprotect, hunprotect⟩ := Option.isSome_iff_exists.mp (A.unprotect_of_protect h)
  unfold programPage programPagePackets
  rw [hprotect, hunprotect]
  apply Stores.seq
  · apply extension_stores
    intro k
    rw [busStep, packetWrites_usbProgramBlock32Unprotect (Or.inl rfl)]
    rfl
  · apply extension_stores
    intro k
    rw [busStep, packetWrites_usbProgramBlock32Protect (Or.inl rfl)]
    rfl

/-- By stores a page cycle does the same, where it is given a physical address and the
adapter takes blocks and lists of words. -/
theorem programPage_words (h : A.programBlock32Protect = none) (hblock : A.writeBlock.isSome)
    (hwords : A.writeNwords.isSome) (haddr : addr < 0x80000000) :
    Stores (programPage A t base addr data)
      (unprotectArgs t base ++ consecutive addr (wordsOf atmelPage data) ++
        (protectArgs t base ++ consecutive addr (wordsOf atmelPage data))) := by
  have hargs : ∀ args, nwordsArgs A args = args := by
    intro args
    obtain ⟨write, hwrite⟩ := Option.isSome_iff_exists.mp hwords
    rw [nwordsArgs, hwrite]
  have hpage : Stores (targetWriteBlock A t addr (BitVec.ofNat 32 atmelPage) data)
      (consecutive addr (wordsOf atmelPage data)) := by
    obtain ⟨write, hwrite⟩ := Option.isSome_iff_exists.mp hblock
    have hstores := targetWriteBlock_stores (A := A) (t := t) addr (BitVec.ofNat 32 atmelPage) data
    rw [hwrite, physical_of_lt haddr] at hstores
    exact hstores
  unfold programPage programPageWords
  rw [h]
  apply Stores.of_eq <| (targetWriteNwords_stores _ _).seq <| hpage.seq <|
    (targetWriteNwords_stores _ _).seq hpage
  rw [hargs, hargs, ← List.append_assoc]
  rfl

/-- The address of the next page. -/
theorem pageAddr_succ (addr : Word) (k : Nat) :
    addr + BitVec.ofNat 32 (512 * k) + 128 * 4 = addr + BitVec.ofNat 32 (512 * (k + 1)) := by
  rw [Nat.mul_succ, BitVec.ofNat_add, ← BitVec.add_assoc]
  rfl

/-- The words of the next page. -/
theorem pageData_succ (data : Nat → Word) (k : Nat) :
    (fun i => data (atmelPage * k + (atmelPage + i))) =
      fun i => data (atmelPage * (k + 1) + i) := by
  funext i
  rw [Nat.mul_succ, Nat.add_assoc]

/-- The first page starts at the address and the buffer themselves. -/
theorem page_zero (addr : Word) (data : Nat → Word) : addr + BitVec.ofNat 32 (512 * 0) = addr ∧
    (fun i => data (atmelPage * 0 + i)) = data := by
  refine ⟨BitVec.add_zero addr, ?_⟩
  funext i
  rw [Nat.mul_zero, Nat.zero_add]

/-- The loop over the methods makes the pages that its words begin. -/
theorem pagePacketsLoop_eq {protect : ProgramArgs → Extension σ Unit}
    (h : A.programBlock32Protect = some protect) {fuel : Nat} (hfuel : nwords.toNat ≤ fuel)
    (k : Nat) :
    pagePacketsLoop A t protect base fuel nwords (addr + BitVec.ofNat 32 (512 * k))
        (fun i => data (atmelPage * k + i)) =
      programPages A t base addr data (pageCount nwords) k := by
  induction fuel generalizing nwords k with
  | zero =>
    obtain rfl : nwords = 0 := BitVec.eq_of_toNat_eq (by simpa using hfuel)
    rfl
  | succ fuel ih =>
    unfold pagePacketsLoop
    by_cases hpos : nwords > 0
    · have hpos' : 0 < nwords.toNat := hpos
      rw [if_pos hpos]
      by_cases hlast : nwords ≤ 128
      · have hlast' : nwords.toNat ≤ 128 := hlast
        have hone : pageCount nwords = 1 := by
          unfold pageCount atmelPage
          omega
        rw [hone]
        simp only [if_pos hlast, programPages, programPage, h]
      · have hlast' : 128 < nwords.toNat := not_le.mp hlast
        have hsub : (nwords - 128).toNat = nwords.toNat - 128 :=
          BitVec.toNat_sub_of_le hlast'.le
        have hcount : pageCount nwords = pageCount (nwords - 128) + 1 := by
          unfold pageCount atmelPage
          omega
        rw [hcount]
        simp only [if_neg hlast, programPages, programPage, h, pageAddr_succ, pageData_succ]
        apply bind_congr
        intro _
        exact ih (by omega) (k + 1)
    · obtain rfl : nwords = 0 := by simpa using hpos
      rw [if_neg hpos]
      rfl

/-- The loop by stores makes page after page while its counter is not 0. -/
theorem pageWordsLoop_add (h : A.programBlock32Protect = none) (fuel m k : Nat)
    (hpos : ∀ j < m, 128 * j < nwords.toNat) :
    pageWordsLoop A t base (m + fuel) nwords (addr + BitVec.ofNat 32 (512 * k))
        (fun i => data (atmelPage * k + i)) =
      (programPages A t base addr data m k >>= fun _ =>
        pageWordsLoop A t base fuel (nwords - BitVec.ofNat 32 (128 * m))
          (addr + BitVec.ofNat 32 (512 * (k + m))) fun i => data (atmelPage * (k + m) + i)) := by
  induction m generalizing nwords k with
  | zero =>
    have hsub : nwords - BitVec.ofNat 32 (128 * 0) = nwords := BitVec.sub_zero nwords
    rw [hsub, Nat.zero_add]
    rfl
  | succ m ih =>
    have hfirst : 0 < nwords.toNat := hpos 0 (Nat.succ_pos m)
    have hgt : nwords > 0 := hfirst
    have hnext : nwords - 128 - BitVec.ofNat 32 (128 * m) =
        nwords - BitVec.ofNat 32 (128 * (m + 1)) := by
      rw [Nat.mul_succ, Nat.add_comm (128 * m), BitVec.ofNat_add, BitVec.sub_sub]
      rfl
    have hindex : k + (m + 1) = k + 1 + m := by omega
    have hrest : ∀ j < m, 128 * j < (nwords - 128).toNat := by
      intro j hj
      have hj' := hpos (j + 1) (by omega)
      rw [BitVec.toNat_sub_of_le (show (128 : Word).toNat ≤ nwords.toNat by
        change 128 ≤ nwords.toNat; omega)]
      change 128 * j < nwords.toNat - 128
      omega
    rw [Nat.succ_add, pageWordsLoop, if_pos hgt, programPages, bind_assoc, hindex, ← hnext]
    simp only [programPage, h, pageAddr_succ, pageData_succ]
    apply bind_congr
    intro _
    exact ih (k + 1) hrest

/-- A counter that is no multiple of a page never comes down to 0. -/
theorem not_returns_pageWordsLoop (hmod : nwords.toNat % 128 ≠ 0) {fuel : Nat} {u : Unit}
    {tr : List Call} {s' : Session σ} :
    ¬ (pageWordsLoop A t base fuel nwords addr data).Returns s u tr s' := by
  induction fuel generalizing nwords addr data s tr with
  | zero => exact Program.not_returns_stop
  | succ fuel ih =>
    have hpos : nwords > 0 := by
      by_contra hzero
      obtain rfl : nwords = 0 := by simpa using hzero
      exact hmod rfl
    have hnext : (nwords - 128).toNat % 128 ≠ 0 := by
      have hlt := nwords.isLt
      have hsub : (nwords - 128).toNat = (2 ^ 32 - 128 + nwords.toNat) % 2 ^ 32 :=
        BitVec.toNat_sub nwords 128
      omega
    rw [pageWordsLoop, if_pos hpos]
    intro h
    obtain ⟨_, tr₁, s₁, tr₂, -, h₂, -⟩ := Program.returns_bind_iff.mp h
    exact ih hnext h₂

theorem pageCount_pos (j : Nat) (hj : j < pageCount nwords) : 128 * j < nwords.toNat := by
  unfold pageCount atmelPage at hj
  omega

/-- With the methods of the adapter the block operation is the pages of its words. -/
theorem targetProgramBlock32Atmel_packets (h : A.programBlock32Protect.isSome) (fuel : Nat) :
    targetProgramBlock32Atmel A t addr base nwords data fuel =
      programPages A t base addr data (pageCount nwords) 0 := by
  obtain ⟨protect, hprotect⟩ := Option.isSome_iff_exists.mp h
  obtain ⟨haddr, hdata⟩ := page_zero addr data
  have hloop : pagePacketsLoop A t protect base nwords.toNat nwords
      (addr + BitVec.ofNat 32 (512 * 0)) (fun i => data (atmelPage * 0 + i)) = _ :=
    pagePacketsLoop_eq hprotect (le_refl _) 0
  rw [haddr, hdata] at hloop
  rw [targetProgramBlock32Atmel, hprotect]
  exact hloop

/-- Without them it is the pages of its words, and what the loop does after these. -/
theorem targetProgramBlock32Atmel_words (h : A.programBlock32Protect = none) (fuel : Nat) :
    targetProgramBlock32Atmel A t addr base nwords data (pageCount nwords + fuel) =
      (programPages A t base addr data (pageCount nwords) 0 >>= fun _ =>
        pageWordsLoop A t base fuel (nwords - BitVec.ofNat 32 (128 * pageCount nwords))
          (addr + BitVec.ofNat 32 (512 * (0 + pageCount nwords)))
            fun i => data (atmelPage * (0 + pageCount nwords) + i)) := by
  obtain ⟨haddr, hdata⟩ := page_zero addr data
  have hloop : pageWordsLoop A t base (pageCount nwords + fuel) nwords
      (addr + BitVec.ofNat 32 (512 * 0)) (fun i => data (atmelPage * 0 + i)) = _ :=
    pageWordsLoop_add h fuel (pageCount nwords) 0 pageCount_pos
  rw [haddr, hdata] at hloop
  rw [targetProgramBlock32Atmel, h]
  exact hloop

/-- A multiple of a page is used up by its pages. -/
theorem sub_pageCount (h : nwords.toNat % 128 = 0) :
    nwords - BitVec.ofNat 32 (128 * pageCount nwords) = 0 := by
  have hcount : 128 * pageCount nwords = nwords.toNat := by
    unfold pageCount atmelPage
    omega
  rw [hcount, BitVec.ofNat_toNat, BitVec.setWidth_eq]
  exact BitVec.sub_self nwords

/-- A multiple of a page ends after its pages on the path by stores. -/
theorem endsAfterPages_of_mod (h : A.programBlock32Protect = none)
    (hmod : nwords.toNat % 128 = 0) : EndsAfterPages A t addr base nwords data s := by
  refine ⟨pageCount nwords + 1, ?_⟩
  intro fuel hfuel
  obtain ⟨rest, rfl⟩ := Nat.exists_eq_add_of_le hfuel
  rw [Nat.add_assoc, Nat.add_comm 1, targetProgramBlock32Atmel_words h, sub_pageCount hmod]
  have hnot : ¬ (0 : Word) > 0 := by decide
  simp only [pageWordsLoop, if_neg hnot]
  exact congrFun (bind_pure _) s

/-- Where the adapter ends the program in one of the pages nothing follows them. -/
theorem endsAfterPages_of_stop (h : A.programBlock32Protect = none)
    (hstop : ¬ ∃ u tr s',
      (programPages A t base addr data (pageCount nwords) 0).Returns s u tr s') :
    EndsAfterPages A t addr base nwords data s := by
  refine ⟨pageCount nwords, ?_⟩
  intro fuel hfuel
  obtain ⟨rest, rfl⟩ := Nat.exists_eq_add_of_le hfuel
  rw [targetProgramBlock32Atmel_words h]
  exact Program.bind_eq_of_not_returns hstop

/-- A block that is no multiple of a page goes on after its pages. -/
theorem not_endsAfterPages (h : A.programBlock32Protect = none) (hmod : nwords.toNat % 128 ≠ 0)
    {u : Unit} {tr : List Call} {s' : Session σ}
    (hr : (programPages A t base addr data (pageCount nwords) 0).Returns s u tr s') :
    ¬ EndsAfterPages A t addr base nwords data s := by
  rintro ⟨enough, hends⟩
  have heq := hends enough (le_refl _)
  have hloop : (targetProgramBlock32Atmel A t addr base nwords data enough).Returns s u tr s' :=
    heq.trans hr
  rw [targetProgramBlock32Atmel, h] at hloop
  exact not_returns_pageWordsLoop hmod hloop

/-- The block operation makes the page cycles of its words and ends, exactly where the
adapter has methods for pages, or the words are a multiple of a page, or the adapter
itself ends the program in one of the pages. -/
theorem targetProgramBlock32Atmel_endsAfterPages_iff :
    EndsAfterPages A t addr base nwords data s ↔
      A.programBlock32Protect.isSome ∨ nwords.toNat % 128 = 0 ∨
        ¬ ∃ u tr s', (programPages A t base addr data (pageCount nwords) 0).Returns s u tr s' := by
  cases h : A.programBlock32Protect with
  | some protect =>
    have hsome : A.programBlock32Protect.isSome := by rw [h]; rfl
    simp only [Option.isSome_some, true_or, iff_true]
    exact ⟨0, fun fuel _ => congrFun (targetProgramBlock32Atmel_packets hsome fuel) s⟩
  | none =>
    simp only [Option.isSome_none, Bool.false_eq_true, false_or]
    constructor
    · intro hends
      by_contra hneg
      obtain ⟨hmod, hstop⟩ := not_or.mp hneg
      obtain ⟨u, tr, s', hr⟩ := not_not.mp hstop
      exact not_endsAfterPages h hmod hr hends
    · rintro (hmod | hstop)
      · exact endsAfterPages_of_mod h hmod
      · exact endsAfterPages_of_stop h hstop

/-- A board with chips of Atmel. -/
def atmelBoard : Target := selectVariant Target.allocated 4

/-- One word by stores: after its page the loop goes on over the flash memory. -/
theorem one_word_not_endsAfterPages :
    pageCount 1 = 1 ∧ ¬ EndsAfterPages (scriptedMpsse 0 0) atmelBoard 0 0 1
      (fun _ => 0xFFFFFFFF) ⟨0, []⟩ := by
  have h : (programPages (scriptedMpsse 0 0) atmelBoard 0 0 (fun _ => 0xFFFFFFFF)
      (pageCount 1) 0 ⟨0, []⟩).result.toOption.map id = some () := by decide
  obtain ⟨_, tr, s', hr, _⟩ := Program.exists_returns h
  exact ⟨by decide, not_endsAfterPages rfl (by decide) hr⟩

end Mcprog
