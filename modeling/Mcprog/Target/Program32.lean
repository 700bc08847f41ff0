import Mcprog.Adapter.Logged
import Mcprog.Target.Program64
import Mcprog.Target.SectorBuffers

/-!
# Programming over a bus of 32 bits

Each word is stored after its three unlock stores. The USB adapter has packets for it, the FT2232
adapter goes through its debug registers, and any other adapter is given the words one by one.
-/

namespace Mcprog

open Interaction

variable {σ : Type} {A : Adapter σ} {t : Target} {addr base nwords : Word} {data : Nat → Word}

/-- The stores that program a block, word after word. -/
def blockWrites32 (t : Target) (addr base nwords : Word) (data : Nat → Word) : List (Word × Word) :=
  (List.range nwords.toNat).flatMap fun k =>
    [(base + t.flashAddrOdd, t.flashCmdAA), (base + t.flashAddrEven, t.flashCmd55),
      (base + t.flashAddrOdd, t.flashCmdA0), (addr + 4 * BitVec.ofNat 32 k, data k)]

/-- The words of a buffer by their numbers. -/
theorem consecutive_wordsOf (addr : Word) (n : Nat) (data : Nat → Word) :
    consecutive addr (wordsOf n data) =
      (List.range n).map fun k => (addr + 4 * BitVec.ofNat 32 k, data k) := by
  rw [consecutive_eq_zip, length_wordsOf, wordSteps_eq_range, wordsOf, List.zip_map']

theorem blockWrites32_eq (t : Target) (addr base nwords : Word) (data : Nat → Word) :
    blockWrites32 t addr base nwords data =
      (consecutive addr (wordsOf nwords.toNat data)).flatMap (wordArgs t base) := by
  rw [consecutive_wordsOf, List.flatMap_map]
  rfl

/-- By packets, of whatever number of words. -/
theorem targetProgramBlock32_packets (h : A.programBlock32.isSome) :
    Stores (targetProgramBlock32 A t addr base nwords data)
      (blockWrites32 t addr base nwords data) := by
  obtain ⟨program, hprogram⟩ := Option.isSome_iff_exists.mp h
  unfold targetProgramBlock32
  rw [hprogram, blockWrites32_eq]
  apply blockLoop_stores
  intro addr words
  apply extension_stores
  intro k
  rw [busStep, packetWrites_usbProgramBlock32 (Or.inl rfl)]
  rfl

/-- The debug registers store the words that the packet stores. -/
theorem mpsseProgramBlock32_stores (args : ProgramArgs) : Stores (mpsseProgramBlock32 A args)
    ((consecutive args.addr args.data).flatMap fun a => program32Writes args a.1 a.2) :=
  (silent_allowMemory _).bind_stores fun _ => mpsseWords_stores _

/-- Through the debug registers of the FT2232 adapter. -/
theorem targetProgramBlock32_registers (D : Adapter σ) :
    LogStores (targetProgramBlock32 (ft2232 D.logged) t addr base nwords data)
      (blockWrites32 t addr base nwords data) := by
  rw [blockWrites32_eq]
  apply blockLoop_rule logStores_pure (fun _ => logStores_stop) (fun hm hm' => LogStores.seq hm hm')
  intro addr words
  exact logStores_method (mpsseProgramBlock32_stores _) (keepsLog_mpsseProgramBlock32 _)

/-- Word by word. -/
theorem targetProgramBlock32_words (h : A.programBlock32 = none) :
    Stores (targetProgramBlock32 A t addr base nwords data)
      (nwordsArgs A (blockWrites32 t addr base nwords data)) := by
  unfold targetProgramBlock32
  rw [h, blockWrites32_eq]
  exact programWords_stores _ _ _

/-- By packets and through debug registers each word of a block is programmed by its four stores,
in the order of the words and with no other store. Word by word the same stores are made, each at
the address that it is mapped to: they are the same ones exactly where the adapter has its own
method for lists of words or all addresses are physical. -/
theorem targetProgramBlock32_writes (t : Target) (addr base nwords : Word) (data : Nat → Word) :
    (∀ {σ : Type} (A : Adapter σ), A.programBlock32.isSome → ∀ s tr s',
      (targetProgramBlock32 A t addr base nwords data).Returns s () tr s' →
        busWrites (busEvents tr) = blockWrites32 t addr base nwords data) ∧
    (∀ {σ : Type} (D : Adapter σ) s tr s',
      (targetProgramBlock32 (ft2232 D.logged) t addr base nwords data).Returns s () tr s' →
        ∃ calls, s'.device.log = s.device.log ++ calls ∧
          busWrites (busEvents calls) = blockWrites32 t addr base nwords data) ∧
    ∀ {σ : Type} (A : Adapter σ), A.programBlock32 = none → ∀ s tr s',
      (targetProgramBlock32 A t addr base nwords data).Returns s () tr s' →
        busWrites (busEvents tr) = nwordsArgs A (blockWrites32 t addr base nwords data) ∧
        (busWrites (busEvents tr) = blockWrites32 t addr base nwords data ↔
          A.writeNwords.isSome ∨ ∀ a ∈ blockWrites32 t addr base nwords data, a.1 < 0x80000000) := by
  refine ⟨?_, ?_, ?_⟩
  · intro σ A hA s tr s' hr
    rw [busEvents_of_exhibits (targetProgramBlock32_packets hA) hr, busWrites_stores]
  · intro σ D s tr s' hr
    obtain ⟨calls, hlog, hshows⟩ := targetProgramBlock32_registers D s () tr s' hr
    refine ⟨calls, hlog, ?_⟩
    rw [busEvents, (hshows bus.start bus.start_idle).2, busWrites_stores]
  · intro σ A hA s tr s' hr
    rw [busEvents_of_exhibits (targetProgramBlock32_words hA) hr, busWrites_stores]
    exact ⟨rfl, nwordsArgs_eq_self_iff⟩

/-- A board whose flash memory is 32 bits wide. -/
def longBoard : Target := { Target.allocated with toFlashVariant := flashVariant 0 }

/-- Program two words, the number of each of them. -/
def programLong (A : Adapter σ) (base : Word) : Action σ Unit :=
  targetProgramBlock32 A longBoard base base 2 fun i => BitVec.ofNat 32 i

/-- Two words of that flash memory, on each of the paths. -/
theorem programLong_writes :
    (∃ tr s, (programLong (scriptedUsb 0 0) 0x1FC00000).Returns ⟨0, []⟩ () tr s ∧
      busWrites (busEvents tr) =
        blockWrites32 longBoard 0x1FC00000 0x1FC00000 2 fun i => BitVec.ofNat 32 i) ∧
    (∃ tr s, (programLong (ft2232 (scripted 0 0).logged) 0x1FC00000).Returns ⟨0, ⟨[], []⟩⟩ () tr s ∧
      ∃ calls, s.device.log = [] ++ calls ∧ busWrites (busEvents calls) =
        blockWrites32 longBoard 0x1FC00000 0x1FC00000 2 fun i => BitVec.ofNat 32 i) ∧
    ∃ tr s, (programLong (scripted 0 0) 0x1FC00000).Returns ⟨0, []⟩ () tr s ∧
      (busWrites (busEvents tr) =
          blockWrites32 longBoard 0x1FC00000 0x1FC00000 2 (fun i => BitVec.ofNat 32 i) ↔
        (scripted 0 0).writeNwords.isSome ∨ ∀ a ∈ blockWrites32 longBoard 0x1FC00000 0x1FC00000 2
          (fun i => BitVec.ofNat 32 i), a.1 < 0x80000000) := by
  obtain ⟨hpackets, hregisters, hwords⟩ := targetProgramBlock32_writes longBoard 0x1FC00000
    0x1FC00000 2 fun i => BitVec.ofNat 32 i
  have hp : (programLong (scriptedUsb 0 0) 0x1FC00000 ⟨0, []⟩).result.toOption.map id = some () := by
    decide
  have hr : (programLong (ft2232 (scripted 0 0).logged) 0x1FC00000
      ⟨0, ⟨[], []⟩⟩).result.toOption.map id = some () := by decide
  have hw : (programLong (scripted 0 0) 0x1FC00000 ⟨0, []⟩).result.toOption.map id = some () := by
    decide
  obtain ⟨_, trp, sp, hp, _⟩ := Program.exists_returns hp
  obtain ⟨_, trr, sr, hr, _⟩ := Program.exists_returns hr
  obtain ⟨_, trw, sw, hw, _⟩ := Program.exists_returns hw
  exact ⟨⟨trp, sp, hp, hpackets _ rfl _ _ _ hp⟩, ⟨trr, sr, hr, hregisters _ _ _ _ hr⟩,
    ⟨trw, sw, hw, (hwords _ rfl _ _ _ hw).2⟩⟩

/-- Word by word the addresses of the uncached segment are mapped, by packets they are not. -/
theorem programLong_uncached_differ :
    (programLong (scriptedUsb 0 0) 0xBFC00000 ⟨0, []⟩).result.toOption = some () ∧
      (programLong (scripted 0 0) 0xBFC00000 ⟨0, []⟩).result.toOption = some () ∧
      busWrites (busEvents (programLong (scripted 0 0) 0xBFC00000 ⟨0, []⟩).trace) ≠
        busWrites (busEvents (programLong (scriptedUsb 0 0) 0xBFC00000 ⟨0, []⟩).trace) := by
  have hpackets : (busWrites (busEvents
      (programLong (scriptedUsb 0 0) 0xBFC00000 ⟨0, []⟩).trace))[0]? =
        some (0xBFC15554, longBoard.flashCmdAA) := by decide
  have hwords : (busWrites (busEvents (programLong (scripted 0 0) 0xBFC00000 ⟨0, []⟩).trace))[0]? =
      some (0x1FC15554, longBoard.flashCmdAA) := by decide
  refine ⟨by decide, by decide, ?_⟩
  intro h
  rw [h, hpackets] at hwords
  exact absurd hwords (by decide)

end Mcprog
