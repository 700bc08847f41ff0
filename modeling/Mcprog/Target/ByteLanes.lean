import Mcprog.Adapter.Logged
import Mcprog.Target.Control
import Mcprog.Target.EraseAddress
import Mcprog.Target.Program32

/-!
# Programming over a bus of 8 bits

A chip of one byte is behind a bus of four. The lane of a store is in two bits of `CSCON3`, and the
routine sets them in the value that it keeps of this register. A value that `target_stop` has read
has these bits cleared, a value of the configuration file is kept as it is.
-/

namespace Mcprog

open Interaction Program

variable {σ : Type} {A : Adapter σ} {t : Target} {addr base nwords : Word} {data : Nat → Word}

/-- Keep a value for the register that configures the flash memory. -/
def Target.targetSetCscon3 (t : Target) (value : Word) : Target := { t with cscon3 := value }

/-- The lane that a value of `CSCON3` selects. -/
def laneOf (cscon3 : Word) : BitVec 2 := cscon3.extractLsb' 20 2

/-- The lane that an address belongs to. -/
def byteLane (addr : Word) : BitVec 2 := addr.setWidth 2

/-- A byte that the chip is given. -/
structure ChipWrite where
  addr : Word
  lane : BitVec 2
  byte : Byte
  deriving DecidableEq, Repr

/-- What the chip is given by the stores on the bus. The lane is that of the last value of
`CSCON3`. -/
def chipWrites : BitVec 2 → List (Word × Word) → List ChipWrite
  | _, [] => []
  | lane, (addr, data) :: args =>
    if addr = mcCscon3 then chipWrites (laneOf data) args
    else ⟨addr, lane, data.setWidth 8⟩ :: chipWrites lane args

/-- A store of a byte as it is meant: at its address, in the lane of the address. -/
def ownLane (fast : Bool) (a : Word × Word) : ChipWrite :=
  ⟨wordPlace fast a.1, byteLane a.1, a.2.setWidth 8⟩

/-- The stores of bytes that program a block: the unlock bypass, each byte of the words after its
command, the lowest one first, and the reset of the bypass. -/
def blockBytes (t : Target) (addr base nwords : Word) (data : Nat → Word) : List (Word × Word) :=
  [(base + t.flashAddrOdd, t.flashCmdAA), (base + t.flashAddrEven, t.flashCmd55),
    (base + t.flashAddrOdd, t.flashCmd20)] ++
  ((List.range (4 * nwords.toNat)).flatMap fun k =>
    [(addr + BitVec.ofNat 32 k, t.flashCmdA0),
      (addr + BitVec.ofNat 32 k, data (k / 4) >>> (8 * (k % 4)))]) ++
  [(base, t.flashCmd90), (base, 0)]

/-- The chip is given each byte of a block once, in order, in the lane of its address. -/
def DeliversBytes (fast : Bool) (t : Target) (addr base nwords : Word) (data : Nat → Word)
    (args : List (Word × Word)) : Prop :=
  ∀ lane, chipWrites lane args = (blockBytes t addr base nwords data).map (ownLane fast)

/-- The bits of the lane that are kept do not disturb the lane of an address. -/
def Target.LaneFits (t : Target) (addr : Word) : Prop :=
  laneOf t.cscon3 ||| byteLane addr = byteLane addr

/-- The lane of an address is added to the one that is set. -/
theorem laneOf_select (cscon3 addr : Word) :
    laneOf (cscon3 ||| mcCscon3Addr addr) = laneOf cscon3 ||| byteLane addr := by
  apply BitVec.eq_of_getLsbD_eq
  intro i hi
  have hmask : (3#32).getLsbD i = true := by
    interval_cases i <;> rfl
  have hwidth : 20 + i < 32 := by omega
  simp only [laneOf, byteLane, mcCscon3Addr, BitVec.getLsbD_extractLsb', BitVec.getLsbD_or,
    BitVec.getLsbD_shiftLeft, BitVec.getLsbD_and, BitVec.getLsbD_setWidth, BitVec.ofNat_eq_ofNat, hmask,
    hi, hwidth, Nat.not_lt.mpr (Nat.le_add_right 20 i), Nat.add_sub_cancel_left, decide_true, decide_false,
    Bool.not_false, Bool.true_and, Bool.and_true]

/-- The register for the lane is at its physical address. -/
theorem wordPlace_cscon3 (fast : Bool) : wordPlace fast mcCscon3 = mcCscon3 := by
  cases fast <;> rfl

/-- The stores of a list, each where its path sends it. -/
theorem nwordsArgs_eq_map (args : List (Word × Word)) :
    nwordsArgs A args = args.map fun a => (wordPlace A.writeNwords.isSome a.1, a.2) := by
  unfold nwordsArgs
  cases A.writeNwords with
  | some f => exact (List.map_id' args).symm
  | none => rfl

/-- The chip gets a byte behind the selection of its lane, unless the byte goes to `CSCON3`. -/
theorem chipWrites_byte (fast : Bool) (lane : BitVec 2) (a : Word × Word) (args : List (Word × Word)) :
    chipWrites lane ((byteArgs t [a]).map (fun a => (wordPlace fast a.1, a.2)) ++ args) =
      if wordPlace fast a.1 = mcCscon3 then chipWrites (laneOf a.2) args
      else ⟨wordPlace fast a.1, laneOf t.cscon3 ||| byteLane a.1, a.2.setWidth 8⟩ ::
        chipWrites (laneOf t.cscon3 ||| byteLane a.1) args := by
  simp only [byteArgs, List.flatMap_cons, List.flatMap_nil, List.append_nil, List.map_cons,
    List.map_nil, List.cons_append, List.nil_append, chipWrites, wordPlace_cscon3, if_true,
    laneOf_select]

/-- The first byte comes before the others. -/
theorem byteArgs_cons (a : Word × Word) (args : List (Word × Word)) :
    byteArgs t (a :: args) = byteArgs t [a] ++ byteArgs t args := rfl

theorem byteArgs_append (args args' : List (Word × Word)) :
    byteArgs t (args ++ args') = byteArgs t args ++ byteArgs t args' := List.flatMap_append

/-- The chip gets no more bytes than are sent to it. -/
theorem length_chipWrites_le (fast : Bool) (args : List (Word × Word)) (lane : BitVec 2) :
    (chipWrites lane ((byteArgs t args).map fun a => (wordPlace fast a.1, a.2))).length ≤ args.length := by
  induction args generalizing lane with
  | nil => exact le_refl 0
  | cons a args ih =>
    rw [byteArgs_cons, List.map_append, chipWrites_byte]
    split
    · exact (ih _).trans (Nat.le_succ _)
    · exact Nat.succ_le_succ (ih _)

/-- Each byte comes in its own lane if and only if no lane is disturbed and none of the bytes goes
to `CSCON3`. -/
theorem chipWrites_eq_iff (fast : Bool) (args : List (Word × Word)) (lane : BitVec 2) :
    chipWrites lane ((byteArgs t args).map fun a => (wordPlace fast a.1, a.2)) = args.map (ownLane fast) ↔
      ∀ a ∈ args, t.LaneFits a.1 ∧ wordPlace fast a.1 ≠ mcCscon3 := by
  induction args generalizing lane with
  | nil => simp [byteArgs, chipWrites]
  | cons a args ih =>
    rw [byteArgs_cons, List.map_append, chipWrites_byte, List.forall_mem_cons, List.map_cons]
    split
    · rename_i hself
      have hlen := length_chipWrites_le (t := t) fast args (laneOf a.2)
      constructor
      · intro h
        rw [h] at hlen
        simp at hlen
      · rintro ⟨⟨-, hne⟩, -⟩
        exact absurd hself hne
    · rename_i hne
      rw [List.cons.injEq, ih, ownLane, ChipWrite.mk.injEq]
      simp only [Target.LaneFits, true_and, and_true, hne, ne_eq, not_false_eq_true]

/-- The stores that program the four bytes of a word. -/
def wordStores (t : Target) (a : Word × Word) : List (Word × Word) :=
  [(a.1, t.flashCmdA0), (a.1, a.2), (a.1 + 1, t.flashCmdA0), (a.1 + 1, a.2 >>> 8),
    (a.1 + 2, t.flashCmdA0), (a.1 + 2, a.2 >>> 16), (a.1 + 3, t.flashCmdA0), (a.1 + 3, a.2 >>> 24)]

/-- Four steps for each of `n`. -/
theorem range_four_mul {α : Type} (n : Nat) (f : Nat → List α) : (List.range (4 * n)).flatMap f =
    (List.range n).flatMap fun k => f (4 * k) ++ f (4 * k + 1) ++ f (4 * k + 2) ++ f (4 * k + 3) := by
  induction n with
  | zero => rfl
  | succ n ih =>
    rw [List.range_succ, List.flatMap_append, ← ih, show 4 * (n + 1) = 4 * n + 1 + 1 + 1 + 1 by ring]
    simp only [List.range_succ, List.flatMap_append, List.flatMap_singleton, List.append_assoc]

/-- The bytes of a block are those of its words. -/
theorem wordStores_blocks (t : Target) (addr : Word) (n : Nat) (data : Nat → Word) :
    (consecutive addr (wordsOf n data)).flatMap (wordStores t) =
      (List.range (4 * n)).flatMap fun k => [(addr + BitVec.ofNat 32 k, t.flashCmdA0),
        (addr + BitVec.ofNat 32 k, data (k / 4) >>> (8 * (k % 4)))] := by
  rw [range_four_mul, consecutive_wordsOf, List.flatMap_map]
  refine List.flatMap_congr fun k _ => ?_
  have hstep : ∀ i : Nat, addr + BitVec.ofNat 32 (4 * k + i) =
      addr + 4 * BitVec.ofNat 32 k + BitVec.ofNat 32 i := by
    intro i
    rw [BitVec.ofNat_add, BitVec.ofNat_mul, BitVec.add_assoc]
    rfl
  have hdiv : ∀ i < 4, (4 * k + i) / 4 = k ∧ (4 * k + i) % 4 = i := by omega
  have hzero := hdiv 0 (by decide)
  have hone := hdiv 1 (by decide)
  have htwo := hdiv 2 (by decide)
  have hthree := hdiv 3 (by decide)
  have hstart := hstep 0
  rw [Nat.add_zero] at hstart hzero
  rw [hstart, hstep, hstep, hstep, hzero.1, hzero.2, hone.1, hone.2, htwo.1, htwo.2, hthree.1, hthree.2,
    BitVec.add_zero, Nat.mul_zero, BitVec.ushiftRight_zero]
  rfl

/-- The bytes of a word with the commands before them. -/
theorem byteArgs_wordStores (addr word : Word) : byteArgs t (wordStores t (addr, word)) =
    byteArgs t [(addr, t.flashCmdA0), (addr, word)] ++
    (byteArgs t [(addr + 1, t.flashCmdA0), (addr + 1, word >>> 8)] ++
    (byteArgs t [(addr + 2, t.flashCmdA0), (addr + 2, word >>> 16)] ++
    byteArgs t [(addr + 3, t.flashCmdA0), (addr + 3, word >>> 24)])) := by
  rw [← byteArgs_append, ← byteArgs_append, ← byteArgs_append]
  rfl

/-- What the routine is made of makes the stores of the bytes. `P` is how the stores are seen. -/
theorem targetProgramBlock8_rule {P : Action σ Unit → List (Word × Word) → Prop}
    (hdone : P (pure ()) [])
    (hseq : ∀ {m m' : Action σ Unit} {args args'}, P m args → P m' args' → P (do m; m') (args ++ args'))
    (hbyte : ∀ addr data, P (targetWriteByte A t addr data) (byteArgs t [(addr, data)]))
    (hbytes : ∀ addr₁ data₁ addr₂ data₂, P (targetWrite2Bytes A t addr₁ data₁ addr₂ data₂)
      (byteArgs t [(addr₁, data₁), (addr₂, data₂)])) :
    P (targetProgramBlock8 A t addr base nwords data) (byteArgs t (blockBytes t addr base nwords data)) := by
  have hwords : ∀ (words : List Word) (addr : Word), P (programBytes A t words addr)
      (byteArgs t ((consecutive addr words).flatMap (wordStores t))) := by
    intro words
    induction words with
    | nil => exact fun _ => hdone
    | cons word words ih =>
      intro addr
      rw [consecutive, List.flatMap_cons, byteArgs_append, byteArgs_wordStores]
      simp only [List.append_assoc]
      exact hseq (hbytes _ _ _ _) <| hseq (hbytes _ _ _ _) <| hseq (hbytes _ _ _ _) <|
        hseq (hbytes _ _ _ _) (ih (addr + 4))
  have hunlock : byteArgs t [(base + t.flashAddrOdd, t.flashCmdAA), (base + t.flashAddrEven, t.flashCmd55),
      (base + t.flashAddrOdd, t.flashCmd20)] =
      byteArgs t [(base + t.flashAddrOdd, t.flashCmdAA), (base + t.flashAddrEven, t.flashCmd55)] ++
        byteArgs t [(base + t.flashAddrOdd, t.flashCmd20)] := rfl
  rw [blockBytes, ← wordStores_blocks, byteArgs_append, byteArgs_append, hunlock, List.append_assoc,
    List.append_assoc]
  exact hseq (hbytes _ _ _ _) <| hseq (hbyte _ _) <| hseq (hwords _ addr) (hbytes _ _ _ _)

/-- Two bytes are stored with the lane of each before it. -/
theorem targetWrite2Bytes_stores (addr₁ data₁ addr₂ data₂ : Word) :
    Stores (targetWrite2Bytes A t addr₁ data₁ addr₂ data₂)
      (nwordsArgs A (byteArgs t [(addr₁, data₁), (addr₂, data₂)])) := by
  unfold targetWrite2Bytes
  cases hn : A.writeNwords with
  | some f => exact targetWriteNwords_stores _ _
  | none =>
    rw [nwordsArgs, hn]
    exact (targetWriteWord_stores _ _).seq <| (targetWriteNext_stores _ _).seq <|
      (targetWriteNext_stores _ _).seq (targetWriteNext_stores _ _)

/-- The stores of a block, by a method for lists of words or one by one. -/
theorem targetProgramBlock8_stores : Stores (targetProgramBlock8 A t addr base nwords data)
    (nwordsArgs A (byteArgs t (blockBytes t addr base nwords data))) := by
  apply targetProgramBlock8_rule (P := fun m args => Stores m (nwordsArgs A args))
  · rw [nwordsArgs_eq_map]
    exact stores_pure
  · intro m m' args args' h h'
    rw [nwordsArgs_append]
    exact h.seq h'
  · exact targetWriteByte_stores
  · exact targetWrite2Bytes_stores

/-- The words of the FT2232 adapter are in no log of methods. -/
theorem keepsLog_mpsseWriteNwords {D : Adapter σ} (args : List (Word × Word)) :
    KeepsLog (mpsseWriteNwords D.logged args) :=
  (keepsLog_allowMemory _).bind fun _ => keepsLog_mpsseWords _

/-- The stores of a block, through the debug registers of the FT2232 adapter. -/
theorem targetProgramBlock8_logStores (D : Adapter σ) :
    LogStores (targetProgramBlock8 (ft2232 D.logged) t addr base nwords data)
      (byteArgs t (blockBytes t addr base nwords data)) := by
  have hnwords : ∀ first rest, LogStores (targetWriteNwords (ft2232 D.logged) t first rest) (first :: rest) :=
    fun first rest => logStores_method (mpsseWriteNwords_stores _) (keepsLog_mpsseWriteNwords _)
  exact targetProgramBlock8_rule logStores_pure (fun h h' => h.seq h') (fun _ _ => hnwords _ _)
    (fun _ _ _ _ => hnwords _ _)

/-- The value that is kept selects no lane, or the block is empty and each of the three addresses of
the bypass has the bits that are kept. -/
def Target.KeepsLanes (t : Target) (base nwords : Word) : Prop :=
  laneOf t.cscon3 = 0 ∨
    nwords = 0 ∧ ∀ a ∈ [base + t.flashAddrOdd, base + t.flashAddrEven, base], t.LaneFits a

/-- No byte of the block goes to `CSCON3` itself. -/
def AvoidsCscon3 (fast : Bool) (t : Target) (addr base nwords : Word) (data : Nat → Word) : Prop :=
  ∀ a ∈ blockBytes t addr base nwords data, wordPlace fast a.1 ≠ mcCscon3

/-- Four bytes in a row are in all the lanes. -/
theorem exists_byteLane_zero (addr : Word) : ∃ k < 4, byteLane (addr + BitVec.ofNat 32 k) = 0 := by
  refine ⟨(-byteLane addr).toNat, (-byteLane addr).isLt, ?_⟩
  have hlane : byteLane (addr + BitVec.ofNat 32 (-byteLane addr).toNat) = byteLane addr + -byteLane addr := by
    rw [byteLane, BitVec.setWidth_add _ _ (by decide)]
    congr 1
    apply BitVec.eq_of_toNat_eq
    rw [BitVec.toNat_setWidth, BitVec.toNat_ofNat, Nat.mod_mod_of_dvd _ (by decide)]
    exact Nat.mod_eq_of_lt (-byteLane addr).isLt
  rw [hlane, BitVec.add_right_neg]
  rfl

/-- Every address fits where no lane is set. -/
theorem laneFits_of_zero (h : laneOf t.cscon3 = 0) (addr : Word) : t.LaneFits addr := by
  rw [Target.LaneFits, h]
  exact BitVec.zero_or

/-- No lane of a block is disturbed. -/
theorem keepsLanes_iff :
    (∀ a ∈ blockBytes t addr base nwords data, t.LaneFits a.1) ↔ t.KeepsLanes base nwords := by
  constructor
  · intro h
    have hbypass : ∀ a ∈ [base + t.flashAddrOdd, base + t.flashAddrEven, base], t.LaneFits a := by
      intro a ha
      rcases List.mem_cons.mp ha with rfl | ha
      · exact h (_, t.flashCmdAA) (by simp [blockBytes])
      · rcases List.mem_cons.mp ha with rfl | ha
        · exact h (_, t.flashCmd55) (by simp [blockBytes])
        · obtain rfl := List.mem_singleton.mp ha
          exact h (_, t.flashCmd90) (by simp [blockBytes])
    by_cases hwords : nwords = 0
    · exact Or.inr ⟨hwords, hbypass⟩
    · left
      obtain ⟨k, hk, hlane⟩ := exists_byteLane_zero addr
      have hpos : nwords.toNat ≠ 0 := fun hz => hwords (BitVec.eq_of_toNat_eq hz)
      have hmem : (addr + BitVec.ofNat 32 k, t.flashCmdA0) ∈ blockBytes t addr base nwords data := by
        refine List.mem_append_left _ (List.mem_append_right _ (List.mem_flatMap.mpr ⟨k, ?_, ?_⟩))
        · exact List.mem_range.mpr (by omega)
        · exact List.mem_cons_self
      have hfits := h _ hmem
      rw [Target.LaneFits, hlane] at hfits
      simpa using hfits
  · rintro (h | ⟨rfl, h⟩) a ha
    · exact laneFits_of_zero h a.1
    · have hempty : blockBytes t addr base 0 data =
          [(base + t.flashAddrOdd, t.flashCmdAA), (base + t.flashAddrEven, t.flashCmd55),
            (base + t.flashAddrOdd, t.flashCmd20), (base, t.flashCmd90), (base, 0)] := rfl
      rw [hempty] at ha
      apply h
      simp only [List.mem_cons, List.not_mem_nil, or_false] at ha ⊢
      rcases ha with rfl | rfl | rfl | rfl | rfl <;> simp

/-- The stores of a block deliver its bytes if and only if no lane is disturbed. -/
theorem deliversBytes_iff (fast : Bool) : DeliversBytes fast t addr base nwords data
      ((byteArgs t (blockBytes t addr base nwords data)).map fun a => (wordPlace fast a.1, a.2)) ↔
    t.KeepsLanes base nwords ∧ AvoidsCscon3 fast t addr base nwords data := by
  rw [DeliversBytes, ← @keepsLanes_iff t addr base nwords data]
  constructor
  · intro h
    have hbytes := (chipWrites_eq_iff fast _ 0).mp (h 0)
    exact ⟨fun a ha => (hbytes a ha).1, fun a ha => (hbytes a ha).2⟩
  · rintro ⟨hlanes, havoids⟩ lane
    exact (chipWrites_eq_iff fast _ lane).mpr fun a ha => ⟨hlanes a ha, havoids a ha⟩

/-- Stopping keeps a value that selects no lane. -/
theorem targetStop_lane {s s' : Session σ} {t' : Target} {tr : List ControlEvent} (hrun : t.isRunning = true)
    (h : (targetStop A t).Returns s t' tr s') : laneOf t'.cscon3 = 0 := by
  rw [targetStop, if_pos hrun] at h
  obtain ⟨_, _, _, _, -, h, -⟩ := returns_bind_iff.mp h
  obtain ⟨_, _, _, _, -, h, -⟩ := returns_bind_iff.mp h
  obtain ⟨cscon3, _, _, _, -, h, -⟩ := returns_bind_iff.mp h
  obtain ⟨rfl, -, -⟩ := returns_pure_iff.mp h
  have hmask : laneOf (~~~mcCscon3Addr 3) = 0 := by decide
  change laneOf (cscon3 &&& ~~~mcCscon3Addr 3) = 0
  rw [laneOf, BitVec.extractLsb'_and, ← laneOf, ← laneOf, hmask]
  exact BitVec.and_zero

/-- The chip is given the bytes of a block in order, each in the lane of its own address, if and
only if the value that is kept for `CSCON3` selects no lane, or disturbs none of an empty block, and
no byte goes to this register. A value that was read by stopping the processor selects no lane. -/
theorem targetProgramBlock8_delivers_iff (t : Target) (addr base nwords : Word) (data : Nat → Word) :
    (∀ {σ : Type} (A : Adapter σ) s tr s', (targetProgramBlock8 A t addr base nwords data).Returns s () tr s' →
      (DeliversBytes A.writeNwords.isSome t addr base nwords data (busWrites (busEvents tr)) ↔
        t.KeepsLanes base nwords ∧ AvoidsCscon3 A.writeNwords.isSome t addr base nwords data)) ∧
    (∀ {σ : Type} (D : Adapter σ) s tr s',
      (targetProgramBlock8 (ft2232 D.logged) t addr base nwords data).Returns s () tr s' →
        ∃ calls, s'.device.log = s.device.log ++ calls ∧
          (DeliversBytes true t addr base nwords data (busWrites (busEvents calls)) ↔
            t.KeepsLanes base nwords ∧ AvoidsCscon3 true t addr base nwords data)) ∧
    ∀ {σ : Type} (A : Adapter σ) (running : Target) s tr s', running.isRunning = true →
      (targetStop A running).Returns s t tr s' → t.KeepsLanes base nwords := by
  refine ⟨?_, ?_, ?_⟩
  · intro σ A s tr s' hr
    rw [busEvents_of_exhibits targetProgramBlock8_stores hr, busWrites_stores, nwordsArgs_eq_map]
    exact deliversBytes_iff _
  · intro σ D s tr s' hr
    obtain ⟨calls, hlog, hshows⟩ := targetProgramBlock8_logStores D s () tr s' hr
    refine ⟨calls, hlog, ?_⟩
    rw [busEvents, (hshows bus.start bus.start_idle).2, busWrites_stores, ← deliversBytes_iff]
    have hplain : (fun a : Word × Word => (wordPlace true a.1, a.2)) = id := rfl
    rw [hplain, List.map_id]
  · exact fun A running s tr s' hrun h => Or.inl (targetStop_lane hrun h)

/-- A board with a chip of one byte, and a value for `CSCON3` from its configuration file. -/
def laneBoard (value : Word) : Target :=
  { Target.allocated with toFlashVariant := flashVariant 5 }.targetSetCscon3 value

/-- Program a word of that board. -/
def programLaneBoard (A : Adapter σ) (value : Word) : Action σ Unit :=
  targetProgramBlock8 A (laneBoard value) 0x1FC00000 0x1FC00000 1 fun _ => 0x44332211

/-- A word on each of the paths. -/
theorem programLaneBoard_delivers :
    (∃ tr s, (programLaneBoard (scriptedUsb 0 0) 0x00800000).Returns ⟨0, []⟩ () tr s ∧
      (DeliversBytes true (laneBoard 0x00800000) 0x1FC00000 0x1FC00000 1 (fun _ => 0x44332211)
          (busWrites (busEvents tr)) ↔
        (laneBoard 0x00800000).KeepsLanes 0x1FC00000 1 ∧
          AvoidsCscon3 true (laneBoard 0x00800000) 0x1FC00000 0x1FC00000 1 fun _ => 0x44332211)) ∧
    (∃ tr s, (programLaneBoard (ft2232 (scripted 0 0).logged) 0x00800000).Returns ⟨0, ⟨[], []⟩⟩ () tr s ∧
      ∃ calls, s.device.log = [] ++ calls ∧
        (DeliversBytes true (laneBoard 0x00800000) 0x1FC00000 0x1FC00000 1 (fun _ => 0x44332211)
            (busWrites (busEvents calls)) ↔
          (laneBoard 0x00800000).KeepsLanes 0x1FC00000 1 ∧
            AvoidsCscon3 true (laneBoard 0x00800000) 0x1FC00000 0x1FC00000 1 fun _ => 0x44332211)) ∧
    ∃ t tr s, (targetStop (scripted 0 0) { laneBoard 0 with isRunning := true }).Returns ⟨0, []⟩ t tr s ∧
      t.KeepsLanes 0x1FC00000 1 := by
  have hpackets : (programLaneBoard (scriptedUsb 0 0) 0x00800000 ⟨0, []⟩).result.toOption.map id =
      some () := by decide
  have hregisters : (programLaneBoard (ft2232 (scripted 0 0).logged) 0x00800000
      ⟨0, ⟨[], []⟩⟩).result.toOption.map id = some () := by decide
  have hstops : (targetStop (scripted 0 0) { laneBoard 0 with isRunning := true } ⟨0, []⟩).result.toOption.map
      (fun _ => ()) = some () := by decide
  obtain ⟨_, trp, sp, hp, -⟩ := Program.exists_returns hpackets
  obtain ⟨_, trr, sr, hr, -⟩ := Program.exists_returns hregisters
  obtain ⟨t, trs, ss, hs, -⟩ := Program.exists_returns hstops
  obtain ⟨hdelivers, hlogged, -⟩ := targetProgramBlock8_delivers_iff (laneBoard 0x00800000) 0x1FC00000
    0x1FC00000 1 fun _ => 0x44332211
  obtain ⟨-, -, hstop⟩ := targetProgramBlock8_delivers_iff t 0x1FC00000 0x1FC00000 1 fun _ => 0
  exact ⟨⟨trp, sp, hp, hdelivers _ _ _ _ hp⟩, ⟨trr, sr, hr, hlogged _ _ _ _ hr⟩,
    ⟨t, trs, ss, hs, hstop _ _ _ _ _ rfl hs⟩⟩

/-- A value with a bit of the lane puts the first two bytes of a word in the lanes of the other two. -/
theorem programLaneBoard_wrong_lanes :
    (programLaneBoard (scriptedUsb 0 0) 0x00A00000 ⟨0, []⟩).result.toOption = some () ∧
      (chipWrites 0 (busWrites (busEvents
        (programLaneBoard (scriptedUsb 0 0) 0x00A00000 ⟨0, []⟩).trace)))[4]? = some ⟨0x1FC00000, 2, 0x11⟩ ∧
      ¬ DeliversBytes true (laneBoard 0x00A00000) 0x1FC00000 0x1FC00000 1 (fun _ => 0x44332211)
        (busWrites (busEvents (programLaneBoard (scriptedUsb 0 0) 0x00A00000 ⟨0, []⟩).trace)) := by
  have hbyte : (chipWrites 0 (busWrites (busEvents
      (programLaneBoard (scriptedUsb 0 0) 0x00A00000 ⟨0, []⟩).trace)))[4]? = some ⟨0x1FC00000, 2, 0x11⟩ := by
    decide
  refine ⟨by decide, hbyte, fun h => ?_⟩
  rw [h 0] at hbyte
  exact absurd hbyte (by decide)

end Mcprog
