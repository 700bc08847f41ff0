import Mcprog.Target.FlashDetect
import Mcprog.Target.FlashErase

/-!
# The address of a sector erase

What a sector erase puts on the bus, with the address of the command as a parameter.
The address is the physical one exactly where the region that holds it starts in the
same block of 256 MiB.
-/

namespace Mcprog

open Interaction

private theorem and_low (x : Word) : (x &&& 0x0FFFFFFF).toNat = x.toNat % 2 ^ 28 := by
  rw [BitVec.toNat_and]
  exact Nat.and_two_pow_sub_one_eq_mod x.toNat 28

private theorem and_high (x : Word) : x &&& (0xF0000000 : Word) = (x >>> 28) <<< 28 := by
  ext i hi
  simp
  interval_cases i <;> simp

/-- The block of 256 MiB is that of the base, the rest is that of the address. -/
theorem sectorAddress_toNat (base addr : Word) :
    (sectorAddress base addr).toNat = base.toNat / 2 ^ 28 * 2 ^ 28 + addr.toNat % 2 ^ 28 := by
  have hb := base.isLt
  have hhigh : base.toNat / 2 ^ 28 * 2 ^ 28 % 2 ^ 32 = 2 ^ 28 * (base.toNat / 2 ^ 28) := by omega
  rw [sectorAddress, and_high, BitVec.toNat_or, and_low, BitVec.toNat_shiftLeft,
    BitVec.toNat_ushiftRight, Nat.shiftRight_eq_div_pow, Nat.shiftLeft_eq, hhigh, Nat.or_comm,
    ← Nat.two_pow_add_eq_or_of_lt (Nat.mod_lt _ (by norm_num)), Nat.mul_comm]

variable {t : Target} {r : FlashRegion} {base addr : Word}

/-- The address of an erase is not above the physical address. -/
theorem sectorAddress_le (h : base ≤ physical addr) :
    (sectorAddress base addr).toNat ≤ (physical addr).toNat := by
  have hmod := physical_mod addr
  rw [sectorAddress_toNat]
  rw [BitVec.le_def] at h
  omega

/-- The address of an erase is physical itself. -/
theorem physical_sectorAddress (h : base ≤ physical addr) :
    physical (sectorAddress base addr) = sectorAddress base addr := by
  apply physical_of_lt
  have hle := sectorAddress_le h
  have hlt := physical_lt addr
  rw [BitVec.lt_def] at *
  omega

/-- The address of an erase is the physical address exactly where the base of the region
is in the same block of 256 MiB. -/
theorem sectorAddress_eq_physical_iff : sectorAddress base addr = physical addr ↔
    base.toNat / 2 ^ 28 = (physical addr).toNat / 2 ^ 28 := by
  have hmod := physical_mod addr
  rw [← BitVec.toNat_inj, sectorAddress_toNat]
  omega

/-- Each store of a byte-wide bus follows the selection of its lane. -/
def byteArgs (t : Target) (args : List (Word × Word)) : List (Word × Word) :=
  args.flatMap fun a => [(mcCscon3, t.cscon3 ||| mcCscon3Addr a.1), a]

/-- The stores as the register accesses send them. -/
def plainArgs (args : List (Word × Word)) : List (Word × Word) :=
  args.map fun a => (physical a.1, a.2)

/-- The unlock stores of an erase, and the command at its address. -/
def eraseArgs (t : Target) (base addr cmd : Word) : List (Word × Word) :=
  [(base + t.flashAddrOdd, t.flashCmdAA), (base + t.flashAddrEven, t.flashCmd55),
    (base + t.flashAddrOdd, t.flashCmd80), (base + t.flashAddrOdd, t.flashCmdAA),
    (base + t.flashAddrEven, t.flashCmd55), (addr, cmd)]

variable {σ : Type} {A : Adapter σ}

/-- The stores of an erase sequence. -/
def sequenceArgs (A : Adapter σ) (t : Target) (base addr cmd : Word) : List (Word × Word) :=
  if t.flashWidth = 8 then nwordsArgs A (byteArgs t (eraseArgs t base addr cmd))
  else if t.flashDelay ≠ 0 then nwordsArgs A (eraseArgs t base addr cmd)
  else plainArgs (eraseArgs t base addr cmd) ++
    if t.flashWidth = 64 then plainArgs (eraseArgs t (base + 4) (addr + 4) cmd) else []

/-- The words of the command are stored in their order. -/
theorem eraseWords_stores (base addr cmd : Word) :
    Stores (eraseWords A t base addr cmd) (plainArgs (eraseArgs t base addr cmd)) :=
  (targetWriteWord_stores _ _).seq <| (targetWriteWord_stores _ _).seq <|
    (targetWriteWord_stores _ _).seq <| (targetWriteWord_stores _ _).seq <|
      (targetWriteWord_stores _ _).seq (targetWriteWord_stores _ _)

/-- So are those for either kind of chip. -/
theorem eraseSequence_stores (base addr cmd : Word) :
    Stores (eraseSequence A t base addr cmd) (sequenceArgs A t base addr cmd) := by
  unfold eraseSequence sequenceArgs
  split
  · apply Stores.of_eq <| (targetWriteByte_stores _ _).seq <|
      (targetWriteByte_stores _ _).seq <| (targetWriteByte_stores _ _).seq <|
        (targetWriteByte_stores _ _).seq <| (targetWriteByte_stores _ _).seq
          (targetWriteByte_stores _ _)
    simp only [← nwordsArgs_append]
    rfl
  · split
    · exact targetWriteNwords_stores _ _
    · apply (eraseWords_stores _ _ _).seq
      split
      · exact eraseWords_stores _ _ _
      · exact stores_pure

/-- The stores of a sector erase. The last one of Micron leaves the status mode. -/
def sectorArgs (A : Adapter σ) (t : Target) (base addr : Word) (ok : Bool) : List (Word × Word) :=
  if t.micronComSet then
    plainArgs [(addr, 0x20202020), (addr, 0xd0d0d0d0)] ++
      if ok then plainArgs [(addr, 0xffffffff)] else []
  else sequenceArgs A t base addr t.flashCmd30

/-- The cycles of a sector erase: its stores, polls of one address, and after a success a
load from elsewhere. -/
structure SectorCycles (A : Adapter σ) (t : Target) (base addr : Word) (ok : Bool)
    (obs : List BusEvent) : Prop where
  writes : busWrites obs = sectorArgs A t base addr ok
  reads : ∃ polls, (∀ a ∈ polls, a.1 = physical addr) ∧
    ∃ last, busReads obs = polls ++ if ok then [(mcCscon3, last)] else []

/-- Only the status is looked at, by induction on the polls that are left. -/
theorem pollStatus_exhibits (addr mask : Word) (timeout : Nat) :
    (pollStatus A addr mask timeout).Exhibits bus fun _ obs => Polls (physical addr) obs := by
  induction timeout with
  | zero =>
    apply (targetReadWord_loads addr).bind
    rintro val o₁ rfl
    exact Program.exhibits_pure polls_singleton
  | succ timeout ih =>
    apply (targetReadWord_loads addr).bind
    rintro val o₁ rfl
    split
    · exact Program.exhibits_pure polls_singleton
    · exact ih.mono fun _ _ h => polls_singleton.append h

/-- Only the address is looked at, by induction on the fuel. -/
theorem waitErased_exhibits (addr : Word) (fuel : Nat) :
    (waitErased A addr fuel).Exhibits bus fun _ obs => Polls (physical addr) obs := by
  induction fuel with
  | zero => exact Program.exhibits_stop
  | succ fuel ih =>
    apply (targetReadWord_loads addr).bind
    rintro val o₁ rfl
    split
    · exact Program.exhibits_pure polls_singleton
    · exact ih.mono fun _ _ h => polls_singleton.append h

/-- The tail of a sector erase polls its address and loads from elsewhere. -/
theorem finishSector_exhibits (addr : Word) (fuel : Nat) :
    (finishSector A addr fuel).Exhibits bus fun ok obs => ok = true ∧
      ∃ polls last, Polls (physical addr) polls ∧ obs = polls ++ [.read mcCscon3 last] := by
  apply (waitErased_exhibits addr fuel).bind
  intro _ polls hpolls
  apply (targetReadWord_loads mcCscon3).bind
  rintro last _ rfl
  apply Program.exhibits_pure
  exact ⟨rfl, polls, last, hpolls, by rw [List.append_nil]; rfl⟩

/-- A sector of a Micron chip: the stores of the command, and then the polls. -/
theorem eraseSectorMicron_exhibits (addr : Word) :
    (eraseSectorMicron A t addr).Exhibits bus fun ok obs =>
      ∃ polls, Polls (physical addr) polls ∧
        obs = stores (plainArgs [(addr, 0x20202020), (addr, 0xd0d0d0d0)]) ++ polls ++
          stores (if ok then plainArgs [(addr, 0xffffffff)] else []) := by
  apply (targetWriteWord_stores addr 0x20202020).bind
  rintro _ _ rfl
  apply (targetWriteWord_stores addr 0xd0d0d0d0).bind
  rintro _ _ rfl
  apply (pollStatus_exhibits addr (statusMask t) 10000).bind
  rintro ok polls hpolls
  cases ok with
  | false =>
    apply Program.exhibits_pure
    exact ⟨polls, hpolls, by simp [plainArgs]⟩
  | true =>
    apply (targetWriteWord_stores addr 0xffffffff).bind
    rintro _ _ rfl
    apply Program.exhibits_pure
    exact ⟨polls, hpolls, by simp [plainArgs]⟩

/-- The polls after the stores of a sector erase, and the load from elsewhere. -/
theorem SectorCycles.of_finish {ok : Bool} {polls polls' obs : List BusEvent}
    {args args' : List (Word × Word)} (last : Word) (hargs : args ++ args' = sectorArgs A t base addr ok)
    (hp : Polls (physical addr) polls) (hp' : Polls (physical addr) polls')
    (hobs : obs = stores args ++ polls ++ stores args' ++
      if ok then polls' ++ [.read mcCscon3 last] else []) :
    SectorCycles A t base addr ok obs where
  writes := by
    rw [hobs, busWrites_append, busWrites_append, busWrites_append, busWrites_stores,
      busWrites_stores, hp.busWrites, List.append_nil, ← hargs]
    cases ok with
    | false => exact List.append_nil _
    | true =>
      rw [if_pos rfl, busWrites_append, hp'.busWrites]
      exact List.append_nil _
  reads := by
    cases ok with
    | false =>
      refine ⟨busReads polls, hp.busReads, last, ?_⟩
      simp [hobs, busReads_append]
    | true =>
      refine ⟨busReads polls ++ busReads polls', ?_, last, ?_⟩
      · intro a ha
        rcases List.mem_append.mp ha with ha | ha
        · exact hp.busReads a ha
        · exact hp'.busReads a ha
      · simp [hobs, busReads_append]

/-- A sector erase makes the cycles of its own address under the base of the region. -/
theorem targetEraseSector_exhibits (addr : Word) (fuel : Nat) :
    (targetEraseSector A t addr fuel).Exhibits bus fun ok obs =>
      ∃ r, t.findRegion (physical addr) = some r ∧
        SectorCycles A t r.base (sectorAddress r.base addr) ok obs := by
  apply (computeBase_exhibits t addr).bind
  rintro _ _ ⟨r, hr, rfl, rfl⟩
  by_cases hm : t.micronComSet = true
  · rw [if_pos hm]
    apply (eraseSectorMicron_exhibits _).bind
    rintro ok o₁ ⟨polls, hp, rfl⟩
    cases ok with
    | false =>
      apply Program.exhibits_pure
      refine ⟨r, hr, SectorCycles.of_finish 0 ?_ hp polls_nil rfl⟩
      rw [sectorArgs, if_pos hm]
    | true =>
      apply (finishSector_exhibits _ fuel).mono
      rintro ok o₂ ⟨rfl, polls', last, hp', rfl⟩
      refine ⟨r, hr, SectorCycles.of_finish last ?_ hp hp' rfl⟩
      rw [sectorArgs, if_pos hm]
  · rw [if_neg hm]
    apply Program.Exhibits.bind (eraseSequence_stores _ _ _)
    rintro _ o₁ rfl
    apply (finishSector_exhibits _ fuel).mono
    rintro ok o₂ ⟨rfl, polls', last, hp', rfl⟩
    have hargs : sequenceArgs A t r.base (sectorAddress r.base addr) t.flashCmd30 ++ [] =
        sectorArgs A t r.base (sectorAddress r.base addr) true := by
      rw [sectorArgs, if_neg hm, List.append_nil]
    refine ⟨r, hr, SectorCycles.of_finish last hargs polls_nil hp' ?_⟩
    simp

/-- The stores of a sector erase that carry its command: their places among the stores,
and the distance of the half of the bus that they are for. -/
def commandSlots (t : Target) : List (Nat × Word) :=
  if t.micronComSet then [(0, 0), (1, 0)]
  else if t.flashWidth = 8 then [(11, 0)]
  else if t.flashDelay = 0 ∧ t.flashWidth = 64 then [(5, 0), (11, 4)]
  else [(5, 0)]

/-- The command goes to an address and the completion is polled there. After a success
there is one more load, from elsewhere. -/
structure ErasesAt (t : Target) (phys : Word) (ok : Bool) (obs : List BusEvent) : Prop where
  commands : ∀ c ∈ commandSlots t,
    ((busWrites obs)[c.1]?).map Prod.fst = some (physical (phys + c.2))
  polls : ∀ a ∈ if ok then (busReads obs).dropLast else busReads obs, a.1 = phys

/-- The stores that carry the command carry its address. -/
theorem sectorArgs_commandSlots (A : Adapter σ) (base : Word) (ok : Bool) (h : physical addr = addr) :
    ∀ c ∈ commandSlots t,
      ((sectorArgs A t base addr ok)[c.1]?).map Prod.fst = some (physical (addr + c.2)) := by
  unfold commandSlots sectorArgs
  by_cases hm : t.micronComSet = true
  · simp [hm, plainArgs, h]
  · rw [if_neg hm, if_neg hm]
    unfold sequenceArgs nwordsArgs
    by_cases h8 : t.flashWidth = 8
    · rw [if_pos h8, if_pos h8]
      cases A.writeNwords <;> simp [byteArgs, eraseArgs, h]
    · rw [if_neg h8, if_neg h8]
      by_cases hd : t.flashDelay = 0
      · rw [if_neg (not_not.mpr hd)]
        by_cases h64 : t.flashWidth = 64
        · rw [if_pos ⟨hd, h64⟩, if_pos h64]
          simp [plainArgs, eraseArgs, h]
        · rw [if_neg (fun hc => h64 hc.2), if_neg h64]
          simp [plainArgs, eraseArgs, h]
      · rw [if_pos hd, if_neg (fun hc => hd hc.1)]
        cases A.writeNwords <;> simp [eraseArgs, h]

/-- There is a store that carries the command for the low half. -/
theorem exists_commandSlot (t : Target) : ∃ n, (n, 0) ∈ commandSlots t := by
  unfold commandSlots
  split
  · exact ⟨0, by simp⟩
  · split
    · exact ⟨11, by simp⟩
    · split
      · exact ⟨5, by simp⟩
      · exact ⟨5, by simp⟩

/-- The cycles of a sector erase show its address, and no other. -/
theorem SectorCycles.erasesAt_iff {ok : Bool} {obs : List BusEvent} {phys : Word}
    (h : SectorCycles A t base addr ok obs) (haddr : physical addr = addr)
    (hphys : physical phys = phys) : ErasesAt t phys ok obs ↔ addr = phys := by
  have hslots := sectorArgs_commandSlots (t := t) A base ok haddr
  constructor
  · intro he
    obtain ⟨n, hn⟩ := exists_commandSlot t
    have h₁ := hslots _ hn
    have h₂ := he.commands _ hn
    have hzero : ∀ w : Word, w + 0 = w := BitVec.add_zero
    rw [h.writes, h₁, hzero, hzero, haddr, hphys] at h₂
    exact Option.some.inj h₂
  · rintro rfl
    obtain ⟨polls, hpolls, last, hreads⟩ := h.reads
    refine ⟨by rwa [h.writes], ?_⟩
    rw [haddr] at hpolls
    rw [hreads]
    cases ok with
    | false => simpa using hpolls
    | true => simpa using hpolls

/-- A sector erase sends its command to the physical address and polls there exactly
where the region of the address starts in the same block of 256 MiB. -/
theorem targetEraseSector_erasesAt_iff {s s' : Session σ} {fuel : Nat} {ok : Bool}
    {tr : List Call} (h : (targetEraseSector A t addr fuel).Returns s ok tr s') :
    ErasesAt t (physical addr) ok (busEvents tr) ↔
      ∃ r, t.findRegion (physical addr) = some r ∧
        r.base.toNat / 2 ^ 28 = (physical addr).toNat / 2 ^ 28 := by
  obtain ⟨r, hr, hcycles⟩ := busEvents_of_exhibits (targetEraseSector_exhibits addr fuel) h
  have hbase := (t.base_le_of_findRegion hr).1
  rw [hcycles.erasesAt_iff (physical_sectorAddress hbase) (physical_physical addr),
    sectorAddress_eq_physical_iff]
  simp [hr]

/-- A shipped board whose region goes across a block of 256 MiB, with two 16-bit chips. -/
def mck02 : Target :=
  { Target.allocated with
    toFlashVariant := flashVariant 0
    sectorSize := 0x20000
    flash := Target.allocated.setRegion ⟨0, nflash_pos⟩ ⟨0x1FC00000, 0x20BFFFFF⟩ }

/-- A sector erase on that board, in front of memory that is erased at once. -/
def eraseOnMck02 (addr : Word) : Outcome Call (Session (List Word)) Fatal Bool :=
  targetEraseSector (scripted 0 0xFFFFFFFF) mck02 addr 1 ⟨0, []⟩

/-- An erase in the first block of the region. -/
theorem erasesAt_boot_iff : ∃ tr s',
    (targetEraseSector (scripted 0 0xFFFFFFFF) mck02 0xBFC00000 1).Returns ⟨0, []⟩ true tr s' ∧
      (ErasesAt mck02 (physical 0xBFC00000) true (busEvents tr) ↔
        ∃ r, mck02.findRegion (physical 0xBFC00000) = some r ∧
          r.base.toNat / 2 ^ 28 = (physical 0xBFC00000).toNat / 2 ^ 28) := by
  have h : (eraseOnMck02 0xBFC00000).result.toOption.map id = some true := by decide
  obtain ⟨ok, tr, s', hr, hok⟩ := Program.exists_returns h
  obtain rfl : ok = true := hok
  exact ⟨tr, s', hr, targetEraseSector_erasesAt_iff hr⟩

/-- In the second block of the region the command goes 256 MiB below. -/
theorem eraseOnMck02_wrong_address :
    (eraseOnMck02 0xC0000000).result.toOption = some true ∧ physical 0xC0000000 = 0x20000000 ∧
      (busWrites (busEvents (eraseOnMck02 0xC0000000).trace))[5]? =
        some (0x10000000, mck02.flashCmd30) ∧
      ¬ ErasesAt mck02 (physical 0xC0000000) true
        (busEvents (eraseOnMck02 0xC0000000).trace) := by
  have hcmd : (busWrites (busEvents (eraseOnMck02 0xC0000000).trace))[5]? =
      some (0x10000000, mck02.flashCmd30) := by decide
  refine ⟨by decide, by decide, hcmd, ?_⟩
  intro he
  have hslot := he.commands (5, 0) (by decide)
  rw [hcmd] at hslot
  exact absurd hslot (by decide)

end Mcprog
