import Mcprog.Target.Memory
import Mcprog.Adapter.Scripted

/-!
# Detection of the flash chips

`target_flash_detect` probes the six variants in turn, four times over, until the
device id is a known one. Each attempt leaves its marks in the target: what a later
success inherits from earlier attempts and from earlier detections is stated here.
-/

namespace Mcprog

open Interaction

/-- The command words for chips of 16 bits, with the unlock addresses of a bus. -/
def variant16 (flashWidth addrOdd addrEven devidOffset : Word) : FlashVariant where
  flashWidth := flashWidth
  chipWidth := 16
  flashAddrOdd := addrOdd
  flashAddrEven := addrEven
  flashCmdAA := 0x00AA00AA
  flashCmd55 := 0x00550055
  flashCmd10 := 0x00100010
  flashCmd20 := 0x00200020
  flashCmd30 := 0x00300030
  flashCmd80 := 0x00800080
  flashCmd90 := 0x00900090
  flashCmdA0 := 0x00A000A0
  flashCmdF0 := 0x00F000F0
  flashDevidOffset := devidOffset

/-- The command words for chips of 8 bits, with the unlock addresses of a bus. -/
def variant8 (flashWidth addrOdd addrEven devidOffset : Word) : FlashVariant where
  flashWidth := flashWidth
  chipWidth := 8
  flashAddrOdd := addrOdd
  flashAddrEven := addrEven
  flashCmdAA := 0xAAAAAAAA
  flashCmd55 := 0x55555555
  flashCmd10 := 0x10101010
  flashCmd20 := 0x20202020
  flashCmd30 := 0x30303030
  flashCmd80 := 0x80808080
  flashCmd90 := 0x90909090
  flashCmdA0 := 0xA0A0A0A0
  flashCmdF0 := 0xF0F0F0F0
  flashDevidOffset := devidOffset

/-- The parameters of the variant `count % 6`. -/
def flashVariant (count : Nat) : FlashVariant :=
  match count % 6 with
  | 0 => variant16 32 (0x5555 <<< 2) (0x2AAA <<< 2) 4
  | 1 => variant16 64 (0x5555 <<< 3) (0x2AAA <<< 3) 8
  | 2 => variant8 32 (0x555 <<< 2) (0x2AA <<< 2) 4
  | 3 => variant8 8 0x555 0x2AA 0
  | 4 => variant8 32 (0x5555 <<< 2) (0x2AAA <<< 2) 4
  | _ => variant8 8 0xAAA 0x555 0

/-- Set the parameters of a variant. The one for Atmel and Angstrem also sets the delay. -/
def selectVariant (t : Target) (count : Nat) : Target :=
  if count % 6 = 4 then { t with toFlashVariant := flashVariant count, flashDelay := 20 }
  else { t with toFlashVariant := flashVariant count }

/-- A known chip: its id and name, and its sizes on the bus of a variant. -/
structure FlashChip where
  id : Word
  name : String
  bytes : FlashVariant → Word
  sectorSize : FlashVariant → Word
  /-- The chip has the command set of Micron. -/
  micron : Bool
  /-- The id is accepted on a byte-wide bus only. -/
  byteWide : Bool

/-- A chip whose two sizes depend on the width of the bus. -/
def amdChip (id : Word) (name : String) (bytes sector : Word → Word) : FlashChip :=
  ⟨id, name, fun v => bytes v.flashWidth, fun v => sector v.flashWidth, false, false⟩

/-- A chip of Micron, whose size depends on the number of chips. -/
def micronChip (id : Word) (name : String) (bytes : Word) : FlashChip :=
  ⟨id, name, fun v => v.flashWidth / v.chipWidth * bytes, fun v => 64 * 1024 * v.flashWidth / 8,
    true, false⟩

/-- The chips in the order of the `switch`. -/
def flashChips : List FlashChip := [
  amdChip 0x225b225b "29LV800B" (2 * 1024 * 1024 * · / 32) (32 * 1024 * · / 8),
  amdChip 0x22da22da "29LV800T" (2 * 1024 * 1024 * · / 32) (32 * 1024 * · / 8),
  amdChip 0x27812781 "39VF800A" (2 * 1024 * 1024 * · / 32) (2 * 1024 * · / 8),
  amdChip 0x236d236d "39VF6401B" (16 * 1024 * 1024 * · / 32) (32 * 1024 * · / 8),
  amdChip 0x236c236c "39VF6402B" (16 * 1024 * 1024 * · / 32) (32 * 1024 * · / 8),
  amdChip 0x4f4f4f4f "1636PP1Y" (fun _ => 512 * 1024) (64 * 1024 * · / 8),
  amdChip 0xc8c8c8c8 "1636PP2Y" (fun _ => 4 * 2 * 1024 * 1024) (64 * 1024 * · / 8),
  amdChip 0x07070707 "1638PP1" (fun _ => 4 * 128 * 1024) (256 * · / 8),
  { amdChip 0xc8 "1636PP2Y" (fun _ => 2 * 1024 * 1024) (64 * 1024 * · / 8) with byteWide := true },
  amdChip 0x000000f9 "S29AL032D" (fun _ => 4 * 1024 * 1024) (32 * 1024 * · / 8),
  amdChip 0x227E227E "S29GL256P" (fun _ => 64 * 1024 * 1024) (64 * 1024 * · / 8),
  micronChip 0x00160016 "MT28F320" (8 * 1024 * 1024),
  micronChip 0x00170017 "MT28F640" (16 * 1024 * 1024),
  micronChip 0x00180018 "MT28F128" (32 * 1024 * 1024)]

/-- The chip with a device id on the bus of a variant. -/
def findChip (v : FlashVariant) (dev : Word) : Option FlashChip :=
  (flashChips.find? fun c => c.id = dev).filter fun c => !c.byteWide || v.flashWidth = 8

/-- Set the sizes of a chip. Its command set is added, never taken away. -/
def Target.setChip (t : Target) (c : FlashChip) : Target :=
  { t with
    flashBytes := c.bytes t.toFlashVariant
    sectorSize := c.sectorSize t.toFlashVariant
    micronComSet := c.micron || t.micronComSet }

variable {σ : Type}

/-- The codes of the manufacturer and the device. -/
structure FlashId where
  mf : Word
  dev : Word
  deriving DecidableEq, Repr

/-- A byte in all four lanes. -/
def fourfold (b : Word) : Word := b ||| (b <<< 8) ||| (b <<< 16) ||| (b <<< 24)

/-- The low byte of a word. -/
def lowByte (w : Word) : Word := w &&& 0xFF

/-- Read the manufacturer and device codes over a byte-wide bus. -/
def readIdByte (A : Adapter σ) (t : Target) (base : Word) (count : Nat) :
    Action σ FlashId := do
  targetWriteByte A t (base + t.flashAddrOdd) t.flashCmdAA
  targetWriteByte A t (base + t.flashAddrEven) t.flashCmd55
  targetWriteByte A t (base + t.flashAddrOdd) t.flashCmd90
  let mf ← targetReadWord A base
  targetWriteByte A t (base + t.flashAddrOdd) t.flashCmdAA
  targetWriteByte A t (base + t.flashAddrEven) t.flashCmd55
  targetWriteByte A t (base + t.flashAddrOdd) t.flashCmdF0
  return if count % 6 = 5 then ⟨lowByte mf, lowByte (mf >>> 16)⟩
    else ⟨fourfold (lowByte mf), fourfold (lowByte (mf >>> 8))⟩

/-- Read the codes over a word-wide bus with delays. -/
def readIdDelay (A : Adapter σ) (t : Target) (base : Word) : Action σ FlashId := do
  targetWriteNwords A t (base + t.flashAddrOdd, t.flashCmdAA)
    [(base + t.flashAddrEven, t.flashCmd55), (base + t.flashAddrOdd, t.flashCmd90)]
  let mf ← targetReadWord A base
  let dev ← targetReadWord A (base + t.flashDevidOffset)
  targetWriteNwords A t (base + t.flashAddrOdd, t.flashCmdAA)
    [(base + t.flashAddrEven, t.flashCmd55), (base + t.flashAddrOdd, t.flashCmdF0)]
  return ⟨mf, dev⟩

/-- Read the codes over a word-wide bus. -/
def readIdWord (A : Adapter σ) (t : Target) (base : Word) : Action σ FlashId := do
  targetWriteWord A t (base + t.flashAddrOdd) t.flashCmdAA
  targetWriteWord A t (base + t.flashAddrEven) t.flashCmd55
  targetWriteWord A t (base + t.flashAddrOdd) t.flashCmd90
  let dev ← targetReadWord A (base + t.flashDevidOffset)
  let mf ← targetReadWord A base
  targetWriteWord A t base t.flashCmdF0
  return ⟨mf, dev⟩

/-- Read the manufacturer and device codes of the selected variant. -/
def readId (A : Adapter σ) (t : Target) (base : Word) (count : Nat) : Action σ FlashId :=
  if t.flashWidth = 8 then readIdByte A t base count
  else if t.flashDelay ≠ 0 then readIdDelay A t base
  else readIdWord A t base

/-- What the attempts leave behind: the target and the last codes, and for a known chip
the number of the attempt that found it. -/
structure Detection where
  target : Target
  id : FlashId
  found : Option (Nat × FlashChip)

/-- Attempt the given counts in turn. -/
def detectAttempts (A : Adapter σ) (base : Word) :
    List Nat → Target → FlashId → Action σ Detection
  | [], t, id => pure ⟨t, id, none⟩
  | count :: counts, t, _ => do
    let t := selectVariant t count
    let id ← readId A t base count
    match findChip t.toFlashVariant id.dev with
    | some c => pure ⟨t.setChip c, id, some (count, c)⟩
    | none => detectAttempts A base counts t id

/-- Detect the flash chips at an address. Where nothing is found, the codes are those of
the last attempt. -/
def targetFlashDetect (A : Adapter σ) (t : Target) (addr : Word) (id : FlashId) :
    Action σ Detection := do
  let base ← t.computeBase addr
  let d ← detectAttempts A base (List.range' 0 (4 * 6)) t id
  if d.found.isSome ∧ d.target.micronComSet then do
    targetWriteWord A d.target base 0xFFFFFFFF
    return d
  else
    return d

/-- The delay when the variant of the attempt `count` is selected: the first Atmel
attempt sets it, and nothing clears it. -/
def inheritedDelay (t : Target) (count : Nat) : Word := if 4 ≤ count then 20 else t.flashDelay

/-- The parameters after a chip is found at an attempt. -/
def foundParams (t : Target) (count : Nat) (c : FlashChip) : FlashParams where
  toFlashVariant := flashVariant count
  flashBytes := c.bytes (flashVariant count)
  sectorSize := c.sectorSize (flashVariant count)
  flashDelay := inheritedDelay t count
  micronComSet := c.micron || t.micronComSet

theorem selectVariant_toFlashVariant (t : Target) (count : Nat) :
    (selectVariant t count).toFlashVariant = flashVariant count := by
  unfold selectVariant
  split <;> rfl

/-- An attempt keeps the kind of the commands. -/
theorem selectVariant_micronComSet (t : Target) (count : Nat) :
    (selectVariant t count).micronComSet = t.micronComSet := by
  unfold selectVariant
  split <;> rfl

/-- One attempt of six sets the delay, the others keep it. -/
theorem selectVariant_flashDelay (t : Target) (count : Nat) :
    (selectVariant t count).flashDelay = if count % 6 = 4 then 20 else t.flashDelay := by
  unfold selectVariant
  split <;> rfl

/-- Before the attempt `count` of a detection that started with `t₀`. -/
structure Attempting (t₀ : Target) (count : Nat) (t : Target) : Prop where
  micronComSet : t.micronComSet = t₀.micronComSet
  flashDelay : t.flashDelay = if 4 < count then 20 else t₀.flashDelay

/-- One more attempt inherits the delay and the command set. -/
theorem Attempting.selectVariant {t₀ t : Target} {count : Nat} (h : Attempting t₀ count t) :
    (selectVariant t count).flashDelay = inheritedDelay t₀ count ∧
      Attempting t₀ (count + 1) (selectVariant t count) := by
  have hdelay : (Mcprog.selectVariant t count).flashDelay = inheritedDelay t₀ count := by
    rw [selectVariant_flashDelay, h.flashDelay, inheritedDelay]
    by_cases h₄ : count = 4
    · subst h₄
      rfl
    · by_cases hlt : 4 < count
      · rw [if_pos hlt, if_pos (le_of_lt hlt), ite_self]
      · rw [if_neg hlt, if_neg (by omega), if_neg (by omega)]
  refine ⟨hdelay, ?_, ?_⟩
  · rw [selectVariant_micronComSet, h.micronComSet]
  · rw [hdelay, inheritedDelay]
    by_cases h₄ : 4 ≤ count
    · rw [if_pos h₄, if_pos (by omega)]
    · rw [if_neg h₄, if_neg (by omega)]

/-- Where a chip is found, its id is that of the variant and the parameters are the
inherited ones. -/
def FoundFrom (t₀ : Target) (d : Detection) : Prop :=
  ∀ k c, d.found = some (k, c) →
    findChip (flashVariant k) d.id.dev = some c ∧ d.target.toFlashParams = foundParams t₀ k c

/-- A chip that is found sets the parameters of its variant. -/
theorem Attempting.setChip {t₀ t : Target} {count : Nat} (h : Attempting t₀ count t)
    (c : FlashChip) :
    ((Mcprog.selectVariant t count).setChip c).toFlashParams = foundParams t₀ count c := by
  have hv := selectVariant_toFlashVariant t count
  obtain ⟨hdelay, hnext⟩ := h.selectVariant
  simp only [Target.setChip, foundParams, hv, hdelay, hnext.micronComSet]

/-- A chip is found with the parameters of its attempt. -/
theorem detectAttempts_ensures (A : Adapter σ) (base : Word) (t₀ : Target) (n count : Nat)
    (t : Target) (id : FlashId) (h : Attempting t₀ count t) :
    (detectAttempts A base (List.range' count n) t id).Ensures (FoundFrom t₀) := by
  induction n generalizing count t id with
  | zero =>
    apply Program.ensures_pure
    intro k c hk
    simp at hk
  | succ n ih =>
    rw [List.range'_succ, detectAttempts]
    apply Program.ensures_bind
    intro id'
    cases hc : findChip (Mcprog.selectVariant t count).toFlashVariant id'.dev with
    | none => exact ih (count + 1) _ id' h.selectVariant.2
    | some chip =>
      apply Program.ensures_pure
      rintro k c hk
      obtain ⟨rfl, rfl⟩ := Prod.mk.inj (Option.some.inj hk)
      rw [selectVariant_toFlashVariant] at hc
      exact ⟨hc, h.setChip chip⟩

/-- What is found is found by one of the attempts. -/
theorem targetFlashDetect_ensures (A : Adapter σ) (t : Target) (addr : Word) (id : FlashId) :
    (targetFlashDetect A t addr id).Ensures (FoundFrom t) := by
  apply Program.ensures_bind
  intro base
  refine Program.Ensures.bind (detectAttempts_ensures A base t _ 0 t id ⟨rfl, rfl⟩) ?_
  intro d hd
  split
  · exact Program.ensures_bind fun _ => Program.ensures_pure hd
  · exact Program.ensures_pure hd

/-- The variant of an attempt depends on its remainder only. -/
theorem flashVariant_congr {k₁ k₂ : Nat} (h : k₁ % 6 = k₂ % 6) :
    flashVariant k₁ = flashVariant k₂ := by
  rw [flashVariant, flashVariant, h]

/-- Two parameter sets for one chip on one variant differ in what they inherit. -/
theorem foundParams_eq_iff {t₁ t₂ : Target} {k₁ k₂ : Nat} {c : FlashChip}
    (h : k₁ % 6 = k₂ % 6) : foundParams t₁ k₁ c = foundParams t₂ k₂ c ↔
      inheritedDelay t₁ k₁ = inheritedDelay t₂ k₂ ∧
        (c.micron = true ∨ t₁.micronComSet = t₂.micronComSet) := by
  rw [foundParams, foundParams, flashVariant_congr h, FlashParams.mk.injEq]
  simp only [true_and]
  cases c.micron <;> simp

section Runs

variable {σ₁ σ₂ : Type} {A₁ : Adapter σ₁} {A₂ : Adapter σ₂} {t₁ t₂ : Target} {addr₁ addr₂ : Word}
  {id₁ id₂ : FlashId} {s₁ s₁' : Session σ₁} {s₂ s₂' : Session σ₂} {d₁ d₂ : Detection}
  {tr₁ tr₂ : List Call}

/-- Two detections that find the same id on the same variant leave the same parameters
exactly where they inherit the same delay and, for a chip that does not bring the command
set of Micron itself, the same command set. -/
theorem targetFlashDetect_params_eq_iff
    (h₁ : (targetFlashDetect A₁ t₁ addr₁ id₁).Returns s₁ d₁ tr₁ s₁')
    (h₂ : (targetFlashDetect A₂ t₂ addr₂ id₂).Returns s₂ d₂ tr₂ s₂')
    {k₁ k₂ : Nat} {c₁ c₂ : FlashChip} (hf₁ : d₁.found = some (k₁, c₁))
    (hf₂ : d₂.found = some (k₂, c₂)) (hk : k₁ % 6 = k₂ % 6) (hdev : d₁.id.dev = d₂.id.dev) :
    d₁.target.toFlashParams = d₂.target.toFlashParams ↔
      inheritedDelay t₁ k₁ = inheritedDelay t₂ k₂ ∧
        (c₁.micron = true ∨ t₁.micronComSet = t₂.micronComSet) := by
  obtain ⟨hc₁, hp₁⟩ := targetFlashDetect_ensures A₁ t₁ addr₁ id₁ _ _ _ _ h₁ k₁ c₁ hf₁
  obtain ⟨hc₂, hp₂⟩ := targetFlashDetect_ensures A₂ t₂ addr₂ id₂ _ _ _ _ h₂ k₂ c₂ hf₂
  have hc : c₁ = c₂ := by
    rw [flashVariant_congr hk, hdev, hc₂] at hc₁
    exact (Option.some.inj hc₁).symm
  subst hc
  rw [hp₁, hp₂]
  exact foundParams_eq_iff hk

end Runs

/-- A board with flash memory at the boot address. -/
def bootBoard : Target :=
  { Target.allocated with flash := Target.allocated.setRegion ⟨0, nflash_pos⟩ ⟨0x1FC00000, 0x203FFFFF⟩ }

/-- The attempt that succeeds, the id it reads and the delay it leaves, when the memory
answers from a script. -/
def detected (script : List Word) : Option (Option Nat × Word × Word) :=
  (targetFlashDetect (scripted 0 0) bootBoard 0xBFC00000 ⟨0, 0⟩ ⟨0, script⟩).result.toOption.map
    fun d => (d.found.map Prod.fst, d.id.dev, d.target.flashDelay)

/-- A chip that answers at the first attempt. -/
def promptScript : List Word := [0x27812781, 0x00BF00BF]

/-- The same chip, silent for the first round of attempts. -/
def lateScript : List Word := List.replicate 10 0 ++ [0x00BF00BF, 0x27812781]

/-- The same chip on the same variant is left with two delays. -/
theorem detected_delay_differs :
    detected promptScript = some (some 0, 0x27812781, 0) ∧
      detected lateScript = some (some 6, 0x27812781, 20) := by
  decide

/-- The prompt and the late chip, compared by what their detections inherit. -/
theorem detected_params_eq_iff : ∃ d₁ d₂ : Detection, ∃ c₁ c₂,
    d₁.found = some (0, c₁) ∧ d₂.found = some (6, c₂) ∧ d₁.id.dev = d₂.id.dev ∧
      (d₁.target.toFlashParams = d₂.target.toFlashParams ↔
        inheritedDelay bootBoard 0 = inheritedDelay bootBoard 6 ∧
          (c₁.micron = true ∨ bootBoard.micronComSet = bootBoard.micronComSet)) := by
  have h₁ : detected promptScript = some (some 0, 0x27812781, 0) := by decide
  have h₂ : detected lateScript = some (some 6, 0x27812781, 20) := by decide
  obtain ⟨d₁, _, _, hr₁, he₁⟩ := Program.exists_returns h₁
  obtain ⟨d₂, _, _, hr₂, he₂⟩ := Program.exists_returns h₂
  obtain ⟨hf₁, hd₁⟩ := Prod.mk.inj he₁
  obtain ⟨hf₂, hd₂⟩ := Prod.mk.inj he₂
  obtain ⟨⟨k₁, c₁⟩, hk₁, rfl⟩ := Option.map_eq_some_iff.mp hf₁
  obtain ⟨⟨k₂, c₂⟩, hk₂, rfl⟩ := Option.map_eq_some_iff.mp hf₂
  have hdev : d₁.id.dev = d₂.id.dev := (Prod.mk.inj hd₁).1.trans (Prod.mk.inj hd₂).1.symm
  exact ⟨d₁, d₂, c₁, c₂, hk₁, hk₂, hdev,
    targetFlashDetect_params_eq_iff hr₁ hr₂ hk₁ hk₂ rfl hdev⟩

end Mcprog
