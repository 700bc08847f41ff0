import Mcprog.Target.EraseAddress

/-!
# The sectors that an area erase reaches

An area erase takes one step for each sector length that the area begins. The command
addresses are read off the stores by their places, and compared with the sectors that
overlap the area.
-/

namespace Mcprog

open Interaction

section Groups

variable {α : Type} {g n : Nat}

/-- Places in a list of groups of one length. -/
theorem getElem?_flatten_group {gs : List (List α)} (h : ∀ l ∈ gs, l.length = g) (hn : n < g)
    (j : Nat) : gs.flatten[j * g + n]? = gs[j]?.bind fun l => l[n]? := by
  induction gs generalizing j with
  | nil => rfl
  | cons l gs ih =>
    have hl : l.length = g := h l List.mem_cons_self
    have ih := ih fun l' hl' => h l' (List.mem_cons_of_mem _ hl')
    rw [List.flatten_cons]
    cases j with
    | zero =>
      rw [List.getElem?_append_left (by omega), Nat.zero_mul, Nat.zero_add]
      rfl
    | succ j =>
      have hj : (j + 1) * g + n = l.length + (j * g + n) := by rw [hl]; ring
      rw [hj, List.getElem?_append_right (by omega), Nat.add_sub_cancel_left, ih]
      rfl

/-- A map of the first `n` numbers onto themselves that never goes up is the identity. -/
theorem eq_of_le_of_surjective {f : Nat → Nat} (hle : ∀ k < n, f k ≤ k)
    (hsurj : ∀ j < n, ∃ k < n, f k = j) : ∀ k < n, f k = k := by
  have hdown : ∀ d, ∀ k < n, n - k ≤ d → f k = k := by
    intro d
    induction d with
    | zero => intro k hk hd; omega
    | succ d ih =>
      intro k hk hd
      obtain ⟨k', hk', hf⟩ := hsurj k hk
      have hkk' : k ≤ k' := hf ▸ hle k' hk'
      by_cases heq : k' = k
      · rw [heq] at hf
        exact hf
      · have hf' := ih k' hk' (by omega)
        omega
  intro k hk
  exact hdown n k hk (Nat.sub_le n k)

end Groups

/-- The address of the erase of one step, where the region is found. -/
def eraseAddress (t : Target) (addr : Word) : Option Word :=
  (t.findRegion (physical addr)).map fun r => sectorAddress r.base addr

/-- The number of stores of a sector erase that succeeds. -/
def eraseGroup (t : Target) : Nat :=
  if t.micronComSet then 3
  else if t.flashWidth = 8 then 12
  else if t.flashDelay = 0 ∧ t.flashWidth = 64 then 12
  else 6

variable {σ : Type} {A : Adapter σ} {t : Target} {base addr len : Word}

/-- A sector is erased by as many stores as the chip asks for. -/
theorem length_sectorArgs (A : Adapter σ) (t : Target) (base addr : Word) :
    (sectorArgs A t base addr true).length = eraseGroup t := by
  unfold sectorArgs eraseGroup
  by_cases hm : t.micronComSet = true
  · simp [hm, plainArgs]
  · rw [if_neg hm, if_neg hm]
    unfold sequenceArgs nwordsArgs
    by_cases h8 : t.flashWidth = 8
    · rw [if_pos h8, if_pos h8]
      cases A.writeNwords <;> simp [byteArgs, eraseArgs]
    · rw [if_neg h8, if_neg h8]
      by_cases hd : t.flashDelay = 0
      · rw [if_neg (not_not.mpr hd)]
        by_cases h64 : t.flashWidth = 64
        · rw [if_pos h64, if_pos ⟨hd, h64⟩]
          simp [plainArgs, eraseArgs]
        · rw [if_neg h64, if_neg (fun hc => h64 hc.2)]
          simp [plainArgs, eraseArgs]
      · rw [if_pos hd, if_neg (fun hc => hd hc.1)]
        cases A.writeNwords <;> simp [eraseArgs]

/-- The place of a command is among them. -/
theorem commandSlots_lt {c : Nat × Word} (hc : c ∈ commandSlots t) : c.1 < eraseGroup t := by
  unfold commandSlots at hc
  unfold eraseGroup
  split at hc
  · rename_i hm
    rw [if_pos hm]
    rcases List.mem_cons.mp hc with rfl | hc
    · decide
    · rw [List.mem_singleton.mp hc]
      decide
  · rename_i hm
    rw [if_neg hm]
    split at hc
    · rename_i h8
      rw [if_pos h8, List.mem_singleton.mp hc]
      decide
    · rename_i h8
      rw [if_neg h8]
      split at hc
      · rename_i h64
        rw [if_pos h64]
        rcases List.mem_cons.mp hc with rfl | hc
        · decide
        · rw [List.mem_singleton.mp hc]
          decide
      · rename_i h64
        rw [if_neg h64, List.mem_singleton.mp hc]
        decide

/-- The stores of one step of an area erase, with the address of its command. -/
def StepArgs (A : Adapter σ) (t : Target) (g : List (Word × Word)) (a : Word) : Prop :=
  physical a = a ∧ ∃ base, g = sectorArgs A t base a true

/-- The cycles of an area erase: `n` steps from the length `curLen` on, up to `len`. -/
structure AreaCycles (A : Adapter σ) (t : Target) (addr len curLen : Word) (n : Nat)
    (obs : List BusEvent) : Prop where
  below : ∀ k < n, curLen + BitVec.ofNat 32 k * t.sectorSize < len
  stop : ¬ curLen + BitVec.ofNat 32 n * t.sectorSize < len
  steps : ∃ groups addrs, busWrites obs = groups.flatten ∧
    List.Forall₂ (StepArgs A t) groups addrs ∧ addrs.length = n ∧
    ∀ k < n, eraseAddress t (addr + (curLen + BitVec.ofNat 32 k * t.sectorSize)) = addrs[k]?

theorem AreaCycles.nil {curLen : Word} (h : ¬ curLen < len) :
    AreaCycles A t addr len curLen 0 [] where
  below k hk := absurd hk (Nat.not_lt_zero k)
  stop := by simpa using h
  steps := ⟨[], [], rfl, List.Forall₂.nil, rfl, fun k hk => absurd hk (Nat.not_lt_zero k)⟩

/-- The length at a later step, counted from the next one. -/
theorem curLen_succ (curLen ss : Word) (k : Nat) :
    curLen + ss + BitVec.ofNat 32 k * ss = curLen + BitVec.ofNat 32 (k + 1) * ss := by
  have hk : BitVec.ofNat 32 (k + 1) = 1 + BitVec.ofNat 32 k := by
    rw [Nat.add_comm, BitVec.ofNat_add]
    rfl
  have hone : (1 : Word) * ss = ss := BitVec.one_mul ss
  rw [hk, BitVec.add_mul, hone, BitVec.add_assoc]

/-- One more step in front. -/
theorem AreaCycles.cons {curLen : Word} {n : Nat} {r : FlashRegion} {o₁ o₂ : List BusEvent}
    (hlt : curLen < len) (hr : t.findRegion (physical (addr + curLen)) = some r)
    (h₁ : SectorCycles A t r.base (sectorAddress r.base (addr + curLen)) true o₁)
    (h₂ : AreaCycles A t addr len (curLen + t.sectorSize) n o₂) :
    AreaCycles A t addr len curLen (n + 1) (o₁ ++ o₂) where
  below k hk := by
    cases k with
    | zero => simpa using hlt
    | succ k =>
      rw [← curLen_succ]
      exact h₂.below k (by omega)
  stop := by
    rw [← curLen_succ]
    exact h₂.stop
  steps := by
    obtain ⟨groups, addrs, hw, hsteps, hlen, haddrs⟩ := h₂.steps
    refine ⟨sectorArgs A t r.base (sectorAddress r.base (addr + curLen)) true :: groups,
      sectorAddress r.base (addr + curLen) :: addrs, ?_, ?_, by rw [List.length_cons, hlen], ?_⟩
    · rw [busWrites_append, h₁.writes, hw]
      rfl
    · exact List.Forall₂.cons ⟨physical_sectorAddress (t.base_le_of_findRegion hr).1, _, rfl⟩ hsteps
    · intro k hk
      cases k with
      | zero => simp [eraseAddress, hr]
      | succ k =>
        rw [← curLen_succ, haddrs k (by omega)]
        rfl

/-- An area erase that succeeds makes its steps one after the other. -/
theorem eraseSectors_exhibits (A : Adapter σ) (t : Target) (addr len : Word) (fuel steps : Nat)
    (curLen : Word) : (eraseSectors A t addr len fuel steps curLen).Exhibits bus fun ok obs =>
      ok = true → ∃ n, AreaCycles A t addr len curLen n obs := by
  induction steps generalizing curLen with
  | zero => exact Program.exhibits_stop
  | succ steps ih =>
    unfold eraseSectors
    split
    · rename_i hlt
      apply (targetEraseSector_exhibits (addr + curLen) fuel).bind
      rintro ok o₁ ⟨r, hr, h₁⟩
      cases ok with
      | false =>
        apply Program.exhibits_pure
        intro hok
        cases hok
      | true =>
        apply (ih (curLen + t.sectorSize)).mono
        intro ok o₂ h₂ hok
        obtain ⟨n, h₂⟩ := h₂ hok
        exact ⟨n + 1, AreaCycles.cons hlt hr h₁ h₂⟩
    · rename_i hlt
      apply Program.exhibits_pure
      exact fun _ => ⟨0, AreaCycles.nil hlt⟩

/-- The erase address of a step, counted from 0. -/
def stepAddress (t : Target) (addr : Word) (k : Nat) : Option Word :=
  eraseAddress t (addr + BitVec.ofNat 32 k * t.sectorSize)

/-- The number of steps: one for each sector length that the area begins. -/
def stepCount (t : Target) (len : Word) : Nat :=
  (len.toNat + t.sectorSize.toNat - 1) / t.sectorSize.toNat

/-- The length at a step, with the overflow of the counter. -/
theorem stepLen_toNat (ss : Word) (k : Nat) :
    (BitVec.ofNat 32 k * ss).toNat = k * ss.toNat % 2 ^ 32 := by
  rw [BitVec.toNat_mul, BitVec.toNat_ofNat, Nat.mod_mul_mod]

private theorem word_zero_add (w : Word) : 0 + w = w := BitVec.zero_add w

variable {n : Nat} {obs : List BusEvent} {m : Nat}

/-- A sector that is erased starts inside of the area. -/
theorem AreaCycles.below_toNat (h : AreaCycles A t addr len 0 n obs) {k : Nat} (hk : k < n) :
    k * t.sectorSize.toNat % 2 ^ 32 < len.toNat := by
  have hlt := h.below k hk
  rwa [word_zero_add, BitVec.lt_def, stepLen_toNat] at hlt

/-- Behind the last sector the area has ended. -/
theorem AreaCycles.stop_toNat (h : AreaCycles A t addr len 0 n obs) :
    len.toNat ≤ n * t.sectorSize.toNat % 2 ^ 32 := by
  have hstop := h.stop
  rw [word_zero_add, BitVec.lt_def, stepLen_toNat] at hstop
  omega

/-- The counter of an area erase that ends does not overflow. -/
theorem AreaCycles.no_overflow (hs : t.sectorSize.toNat = 2 ^ m)
    (h : AreaCycles A t addr len 0 n obs) : n * t.sectorSize.toNat < 2 ^ 32 := by
  by_contra hge
  have hm : m < 32 := by
    have hlt := t.sectorSize.isLt
    rw [hs] at hlt
    exact (Nat.pow_lt_pow_iff_right (by decide)).mp hlt
  have hround : 2 ^ (32 - m) * t.sectorSize.toNat = 2 ^ 32 := by
    rw [hs, ← Nat.pow_add, Nat.sub_add_cancel hm.le]
  have hn : 2 ^ (32 - m) ≤ n := by
    by_contra hlt
    have hmul := Nat.mul_lt_mul_of_pos_right (not_le.mp hlt) (hs ▸ Nat.two_pow_pos m)
    omega
  have hback : (n - 2 ^ (32 - m)) * t.sectorSize.toNat % 2 ^ 32 =
      n * t.sectorSize.toNat % 2 ^ 32 := by
    rw [Nat.sub_mul, hround]
    omega
  have hprev := h.below_toNat (k := n - 2 ^ (32 - m)) (by have := Nat.two_pow_pos (32 - m); omega)
  have hstop := h.stop_toNat
  omega

/-- An area erase that ends makes the steps that its length needs. -/
theorem AreaCycles.count (hs : t.sectorSize.toNat = 2 ^ m)
    (h : AreaCycles A t addr len 0 n obs) : n = stepCount t len := by
  have hover := h.no_overflow hs
  have hstop := h.stop_toNat
  have hpos : 0 < t.sectorSize.toNat := hs ▸ Nat.two_pow_pos m
  rw [Nat.mod_eq_of_lt hover] at hstop
  symm
  rw [stepCount, Nat.div_eq_iff hpos]
  cases n with
  | zero => omega
  | succ k =>
    have hbelow := h.below_toNat (Nat.lt_succ_self k)
    rw [Nat.succ_mul] at *
    rw [Nat.mod_eq_of_lt (by omega)] at hbelow
    omega

/-- A store that carries a command goes to the sector of index `i`. -/
def HitAt (t : Target) (slot : Nat) (writes : List (Word × Word)) (i : Nat) : Prop :=
  ∃ j a, writes[j * eraseGroup t + slot]? = some a ∧ a.1.toNat / t.sectorSize.toNat = i

/-- The sector of index `i` overlaps the area. -/
def Overlaps (t : Target) (phys len : Word) (i : Nat) : Prop :=
  ∃ b, phys.toNat ≤ b ∧ b < phys.toNat + len.toNat ∧ b / t.sectorSize.toNat = i

/-- On each half of the bus the sectors that got the command are those of the area. -/
def ErasedExactly (t : Target) (phys len : Word) (writes : List (Word × Word)) : Prop :=
  ∀ c ∈ commandSlots t, ∀ i, HitAt t c.1 writes i ↔ Overlaps t phys len i

/-- The sectors of an area are consecutive. -/
theorem overlaps_iff {phys : Word} {i : Nat} (hs : 0 < t.sectorSize.toNat)
    (hlen : 0 < len.toNat) : Overlaps t phys len i ↔
      phys.toNat / t.sectorSize.toNat ≤ i ∧
        i ≤ (phys.toNat + len.toNat - 1) / t.sectorSize.toNat := by
  constructor
  · rintro ⟨b, hlow, hhigh, rfl⟩
    exact ⟨Nat.div_le_div_right hlow, Nat.div_le_div_right (by omega)⟩
  · rintro ⟨hlow, hhigh⟩
    have hle : i * t.sectorSize.toNat ≤ phys.toNat + len.toNat - 1 :=
      (Nat.le_div_iff_mul_le hs).mp hhigh
    by_cases hb : phys.toNat ≤ i * t.sectorSize.toNat
    · exact ⟨i * t.sectorSize.toNat, hb, by omega, Nat.mul_div_cancel i hs⟩
    · have hi : i ≤ phys.toNat / t.sectorSize.toNat := (Nat.le_div_iff_mul_le hs).mpr (by omega)
      exact ⟨phys.toNat, le_refl _, by omega, by omega⟩

/-- Each step of an area erase that ends has an erase address. -/
theorem AreaCycles.exists_stepAddress (h : AreaCycles A t addr len 0 n obs) {k : Nat}
    (hk : k < n) : ∃ a, stepAddress t addr k = some a := by
  obtain ⟨groups, addrs, -, -, hlen, haddrs⟩ := h.steps
  have hk' := haddrs k hk
  rw [word_zero_add, List.getElem?_eq_getElem (by omega)] at hk'
  exact ⟨_, hk'⟩

/-- The sectors that got the command are those of the erase addresses of the steps. -/
theorem AreaCycles.hitAt_iff (h : AreaCycles A t addr len 0 n obs) {c : Nat × Word}
    (hc : c ∈ commandSlots t) {i : Nat} : HitAt t c.1 (busWrites obs) i ↔
      ∃ k < n, ∃ a, stepAddress t addr k = some a ∧
        (physical (a + c.2)).toNat / t.sectorSize.toNat = i := by
  obtain ⟨groups, addrs, hw, hsteps, hlen, haddrs⟩ := h.steps
  have hgroup : ∀ l ∈ groups, l.length = eraseGroup t := by
    intro l hl
    obtain ⟨k, hk, rfl⟩ := List.getElem_of_mem hl
    have hka : k < addrs.length := by rwa [← hsteps.length_eq]
    obtain ⟨-, base, hg⟩ := (List.forall₂_iff_get.mp hsteps).2 k hk hka
    rw [show groups[k] = groups.get ⟨k, hk⟩ from rfl, hg]
    exact length_sectorArgs A t base (addrs.get ⟨k, hka⟩)
  have hstep : ∀ k < n, ∃ a l, stepAddress t addr k = some a ∧ groups[k]? = some l ∧
      (l[c.1]?).map Prod.fst = some (physical (a + c.2)) := by
    intro k hk
    have hka : k < addrs.length := by omega
    have hkg : k < groups.length := by rw [hsteps.length_eq]; omega
    obtain ⟨hphys, base, hg⟩ := (List.forall₂_iff_get.mp hsteps).2 k hkg hka
    refine ⟨addrs[k], groups[k], ?_, List.getElem?_eq_getElem hkg, ?_⟩
    · have hk' := haddrs k hk
      rwa [word_zero_add, List.getElem?_eq_getElem hka] at hk'
    · have hslot := sectorArgs_commandSlots A base true hphys c hc
      rwa [← hg] at hslot
  unfold HitAt
  rw [hw]
  constructor
  · rintro ⟨k, a, hget, hi⟩
    rw [getElem?_flatten_group hgroup (commandSlots_lt hc)] at hget
    obtain ⟨l, hl, hla⟩ := Option.bind_eq_some_iff.mp hget
    have hk : k < n := by
      have hkg := (List.getElem?_eq_some_iff.mp hl).1
      rw [hsteps.length_eq] at hkg
      omega
    obtain ⟨a', l', ha', hl', hslot⟩ := hstep k hk
    obtain rfl : l = l' := Option.some.inj (hl.symm.trans hl')
    rw [hla] at hslot
    refine ⟨k, hk, a', ha', ?_⟩
    rw [← Option.some.inj hslot]
    exact hi
  · rintro ⟨k, hk, a, ha, hi⟩
    obtain ⟨a', l, ha', hl, hslot⟩ := hstep k hk
    obtain rfl : a = a' := Option.some.inj (ha.symm.trans ha')
    obtain ⟨w, hw', hfst⟩ := Option.map_eq_some_iff.mp hslot
    refine ⟨k, w, ?_, by rw [hfst, hi]⟩
    rw [getElem?_flatten_group hgroup (commandSlots_lt hc), hl]
    exact hw'

/-- The erase address of a step is not past the place of the step in the area. -/
theorem stepAddress_le {k : Nat} {a : Word} (ha : stepAddress t addr k = some a) :
    a.toNat ≤ (physical addr).toNat + k * t.sectorSize.toNat := by
  obtain ⟨r, hr, rfl⟩ := Option.map_eq_some_iff.mp ha
  have hle := sectorAddress_le (t.base_le_of_findRegion hr).1
  have hadd := physical_add_le addr (BitVec.ofNat 32 k * t.sectorSize)
  rw [stepLen_toNat] at hadd
  have hmod := Nat.mod_le (k * t.sectorSize.toNat) (2 ^ 32)
  omega

/-- The steps of an area erase go from sector to sector, and the last one reaches the end
of the area. The commands of the high half of the bus, 4 above, go to the same sectors. -/
structure SectorsFollow (t : Target) (addr len : Word) : Prop where
  steps : ∀ k < stepCount t len, ∃ a, stepAddress t addr k = some a ∧
    a.toNat / t.sectorSize.toNat = (physical addr).toNat / t.sectorSize.toNat + k
  last : (physical addr).toNat % t.sectorSize.toNat + len.toNat ≤
    stepCount t len * t.sectorSize.toNat
  high : (11, 4) ∈ commandSlots t → ∀ i,
    (∃ k < stepCount t len, ∃ a, stepAddress t addr k = some a ∧
      (physical (a + 4)).toNat / t.sectorSize.toNat = i) ↔
    (physical addr).toNat / t.sectorSize.toNat ≤ i ∧
      i < (physical addr).toNat / t.sectorSize.toNat + stepCount t len

/-- The bounds of the number of steps. -/
theorem stepCount_bounds (hs : 0 < t.sectorSize.toNat) (hlen : 0 < len.toNat) :
    0 < stepCount t len ∧ len.toNat ≤ stepCount t len * t.sectorSize.toNat ∧
      (stepCount t len - 1) * t.sectorSize.toNat < len.toNat := by
  have hcount : stepCount t len = (len.toNat + t.sectorSize.toNat - 1) / t.sectorSize.toNat := rfl
  have hbounds := (Nat.div_eq_iff hs).mp hcount.symm
  have hpos : 0 < stepCount t len := by
    rw [hcount]
    exact Nat.div_pos (by omega) hs
  rw [Nat.sub_mul]
  omega

/-- The last sector of the area is that of the last step exactly where the steps reach
the end of the area. -/
theorem last_sector_iff (phys : Word) (hs : 0 < t.sectorSize.toNat) (hlen : 0 < len.toNat) :
    (phys.toNat + len.toNat - 1) / t.sectorSize.toNat =
        phys.toNat / t.sectorSize.toNat + stepCount t len - 1 ↔
      phys.toNat % t.sectorSize.toNat + len.toNat ≤ stepCount t len * t.sectorSize.toNat := by
  obtain ⟨hpos, hle, hlt⟩ := stepCount_bounds hs hlen
  have hdiv := Nat.div_add_mod' phys.toNat t.sectorSize.toNat
  rw [Nat.div_eq_iff hs]
  have hsub : (phys.toNat / t.sectorSize.toNat + stepCount t len - 1) * t.sectorSize.toNat =
      phys.toNat / t.sectorSize.toNat * t.sectorSize.toNat +
        (stepCount t len - 1) * t.sectorSize.toNat := by
    rw [Nat.add_sub_assoc hpos, Nat.add_mul]
  have hone : (stepCount t len - 1) * t.sectorSize.toNat + t.sectorSize.toNat =
      stepCount t len * t.sectorSize.toNat := by
    rw [← Nat.succ_mul]
    congr 1
    omega
  rw [hsub]
  omega

/-- A command that is not for the low half is for the high half. -/
theorem commandSlots_cases {c : Nat × Word} (hc : c ∈ commandSlots t) : c.2 = 0 ∨ c = (11, 4) := by
  unfold commandSlots at hc
  split at hc
  · simp at hc
    rcases hc with rfl | rfl <;> exact .inl rfl
  · split at hc
    · simp at hc
      exact .inl (hc ▸ rfl)
    · split at hc
      · simp at hc
        rcases hc with rfl | rfl
        · exact .inl rfl
        · exact .inr rfl
      · simp at hc
        exact .inl (hc ▸ rfl)

/-- The sector of a step, counted from the one where the area starts. -/
def stepIndex (t : Target) (addr : Word) (k : Nat) : Nat :=
  ((stepAddress t addr k).getD 0).toNat / t.sectorSize.toNat -
    (physical addr).toNat / t.sectorSize.toNat

/-- Steps that erase the area exactly go from sector to sector. -/
theorem steps_of_exact (hs : 0 < t.sectorSize.toNat) (hlen : 0 < len.toNat)
    (hexact : ∀ i, (∃ k < stepCount t len, ∃ a, stepAddress t addr k = some a ∧
      a.toNat / t.sectorSize.toNat = i) ↔ Overlaps t (physical addr) len i)
    (hstep : ∀ k < stepCount t len, ∃ a, stepAddress t addr k = some a) :
    ∀ k < stepCount t len, ∃ a, stepAddress t addr k = some a ∧
      a.toNat / t.sectorSize.toNat = (physical addr).toNat / t.sectorSize.toNat + k := by
  obtain ⟨hpos, hle, hlt⟩ := stepCount_bounds hs hlen
  have hindex : ∀ k < stepCount t len, ∃ a, stepAddress t addr k = some a ∧
      a.toNat / t.sectorSize.toNat = (physical addr).toNat / t.sectorSize.toNat +
        stepIndex t addr k := by
    intro k hk
    obtain ⟨a, ha⟩ := hstep k hk
    obtain ⟨hlow, -⟩ := (overlaps_iff hs hlen).mp ((hexact _).mp ⟨k, hk, a, ha, rfl⟩)
    refine ⟨a, ha, ?_⟩
    simp only [stepIndex, ha, Option.getD_some]
    omega
  have hdown : ∀ k < stepCount t len, stepIndex t addr k ≤ k := by
    intro k hk
    obtain ⟨a, ha, hidx⟩ := hindex k hk
    have hdiv := Nat.div_le_div_right (c := t.sectorSize.toNat) (stepAddress_le ha)
    rw [Nat.add_mul_div_right _ _ hs] at hdiv
    omega
  have hsurj : ∀ j < stepCount t len, ∃ k < stepCount t len, stepIndex t addr k = j := by
    intro j hj
    have hj' : j * t.sectorSize.toNat ≤ (stepCount t len - 1) * t.sectorSize.toNat :=
      Nat.mul_le_mul_right _ (by omega)
    have hover : Overlaps t (physical addr) len
        ((physical addr).toNat / t.sectorSize.toNat + j) := by
      refine ⟨(physical addr).toNat + j * t.sectorSize.toNat, by omega, by omega, ?_⟩
      exact Nat.add_mul_div_right _ _ hs
    obtain ⟨k, hk, a, ha, hidx⟩ := (hexact _).mpr hover
    obtain ⟨a', ha', hidx'⟩ := hindex k hk
    obtain rfl : a = a' := Option.some.inj (ha.symm.trans ha')
    exact ⟨k, hk, by omega⟩
  intro k hk
  obtain ⟨a, ha, hidx⟩ := hindex k hk
  rw [eq_of_le_of_surjective hdown hsurj k hk] at hidx
  exact ⟨a, ha, hidx⟩

/-- Steps that go from sector to sector reach as many sectors as there are steps. -/
theorem exists_step_iff {q c i : Nat} {f : Word → Nat}
    (hsteps : ∀ k < c, ∃ a, stepAddress t addr k = some a ∧ f a = q + k) :
    (∃ k < c, ∃ a, stepAddress t addr k = some a ∧ f a = i) ↔ q ≤ i ∧ i < q + c := by
  constructor
  · rintro ⟨k, hk, a, ha, hi⟩
    obtain ⟨a', ha', hi'⟩ := hsteps k hk
    obtain rfl : a = a' := Option.some.inj (ha.symm.trans ha')
    omega
  · rintro ⟨hlow, hhigh⟩
    obtain ⟨a, ha, hi⟩ := hsteps (i - q) (by omega)
    exact ⟨i - q, by omega, a, ha, by omega⟩

/-- An erase address that a step computes is physical. -/
theorem physical_stepAddress {k : Nat} {a : Word} (ha : stepAddress t addr k = some a) :
    physical a = a := by
  obtain ⟨r, hr, rfl⟩ := Option.map_eq_some_iff.mp ha
  exact physical_sectorAddress (t.base_le_of_findRegion hr).1

/-- An area erase that ends erases exactly the sectors of its area where its steps go from
sector to sector up to the end of the area. -/
theorem AreaCycles.erasedExactly_iff (hs : t.sectorSize.toNat = 2 ^ m) (hlen : 0 < len.toNat)
    (h : AreaCycles A t addr len 0 n obs) :
    ErasedExactly t (physical addr) len (busWrites obs) ↔ SectorsFollow t addr len := by
  have hpos : 0 < t.sectorSize.toNat := hs ▸ Nat.two_pow_pos m
  obtain rfl : n = stepCount t len := h.count hs
  obtain ⟨hcount, -, -⟩ := stepCount_bounds hpos hlen
  have hlow : ∀ i, (∃ k < stepCount t len, ∃ a, stepAddress t addr k = some a ∧
      (physical (a + 0)).toNat / t.sectorSize.toNat = i) ↔
      ∃ k < stepCount t len, ∃ a, stepAddress t addr k = some a ∧
        a.toNat / t.sectorSize.toNat = i := by
    intro i
    have hzero : ∀ w : Word, w + 0 = w := BitVec.add_zero
    constructor
    · rintro ⟨k, hk, a, ha, hi⟩
      rw [hzero, physical_stepAddress ha] at hi
      exact ⟨k, hk, a, ha, hi⟩
    · rintro ⟨k, hk, a, ha, hi⟩
      refine ⟨k, hk, a, ha, ?_⟩
      rw [hzero, physical_stepAddress ha, hi]
  have hlast := last_sector_iff (physical addr) hpos hlen
  constructor
  · intro hexact
    obtain ⟨slot, hslot⟩ := exists_commandSlot t
    have hlowExact : ∀ i, (∃ k < stepCount t len, ∃ a, stepAddress t addr k = some a ∧
        a.toNat / t.sectorSize.toNat = i) ↔ Overlaps t (physical addr) len i := by
      intro i
      rw [← hlow i, ← h.hitAt_iff hslot]
      exact hexact _ hslot i
    have hstep : ∀ k < stepCount t len, ∃ a, stepAddress t addr k = some a := by
      intro k hk
      exact h.exists_stepAddress hk
    have hsteps := steps_of_exact hpos hlen hlowExact hstep
    have hend : ∀ i, Overlaps t (physical addr) len i ↔
        (physical addr).toNat / t.sectorSize.toNat ≤ i ∧
          i < (physical addr).toNat / t.sectorSize.toNat + stepCount t len := by
      intro i
      rw [← hlowExact i]
      exact exists_step_iff (f := fun a => a.toNat / t.sectorSize.toNat) hsteps
    refine ⟨hsteps, ?_, ?_⟩
    · rw [← hlast]
      have hmax : Overlaps t (physical addr) len
          (((physical addr).toNat + len.toNat - 1) / t.sectorSize.toNat) := by
        exact (overlaps_iff hpos hlen).mpr ⟨Nat.div_le_div_right (by omega), le_refl _⟩
      have hbelow := ((hend _).mp hmax).2
      have hreach := ((overlaps_iff hpos hlen).mp ((hend
        ((physical addr).toNat / t.sectorSize.toNat + (stepCount t len - 1))).mpr
          ⟨Nat.le_add_right _ _, by omega⟩)).2
      generalize (physical addr).toNat / t.sectorSize.toNat = q at *
      generalize ((physical addr).toNat + len.toNat - 1) / t.sectorSize.toNat = last at *
      omega
    · intro hhigh i
      rw [← hend i, ← hexact _ hhigh i, h.hitAt_iff hhigh]
  · intro hfollow c hc i
    have hend : Overlaps t (physical addr) len i ↔
        (physical addr).toNat / t.sectorSize.toNat ≤ i ∧
          i < (physical addr).toNat / t.sectorSize.toNat + stepCount t len := by
      rw [overlaps_iff hpos hlen, hlast.mpr hfollow.last]
      generalize (physical addr).toNat / t.sectorSize.toNat = q
      omega
    rw [h.hitAt_iff hc, hend]
    rcases commandSlots_cases hc with hzero | rfl
    · rw [hzero, hlow i]
      exact exists_step_iff (f := fun a => a.toNat / t.sectorSize.toNat) hfollow.steps
    · exact hfollow.high hc i

/-- An area erase that answers 1 sends its command to all sectors of the area, and to no
others, exactly where its steps go from sector to sector up to the end of the area. -/
theorem targetEraseArea_erasedExactly_iff {s s' : Session σ} {fuel : Nat} {tr : List Call}
    (hs : t.sectorSize.toNat = 2 ^ m) (hlen : 0 < len)
    (h : (targetEraseArea A t addr len fuel).Returns s true tr s') :
    ErasedExactly t (physical addr) len (busWrites (busEvents tr)) ↔
      SectorsFollow t addr len := by
  obtain ⟨n, hcycles⟩ :=
    busEvents_of_exhibits (eraseSectors_exhibits A t addr len fuel fuel 0) h rfl
  exact hcycles.erasedExactly_iff hs hlen

/-- An area erase on the shipped board of two chips. -/
def eraseAreaOnMck02 (addr len : Word) : Outcome Call (Session (List Word)) Fatal Bool :=
  targetEraseArea (scripted 0 0xFFFFFFFF) mck02 addr len 3 ⟨0, []⟩

/-- Two sectors from the start of a sector on. -/
theorem erasedExactly_boot_iff : ∃ tr s',
    (targetEraseArea (scripted 0 0xFFFFFFFF) mck02 0xBFC00000 0x40000 3).Returns ⟨0, []⟩
        true tr s' ∧
      (ErasedExactly mck02 (physical 0xBFC00000) 0x40000 (busWrites (busEvents tr)) ↔
        SectorsFollow mck02 0xBFC00000 0x40000) := by
  have h : (eraseAreaOnMck02 0xBFC00000 0x40000).result.toOption.map id = some true := by decide
  obtain ⟨ok, tr, s', hr, hok⟩ := Program.exists_returns h
  obtain rfl : ok = true := hok
  exact ⟨tr, s', hr, targetEraseArea_erasedExactly_iff (m := 17) (by decide) (by decide) hr⟩

/-- A sector length from the middle of a sector on: the next sector gets no command. -/
theorem eraseAreaOnMck02_misses_sector :
    mck02.sectorSize.toNat = 2 ^ 17 ∧
      (mck02.findRegion (physical 0xBFC10000)).map (·.last) = some 0x20BFFFFF ∧
      (eraseAreaOnMck02 0xBFC10000 0x20000).result.toOption = some true ∧
      Overlaps mck02 (physical 0xBFC10000) 0x20000 0xFE1 ∧
      ¬ ErasedExactly mck02 (physical 0xBFC10000) 0x20000
        (busWrites (busEvents (eraseAreaOnMck02 0xBFC10000 0x20000).trace)) := by
  have hover : Overlaps mck02 (physical 0xBFC10000) 0x20000 0xFE1 :=
    ⟨0x1FC20000, by decide, by decide, by decide⟩
  refine ⟨by decide, by decide, by decide, hover, ?_⟩
  intro hexact
  obtain ⟨j, a, hget, hi⟩ := (hexact (5, 0) (by decide) 0xFE1).mpr hover
  have hwrites : (busWrites (busEvents (eraseAreaOnMck02 0xBFC10000 0x20000).trace)).length = 6 := by
    decide
  have hj : j * eraseGroup mck02 + 5 < 6 := by
    rw [← hwrites]
    exact (List.getElem?_eq_some_iff.mp hget).1
  have hgroup : eraseGroup mck02 = 6 := by decide
  rw [hgroup] at hj
  obtain rfl : j = 0 := by omega
  have ha : (0x1FC10000, mck02.flashCmd30) = a := by
    have hfifth : (busWrites (busEvents (eraseAreaOnMck02 0xBFC10000 0x20000).trace))[5]? =
        some (0x1FC10000, mck02.flashCmd30) := by decide
    rw [Nat.zero_mul, Nat.zero_add, hfifth] at hget
    exact Option.some.inj hget
  rw [← ha] at hi
  exact absurd hi (by decide)

end Mcprog
