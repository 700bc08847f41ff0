import Mcprog.Library.Effects
import Mcprog.Programmer.DoProgram
import Mcprog.Target.Regions

/-!
# The flash regions of a board

The regions that the configuration file names are added to the table of the target. `compute_base` looks
an address up in it, and `do_probe` walks through it, where each step starts from a search for the base
of the region before.
-/

namespace Mcprog

open Interaction Program

variable {σ : Type} {A : Adapter σ} {t t' : Target} {regions : List FlashRegion}

/-- The region that a parameter adds. -/
def Setting.region : Setting → Option FlashRegion
  | .flash first last => some ⟨first, last⟩
  | .store _ _ | .cscon3 _ | .unknown _ => none

/-- The regions of the board in the order of the configuration file. -/
def flashRegions (settings : List Setting) : List FlashRegion := settings.filterMap Setting.region

/-- A parameter adds its region, if it has one. -/
theorem configureParameter_hasRegions (h : t.HasRegions regions)
    (hregions : ∀ r ∈ regions, r.last ≠ noRegion.last) (setting : Setting) :
    (configureParameter A t setting).Ensures fun t' =>
      t'.HasRegions (regions ++ setting.region.toList) := by
  cases setting with
  | store addr word =>
    refine ensures_bind fun _ => ensures_pure ?_
    rwa [Setting.region, Option.toList_none, List.append_nil]
  | cscon3 word =>
    refine ensures_bind fun _ => ensures_pure ?_
    rwa [Setting.region, Option.toList_none, List.append_nil]
  | flash first last =>
    intro s t' tr s' hr
    rcases h.flashConfigure hregions ⟨first, last⟩ s with ⟨-, t₁, hconf, hnext⟩ | ⟨-, hfull⟩
    · obtain ⟨rfl, -⟩ := hconf.unique hr
      exact hnext
    · exact absurd hr (hfull _ _ _)
  | unknown text => exact ensures_stop

/-- The board has its regions after the configuration. -/
theorem configure_hasRegions {settings : List Setting} (h : t.HasRegions regions)
    (hregions : ∀ r ∈ regions ++ flashRegions settings, r.last ≠ noRegion.last) :
    (configure A t settings).Ensures fun t' => t'.HasRegions (regions ++ flashRegions settings) := by
  induction settings generalizing t regions with
  | nil =>
    apply ensures_pure
    rwa [flashRegions, List.filterMap_nil, List.append_nil]
  | cons setting settings ih =>
    have hsplit : flashRegions (setting :: settings) =
        setting.region.toList ++ flashRegions settings := by
      unfold flashRegions
      cases hregion : setting.region with
      | none => rw [List.filterMap_cons_none hregion, Option.toList_none, List.nil_append]
      | some r => rw [List.filterMap_cons_some hregion, Option.toList_some, List.singleton_append]
    rw [hsplit, ← List.append_assoc] at hregions ⊢
    have hbefore : ∀ r ∈ regions, r.last ≠ noRegion.last := fun r hr =>
      hregions r (List.mem_append_left _ (List.mem_append_left _ hr))
    exact (configureParameter_hasRegions h hbefore setting).bind fun t₁ h₁ => ih h₁ hregions

/-- The device is opened without regions. -/
theorem targetOpen_hasRegions : (targetOpen A).Ensures fun t => t.HasRegions [] :=
  ensures_bind fun _ => ensures_ite (fun _ => ensures_pure allocated_hasRegions) fun _ =>
    ensures_bind fun _ => ensures_stop

/-- Once the board is configured `compute_base` answers the base of the first of its regions that
contains the physical address, and ends the program if there is none. -/
theorem computeBase_configured {settings : List Setting} {s s' : Session σ} {tr : List Call}
    (hregions : ∀ r ∈ flashRegions settings, r.base ≤ r.last ∧ 0 < r.last ∧ r.last < 0xFFFFFFFF)
    (h : (do let t ← targetOpen A; configure A t settings : Action σ Target).Returns s t tr s')
    (addr : Word) (s₁ : Session σ) :
    (∀ base, (t.computeBase addr).Returns s₁ base [] s₁ ↔
      ∃ r, (flashRegions settings).find? (fun r => r.Contains (physical addr)) = some r ∧ base = r.base) ∧
    ((t.computeBase addr : Action σ Word) s₁ =
        ⟨[], s₁, .error (.exit 1 "target: no flash region for address 0x%08X\n" [physical addr])⟩ ↔
      ∀ r ∈ flashRegions settings, ¬ r.Contains (physical addr)) := by
  have hlast : ∀ r ∈ flashRegions settings, r.last ≠ noRegion.last := fun r hr =>
    (FlashRegion.base_ne (hregions r hr).1 (hregions r hr).2.2).2
  have hpos : ∀ r ∈ flashRegions settings, r.last ≠ 0 := fun r hr =>
    (BitVec.ne_of_lt (hregions r hr).2.1).symm
  have hconf : (do let t ← targetOpen A; configure A t settings : Action σ Target).Ensures
      fun t => t.HasRegions ([] ++ flashRegions settings) :=
    targetOpen_hasRegions.bind fun _ h₀ => configure_hasRegions h₀ hlast
  have htable : t.HasRegions (flashRegions settings) := hconf s t tr s' h
  rw [Target.computeBase, htable.findRegion hpos]
  cases hfind : (flashRegions settings).find? fun r => r.Contains (physical addr) with
  | some r =>
    have hin : r.Contains (physical addr) := by simpa using List.find?_some hfind
    constructor
    · intro base
      rw [returns_pure_iff]
      constructor
      · rintro ⟨rfl, -, -⟩
        exact ⟨r, rfl, rfl⟩
      · rintro ⟨r', hr', rfl⟩
        obtain rfl := Option.some.inj hr'
        exact ⟨rfl, rfl, rfl⟩
    · refine iff_of_false (fun hexit => ?_) fun hnone => hnone r (List.mem_of_find?_eq_some hfind) hin
      cases congrArg Outcome.result hexit
  | none =>
    constructor
    · intro base
      refine iff_of_false not_returns_stop ?_
      rintro ⟨r, hr, -⟩
      cases hr
    · refine iff_of_true rfl fun r hr hin => ?_
      exact absurd (decide_eq_true hin) (List.find?_eq_none.mp hfind r hr)

/-- The settings of a board with two regions that overlap. -/
def overlappingBoard : List Setting :=
  [.cscon3 0x00A00000, .flash 0x1FC00000 0x1FFFFFFF, .flash 0x1FE00000 0x203FFFFF]

/-- An address in both regions is looked up in the first one, and one in neither is not found. -/
theorem computeBase_overlapping : ∃ (t : Target) (tr : List Call) (s' : Session (List Word)),
    (do
      let t ← targetOpen (scripted mc12Id 0)
      configure (scripted mc12Id 0) t overlappingBoard : Action _ Target).Returns ⟨0, []⟩ t tr s' ∧
    (t.computeBase 0xBFE00000).Returns s' 0x1FC00000 [] s' ∧
    (t.computeBase 0xA0000000 : Action (List Word) Word) s' =
      ⟨[], s', .error (.exit 1 "target: no flash region for address 0x%08X\n" [0])⟩ := by
  have hrun : ((do
      let t ← targetOpen (scripted mc12Id 0)
      configure (scripted mc12Id 0) t overlappingBoard : Action _ Target)
      ⟨0, []⟩).result.toOption.map (fun _ => ()) = some () := by decide
  obtain ⟨t, tr, s', h, -⟩ := exists_returns hrun
  have hbase := computeBase_configured (by decide) h 0xBFE00000 s'
  have hnone := computeBase_configured (by decide) h 0xA0000000 s'
  exact ⟨t, tr, s', h, (hbase.1 0x1FC00000).mpr ⟨⟨0x1FC00000, 0x1FFFFFFF⟩, by decide, rfl⟩,
    hnone.2.mpr (by decide)⟩

/-- `probe_flash`. What is found is only printed. -/
def probeRegion (A : Adapter σ) (codes : FlashId) (t : Target) (base : Word) : Action σ Target := do
  let d ← targetFlashDetect A t base codes
  return d.target

/-- The loop of `do_probe`. -/
def probeRegions (A : Adapter σ) (codes : FlashId) : Nat → Target → Word → Word → Action σ Target
  | 0, _, _, _ => Program.stop .fuel
  | fuel + 1, t, addr, last =>
    let next := t.flashNext addr last
    if next.1 = noRegion.base then pure t
    else do
      let t ← probeRegion A codes t next.1
      probeRegions A codes fuel t next.1 next.2

/-- `do_probe`. -/
def doProbe (A : Adapter σ) (settings : List Setting) (codes : FlashId) (last : Word) (fuel : Nat) :
    Control σ Target := do
  let t ← openDevice A settings
  calls (probeRegions A codes fuel t noRegion.base last)

/-- Probe regions one after the other. -/
def probeEach (A : Adapter σ) (codes : FlashId) : Target → List FlashRegion → Action σ Target
  | t, [] => pure t
  | t, r :: regions => do
    let t ← probeRegion A codes t r.base
    probeEach A codes t regions

/-- What is detected leaves the table alone. -/
theorem detectAttempts_flash (base : Word) (counts : List Nat) (t : Target) (id : FlashId) :
    (detectAttempts A base counts t id).Ensures fun d => d.target.flash = t.flash := by
  induction counts generalizing t id with
  | nil => exact ensures_pure rfl
  | cons count counts ih =>
    have hselect : (selectVariant t count).flash = t.flash := by
      unfold selectVariant
      split <;> rfl
    rw [detectAttempts]
    refine ensures_bind fun id' => ?_
    cases findChip (selectVariant t count).toFlashVariant id'.dev with
    | some c => exact ensures_pure hselect
    | none =>
      rw [← hselect]
      exact ih _ id'

theorem probeRegion_flash (codes : FlashId) (t : Target) (base : Word) :
    (probeRegion A codes t base).Ensures fun t' => t'.flash = t.flash := by
  have hdetect : (targetFlashDetect A t base codes).Ensures fun d => d.target.flash = t.flash :=
    ensures_bind fun base => (detectAttempts_flash base _ t codes).bind fun d hd =>
      ensures_ite (fun _ => ensures_bind fun _ => ensures_pure hd) fun _ => ensures_pure hd
  exact hdetect.bind fun d hd => ensures_pure hd

/-- A walk is one through the table. -/
theorem Walks.of_flash {prev last : Word} (h : Walks t prev last regions) (hflash : t'.flash = t.flash) :
    Walks t' prev last regions := by
  have hnext : ∀ prev last, t'.flashNext prev last = t.flashNext prev last := by
    intro prev last
    unfold Target.flashNext Target.firstRegion
    rw [hflash]
  induction h with
  | done isEnd => exact .done (by rw [hnext, isEnd])
  | visit isNext isRegion _ ih => exact .visit (by rw [hnext, isNext]) isRegion ih

/-- A sequence depends on its second part only where the first one answers. -/
theorem bind_congr_ensures {α β : Type} {P : α → Prop} {m : Action σ α} {f g : α → Action σ β}
    (hm : m.Ensures P) (h : ∀ a, P a → f a = g a) : m >>= f = m >>= g := by
  funext s
  rw [bind_apply, bind_apply]
  cases hres : (m s).result with
  | error e => rfl
  | ok a =>
    have hr : m.Returns s a (m s).trace (m s).state := by rw [Returns, ← hres]
    dsimp only
    rw [h a (hm _ _ _ _ hr)]

/-- The loop probes the regions that the walk comes to, in that order. -/
theorem probeRegions_of_walks (codes : FlashId) {prev last : Word} (h : Walks t prev last regions)
    {fuel : Nat} (hfuel : regions.length < fuel) :
    probeRegions A codes fuel t prev last = probeEach A codes t regions := by
  induction regions generalizing t prev last fuel with
  | nil =>
    obtain ⟨fuel, rfl⟩ := Nat.exists_eq_succ_of_ne_zero (Nat.ne_of_gt hfuel)
    cases h with
    | done isEnd => exact if_pos isEnd
  | cons r regions ih =>
    obtain ⟨fuel, rfl⟩ := Nat.exists_eq_succ_of_ne_zero (Nat.ne_of_gt (Nat.zero_lt_of_lt hfuel))
    cases h with
    | visit isNext isRegion rest =>
      rw [probeRegions, isNext]
      dsimp only
      rw [if_neg isRegion]
      exact bind_congr_ensures (probeRegion_flash codes t r.base) fun t' hflash =>
        ih (rest.of_flash hflash) (Nat.lt_of_succ_lt_succ hfuel)

/-- The regions are accepted, and the loop of `do_probe` then visits each of them once, in their order, and
ends. -/
def ProbesRegions (s : Session σ) (t : Target) (regions : List FlashRegion) : Prop :=
  ∃ t' : Target, (t.flashConfigureAll regions).Returns s t' [] s ∧
    ∀ last, Walks t' noRegion.base last regions

/-- This is so exactly if there are regions, at most 15 of them, and none begins in an earlier one. -/
theorem probesRegions_iff (h : t.HasRegions []) (s : Session σ)
    (hregions : ∀ r ∈ regions, r.base ≤ r.last ∧ r.last < 0xFFFFFFFF) :
    ProbesRegions s t regions ↔ regions ≠ [] ∧ regions.length ≤ 15 ∧
      regions.Pairwise fun r r' => ¬ r.Contains r'.base := by
  have hlast : ∀ r ∈ [] ++ regions, r.last ≠ noRegion.last := fun r hr =>
    (FlashRegion.base_ne (hregions r hr).1 (hregions r hr).2).2
  constructor
  · rintro ⟨t', hconf, hwalks⟩
    have htable : t'.HasRegions regions := flashConfigureAll_hasRegions h hlast hconf
    obtain ⟨hne, hapart⟩ := (htable.walks_iff hregions 0).mp (hwalks 0)
    exact ⟨hne, htable.length_le, hapart⟩
  · rintro ⟨hne, hroom, hapart⟩
    obtain ⟨t', hconf⟩ := (flashConfigureAll_returns h hlast s).mpr hroom
    have htable : t'.HasRegions regions := flashConfigureAll_hasRegions h hlast hconf
    exact ⟨t', hconf, fun last => (htable.walks_iff hregions last).mpr ⟨hne, hapart⟩⟩

/-- Two regions, the second one behind the first one. -/
theorem probesRegions_two :
    ProbesRegions (⟨0, ()⟩ : Session Unit) Target.allocated
      [⟨0x1FC00000, 0x1FFFFFFF⟩, ⟨0x20000000, 0x203FFFFF⟩] ↔
    [(⟨0x1FC00000, 0x1FFFFFFF⟩ : FlashRegion), ⟨0x20000000, 0x203FFFFF⟩] ≠ [] ∧
      [(⟨0x1FC00000, 0x1FFFFFFF⟩ : FlashRegion), ⟨0x20000000, 0x203FFFFF⟩].length ≤ 15 ∧
      [(⟨0x1FC00000, 0x1FFFFFFF⟩ : FlashRegion), ⟨0x20000000, 0x203FFFFF⟩].Pairwise
        fun r r' => ¬ r.Contains r'.base :=
  probesRegions_iff allocated_hasRegions ⟨0, ()⟩ (by decide)

/-- A board without regions: the loop goes on with the zeros behind the end mark. -/
theorem not_probesRegions_empty : ¬ ProbesRegions (⟨0, ()⟩ : Session Unit) Target.allocated [] := by
  rintro ⟨t', hconf, hwalks⟩
  obtain ⟨rfl, -, -⟩ := returns_pure_iff.mp hconf
  cases hwalks 0 with
  | done isEnd => exact absurd isEnd (by decide)

end Mcprog
