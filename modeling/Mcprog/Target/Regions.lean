import Mcprog.Target.State

/-!
# The table of flash regions

The regions stand in the order in which they are added. Behind them there is the end mark, where the next
one goes, and behind the mark there are the zeros of the allocation, which end the search for a region.
-/

namespace Mcprog

open Interaction Program

attribute [ext] FlashRegion

/-- The region contains a physical address. -/
def FlashRegion.Contains (r : FlashRegion) (phys : Word) : Prop := r.base ≤ phys ∧ phys ≤ r.last

instance (r : FlashRegion) (phys : Word) : Decidable (r.Contains phys) := instDecidableAnd

/-- An entry that is not in use yet. -/
def unusedRegion : FlashRegion := ⟨0, 0⟩

/-- A table with these regions. -/
def regionTable (regions : List FlashRegion) : List FlashRegion :=
  regions ++ noRegion :: List.replicate (nflash - 1 - regions.length) unusedRegion

/-- The table of the target has these regions. -/
def Target.HasRegions (t : Target) (regions : List FlashRegion) : Prop :=
  t.flash.toList = regionTable regions

/-- Add regions one after the other. -/
def Target.flashConfigureAll {σ : Type} : Target → List FlashRegion → Action σ Target
  | t, [] => pure t
  | t, r :: regions => do
    let t ← t.flashConfigure r.base r.last
    t.flashConfigureAll regions

/-- The search of `target_flash_next`: the region behind the first one that contains `prev`. -/
def nextRegion (prev last : Word) : List FlashRegion → Word × Word
  | r :: r' :: regions =>
    if r'.last = noRegion.last then (noRegion.base, last)
    else if r.Contains prev then (r'.base, r'.last)
    else nextRegion prev last (r' :: regions)
  | _ => (noRegion.base, last)

/-- The entry with the index 0. -/
def Target.firstRegion (t : Target) : FlashRegion := t.flash.get (Fin.castSucc ⟨0, nflash_pos⟩)

/-- `target_flash_next`: the base of the next region, and `*last` after the call. -/
def Target.flashNext (t : Target) (prev last : Word) : Word × Word :=
  if prev = noRegion.base ∧ t.firstRegion.base ≠ noRegion.base then
    (t.firstRegion.base, t.firstRegion.last)
  else nextRegion prev last (t.flash.toList.take (nflash - 1))

/-- From `prev` on `target_flash_next` comes to these regions, and then to its end. -/
inductive Walks (t : Target) : Word → Word → List FlashRegion → Prop
  | done {prev last : Word} (isEnd : (t.flashNext prev last).1 = noRegion.base) : Walks t prev last []
  | visit {prev last : Word} {r : FlashRegion} {regions : List FlashRegion}
      (isNext : t.flashNext prev last = (r.base, r.last)) (isRegion : r.base ≠ noRegion.base)
      (rest : Walks t r.base r.last regions) : Walks t prev last (r :: regions)

variable {σ : Type} {t t' : Target} {regions : List FlashRegion} {r : FlashRegion} {phys : Word}

theorem allocated_hasRegions : Target.allocated.HasRegions [] := rfl

/-- There is always room for the end of the table. -/
theorem Target.HasRegions.length_le (h : t.HasRegions regions) : regions.length ≤ nflash - 1 := by
  have hlen := congrArg List.length h
  rw [Vector.length_toList, regionTable, List.length_append, List.length_cons, List.length_replicate] at hlen
  have hsize : nflash = 16 := rfl
  omega

/-- The end of the table is behind the sections. -/
theorem getElem?_regionTable (regions : List FlashRegion) :
    (regionTable regions)[regions.length]? = some noRegion := by
  rw [regionTable, List.getElem?_append_right (le_refl _), Nat.sub_self]
  rfl

/-- The entry that the index of a free region stands for. -/
theorem Target.HasRegions.get_flash (h : t.HasRegions regions) (i : Fin nflash) :
    some (t.flash.get i) = (regionTable regions)[i.val]? := by
  rw [← h, List.getElem?_eq_getElem (by rw [Vector.length_toList]; exact i.isLt)]
  rfl

/-- The end mark is free, and it is the first entry that is, where no region looks like it. -/
theorem Target.HasRegions.freeRegion (h : t.HasRegions regions)
    (hregions : ∀ r ∈ regions, r.last ≠ noRegion.last) (hroom : regions.length < nflash - 1) :
    t.freeRegion = some ⟨regions.length, hroom⟩ := by
  refine List.find?_eq_some_iff_getElem.mpr ⟨?_, regions.length, by simpa using hroom, by simp, ?_⟩
  · have hget := h.get_flash (⟨regions.length, hroom⟩ : Fin (nflash - 1)).castSucc
    rw [Fin.val_castSucc, getElem?_regionTable] at hget
    rw [Option.some.inj hget]
    exact decide_eq_true rfl
  · intro j hj
    have hget := h.get_flash (⟨j, hj.trans hroom⟩ : Fin (nflash - 1)).castSucc
    rw [Fin.val_castSucc, regionTable, List.getElem?_append_left hj, List.getElem?_eq_getElem hj] at hget
    have hlast := hregions _ (List.getElem_mem hj)
    rw [← Option.some.inj hget] at hlast
    rw [List.getElem_finRange]
    simpa using hlast

/-- A full table has no free entry. -/
theorem Target.HasRegions.freeRegion_none (h : t.HasRegions regions)
    (hregions : ∀ r ∈ regions, r.last ≠ noRegion.last) (hfull : regions.length = nflash - 1) :
    t.freeRegion = none := by
  refine List.find?_eq_none.mpr fun i _ => ?_
  have hi : i.val < regions.length := lt_of_lt_of_eq i.isLt hfull.symm
  have hget := h.get_flash i.castSucc
  rw [Fin.val_castSucc, regionTable, List.getElem?_append_left hi, List.getElem?_eq_getElem hi] at hget
  have hlast := hregions _ (List.getElem_mem hi)
  rw [← Option.some.inj hget] at hlast
  simpa using hlast

/-- A region that is set in place of the end mark comes behind the others. -/
theorem Target.HasRegions.setRegion (h : t.HasRegions regions) (r : FlashRegion)
    (hroom : regions.length < nflash - 1) :
    (t.setRegion ⟨regions.length, hroom⟩ r).toList = regionTable (regions ++ [r]) := by
  obtain ⟨n, hn⟩ := Nat.exists_eq_add_of_lt hroom
  have hleft : nflash - 1 - regions.length = n + 1 := by omega
  have hnext : nflash - 1 - (regions ++ [r]).length = n := by
    rw [List.length_append, List.length_singleton]
    omega
  rw [Target.setRegion, Vector.toList_set, Vector.toList_set, h, regionTable, regionTable, hleft, hnext]
  simp [List.replicate_succ]

/-- A region is added behind the others, as long as there is room for one. -/
theorem Target.HasRegions.flashConfigure (h : t.HasRegions regions)
    (hregions : ∀ r ∈ regions, r.last ≠ noRegion.last) (r : FlashRegion) (s : Session σ) :
    (regions.length < nflash - 1 ∧ ∃ t' : Target, (t.flashConfigure r.base r.last).Returns s t' [] s ∧
        t'.HasRegions (regions ++ [r])) ∨
      (regions.length = nflash - 1 ∧ ∀ t' tr s', ¬ (t.flashConfigure r.base r.last).Returns s t' tr s') := by
  rcases Nat.lt_or_eq_of_le h.length_le with hroom | hfull
  · left
    refine ⟨hroom, { t with flash := t.setRegion ⟨regions.length, hroom⟩ r }, ?_, h.setRegion r hroom⟩
    rw [Target.flashConfigure, h.freeRegion hregions hroom]
    exact returns_pure_iff.mpr ⟨rfl, rfl, rfl⟩
  · right
    refine ⟨hfull, fun t' tr s' hr => ?_⟩
    rw [Target.flashConfigure, h.freeRegion_none hregions hfull] at hr
    exact absurd hr not_returns_stop

/-- Regions that have been added stand behind those that were there. -/
theorem flashConfigureAll_hasRegions {s s' : Session σ} {tr : List Call} {added : List FlashRegion}
    (h : t.HasRegions regions) (hregions : ∀ r ∈ regions ++ added, r.last ≠ noRegion.last)
    (hr : (t.flashConfigureAll added).Returns s t' tr s') : t'.HasRegions (regions ++ added) := by
  induction added generalizing t regions s tr with
  | nil =>
    obtain ⟨rfl, -, -⟩ := returns_pure_iff.mp hr
    rwa [List.append_nil]
  | cons r added ih =>
    obtain ⟨t₁, tr₁, s₁, tr₂, h₁, h₂, rfl⟩ := returns_bind_iff.mp hr
    have hbefore : ∀ r ∈ regions, r.last ≠ noRegion.last := fun r hr =>
      hregions r (List.mem_append_left _ hr)
    rcases h.flashConfigure hbefore r s with ⟨-, t₂, hconf, hnext⟩ | ⟨-, hfull⟩
    · obtain ⟨rfl, -⟩ := hconf.unique h₁
      have hadded := ih hnext (by simpa using hregions) h₂
      rwa [List.append_assoc, List.singleton_append] at hadded
    · exact absurd h₁ (hfull _ _ _)

/-- As many regions as there is room for are added. -/
theorem flashConfigureAll_returns {added : List FlashRegion} (h : t.HasRegions regions)
    (hregions : ∀ r ∈ regions ++ added, r.last ≠ noRegion.last) (s : Session σ) :
    (∃ t' : Target, (t.flashConfigureAll added).Returns s t' [] s) ↔
      (regions ++ added).length ≤ nflash - 1 := by
  constructor
  · rintro ⟨t', hr⟩
    exact (flashConfigureAll_hasRegions h hregions hr).length_le
  · intro hroom
    induction added generalizing t regions with
    | nil => exact ⟨t, returns_pure_iff.mpr ⟨rfl, rfl, rfl⟩⟩
    | cons r added ih =>
      have hbefore : ∀ r ∈ regions, r.last ≠ noRegion.last := fun r hr =>
        hregions r (List.mem_append_left _ hr)
      rw [List.length_append, List.length_cons] at hroom
      rcases h.flashConfigure hbefore r s with ⟨-, t₁, hconf, hnext⟩ | ⟨hfull, -⟩
      · obtain ⟨t', hr⟩ := ih hnext (by simpa using hregions) (by simpa using hroom)
        exact ⟨t', hconf.bind hr⟩
      · omega

/-- The search looks at the regions and the end mark. -/
theorem Target.HasRegions.regions_eq (h : t.HasRegions regions) (hregions : ∀ r ∈ regions, r.last ≠ 0) :
    t.regions = regions ++ [noRegion] := by
  rw [Target.regions, h, regionTable, List.takeWhile_append_of_pos fun r hr =>
    decide_eq_true (hregions r hr)]
  congr 1
  rw [List.takeWhile_cons_of_pos (by decide)]
  cases nflash - 1 - regions.length with
  | zero => rfl
  | succ n => rfl

/-- It finds the first region that contains a physical address. -/
theorem Target.HasRegions.findRegion (h : t.HasRegions regions) (hregions : ∀ r ∈ regions, r.last ≠ 0)
    (addr : Word) : t.findRegion (physical addr) = regions.find? fun r => r.Contains (physical addr) := by
  have hphys : ¬ noRegion.Contains (physical addr) := by
    have hlt : (physical addr).toNat < 0x80000000 := physical_lt addr
    rintro ⟨hle, -⟩
    have hle' : 0xFFFFFFFF ≤ (physical addr).toNat := hle
    omega
  rw [Target.findRegion, h.regions_eq hregions, List.find?_append]
  change (regions.find? fun r => r.Contains (physical addr)).or _ = _
  have hnone : [noRegion].find? (fun r => decide (r.base ≤ physical addr ∧ physical addr ≤ r.last)) =
      none := List.find?_eq_none.mpr fun r hr => by
    rw [List.mem_singleton.mp hr]
    exact fun hin => hphys (of_decide_eq_true hin)
  rw [hnone, Option.or_none]

/-- The search goes on over regions that do not contain `prev`. -/
theorem nextRegion_append {prev last : Word} {pre tail : List FlashRegion} {r : FlashRegion}
    (hlast : ∀ q ∈ pre ++ [r], q.last ≠ noRegion.last) (hpre : ∀ q ∈ pre, ¬ q.Contains prev) :
    nextRegion prev last (pre ++ r :: tail) = nextRegion prev last (r :: tail) := by
  induction pre with
  | nil => rfl
  | cons p pre ih =>
    have hrest := ih (fun q hq => hlast q (List.mem_cons_of_mem p hq)) fun q hq =>
      hpre q (List.mem_cons_of_mem p hq)
    have hskip := hpre p List.mem_cons_self
    cases pre with
    | nil => rw [List.cons_append, List.nil_append, nextRegion, if_neg (hlast r (by simp)), if_neg hskip]
    | cons p' pre =>
      rw [← hrest, List.cons_append, List.cons_append, nextRegion, if_neg (hlast p' (by simp)), if_neg hskip]

/-- The search behind a region that contains `prev`, where none before it does. -/
theorem nextRegion_found {prev last : Word} {pre post tail : List FlashRegion} {r r' : FlashRegion}
    (hlast : ∀ q ∈ pre ++ r :: r' :: post, q.last ≠ noRegion.last) (hpre : ∀ q ∈ pre, ¬ q.Contains prev)
    (hr : r.Contains prev) :
    nextRegion prev last ((pre ++ r :: r' :: post) ++ tail) = (r'.base, r'.last) := by
  have hbefore : ∀ q ∈ pre ++ [r], q.last ≠ noRegion.last := by
    intro q hq
    rcases List.mem_append.mp hq with hmem | hmem
    · exact hlast q (List.mem_append_left _ hmem)
    · rw [List.mem_singleton.mp hmem]
      exact hlast r (by simp)
  have hnext : r'.last ≠ noRegion.last := hlast r' (by simp)
  rw [List.append_assoc, List.cons_append, nextRegion_append hbefore hpre, List.cons_append, nextRegion,
    if_neg hnext, if_pos hr]

/-- The search where no region before the last one contains `prev`. -/
theorem nextRegion_none {prev last : Word} {pre tail : List FlashRegion} {r : FlashRegion}
    (hlast : ∀ q ∈ pre ++ [r], q.last ≠ noRegion.last) (hpre : ∀ q ∈ pre, ¬ q.Contains prev)
    (htail : tail.head?.all fun q => q.last = noRegion.last) :
    nextRegion prev last ((pre ++ [r]) ++ tail) = (noRegion.base, last) := by
  rw [List.append_assoc, List.singleton_append, nextRegion_append hlast hpre]
  cases tail with
  | nil => rfl
  | cons q tail =>
    have hend : q.last = noRegion.last := of_decide_eq_true htail
    rw [nextRegion, if_pos hend]

/-- What the search looks at, for a table with these regions. -/
theorem Target.HasRegions.take_flash (h : t.HasRegions regions) : ∃ tail : List FlashRegion,
    t.flash.toList.take (nflash - 1) = regions ++ tail ∧
      tail.head?.all fun q => q.last = noRegion.last := by
  have hlen := h.length_le
  rw [h, regionTable, List.take_append, List.take_of_length_le hlen]
  refine ⟨_, rfl, ?_⟩
  cases nflash - 1 - regions.length with
  | zero => rfl
  | succ n => rfl

/-- Behind a section the next one is looked for. -/
theorem flashNext_of_ne {prev last : Word} (h : prev ≠ noRegion.base) :
    t.flashNext prev last = nextRegion prev last (t.flash.toList.take (nflash - 1)) :=
  if_neg fun hand => h hand.1

/-- The first section is the first one that was configured. -/
theorem Target.HasRegions.firstRegion (h : t.HasRegions (r :: regions)) : t.firstRegion = r := by
  have hget := h.get_flash (Fin.castSucc ⟨0, nflash_pos⟩)
  exact Option.some.inj hget

/-- A region of which the base is not the end mark. -/
theorem FlashRegion.base_ne (hle : r.base ≤ r.last) (hlast : r.last < 0xFFFFFFFF) :
    r.base ≠ noRegion.base ∧ r.last ≠ noRegion.last :=
  ⟨BitVec.ne_of_lt (show r.base.toNat < 0xFFFFFFFF from lt_of_le_of_lt hle hlast), BitVec.ne_of_lt hlast⟩

/-- What comes of a search does not depend on `*last`, and its region neither. -/
theorem nextRegion_congr {prev last : Word} (last' : Word) (l : List FlashRegion) :
    nextRegion prev last' l = nextRegion prev last l ∨
      (nextRegion prev last' l).1 = noRegion.base ∧ (nextRegion prev last l).1 = noRegion.base := by
  induction l with
  | nil => exact .inr ⟨rfl, rfl⟩
  | cons r l ih =>
    cases l with
    | nil => exact .inr ⟨rfl, rfl⟩
    | cons r' l =>
      rw [nextRegion, nextRegion]
      split
      · exact .inr ⟨rfl, rfl⟩
      split
      · exact .inl rfl
      · exact ih

/-- The end that is asked for decides no more than whether there is a section. -/
theorem flashNext_congr {prev last : Word} (last' : Word) :
    t.flashNext prev last' = t.flashNext prev last ∨
      (t.flashNext prev last').1 = noRegion.base ∧ (t.flashNext prev last).1 = noRegion.base := by
  unfold Target.flashNext
  split
  · exact .inl rfl
  · exact nextRegion_congr last' _

/-- From one address there is one walk. -/
theorem Walks.unique {prev last last' : Word} {rs rs' : List FlashRegion} (h : Walks t prev last rs)
    (h' : Walks t prev last' rs') : rs = rs' := by
  induction h generalizing last' rs' with
  | done isEnd =>
    cases h' with
    | done => rfl
    | visit isNext isRegion =>
      exfalso
      rcases flashNext_congr (t := t) last' with heq | ⟨hend, -⟩
      · rw [heq] at isNext
        rw [isNext] at isEnd
        exact isRegion isEnd
      · rw [isNext] at hend
        exact isRegion hend
  | @visit prev last r regions isNext isRegion rest ih =>
    rcases flashNext_congr (t := t) last' with heq | ⟨hend, hend'⟩
    · cases h' with
      | done isEnd =>
        rw [heq, isNext] at isEnd
        exact absurd isEnd isRegion
      | @visit _ _ r' regions' isNext' isRegion' rest' =>
        rw [heq, isNext] at isNext'
        have hregion : r = r' := FlashRegion.ext (Prod.mk.inj isNext').1 (Prod.mk.inj isNext').2
        rw [← hregion] at rest' ⊢
        rw [ih rest']
    · rw [isNext] at hend'
      exact absurd hend' isRegion

/-- A walk goes on from each of its regions. -/
theorem Walks.rest {prev last : Word} {pre post : List FlashRegion}
    (h : Walks t prev last (pre ++ r :: post)) : Walks t r.base r.last post := by
  induction pre generalizing prev last with
  | nil =>
    cases h with
    | visit _ _ rest => exact rest
  | cons p pre ih =>
    cases h with
    | visit _ _ rest => exact ih rest

/-- Every region is where the search for its base ends, or before it there is one with that base. -/
theorem Target.HasRegions.flashNext_base {pre : List FlashRegion} (h : t.HasRegions (pre ++ r :: regions))
    (hregions : ∀ q ∈ pre ++ r :: regions, q.base ≤ q.last ∧ q.last < 0xFFFFFFFF)
    (hpre : ∀ q ∈ pre, ¬ q.Contains r.base) (last : Word) :
    t.flashNext r.base last = match regions with
      | [] => (noRegion.base, last)
      | r' :: _ => (r'.base, r'.last) := by
  have hlast : ∀ q ∈ pre ++ r :: regions, q.last ≠ noRegion.last := fun q hq =>
    (FlashRegion.base_ne (hregions q hq).1 (hregions q hq).2).2
  have hr := hregions r (List.mem_append_right _ List.mem_cons_self)
  obtain ⟨tail, htake, htail⟩ := h.take_flash
  rw [flashNext_of_ne (FlashRegion.base_ne hr.1 hr.2).1, htake]
  cases regions with
  | nil => exact nextRegion_none hlast hpre htail
  | cons r' regions => exact nextRegion_found hlast hpre ⟨BitVec.le_refl _, hr.1⟩

/-- Regions are walked through in their order if no base is in an earlier region. -/
theorem Target.HasRegions.walks_from {pre : List FlashRegion} (h : t.HasRegions (pre ++ r :: regions))
    (hregions : ∀ q ∈ pre ++ r :: regions, q.base ≤ q.last ∧ q.last < 0xFFFFFFFF)
    (hapart : (pre ++ r :: regions).Pairwise fun q q' => ¬ q.Contains q'.base) (last : Word) :
    Walks t r.base last regions := by
  have hpre : ∀ q ∈ pre, ¬ q.Contains r.base := fun q hq =>
    (List.pairwise_append.mp hapart).2.2 q hq r List.mem_cons_self
  induction regions generalizing pre r last with
  | nil => exact .done (by rw [h.flashNext_base hregions hpre])
  | cons r' regions ih =>
    have hr' := hregions r' (by simp)
    have hnext := h.flashNext_base hregions hpre last
    rw [show pre ++ r :: r' :: regions = (pre ++ [r]) ++ r' :: regions by simp] at h hregions hapart
    exact .visit hnext (FlashRegion.base_ne hr'.1 hr'.2).1 (ih h hregions hapart _ fun q hq =>
      (List.pairwise_append.mp hapart).2.2 q hq r' List.mem_cons_self)

/-- A search from the end mark comes to the first region. -/
theorem Target.HasRegions.flashNext_start (h : t.HasRegions (r :: regions)) (hr : r.base ≠ noRegion.base)
    (last : Word) : t.flashNext noRegion.base last = (r.base, r.last) := by
  rw [Target.flashNext, h.firstRegion, if_pos ⟨rfl, hr⟩]

/-- A walk over the regions in their order: no base is in an earlier region. -/
theorem Target.HasRegions.apart_of_walks (h : t.HasRegions regions)
    (hregions : ∀ q ∈ regions, q.base ≤ q.last ∧ q.last < 0xFFFFFFFF) {last : Word}
    (hwalks : Walks t noRegion.base last regions) :
    regions.Pairwise fun q q' => ¬ q.Contains q'.base := by
  suffices hprefix : ∀ pre r post, regions = pre ++ r :: post → ∀ q ∈ pre, ¬ q.Contains r.base by
    clear h hregions hwalks
    induction regions using List.reverseRecOn with
    | nil => exact .nil
    | append_singleton pre r ih =>
      refine List.pairwise_append.mpr ⟨ih fun pre' r' post hpre => ?_, List.pairwise_singleton _ _,
        fun q hq r' hr' => ?_⟩
      · exact hprefix pre' r' (post ++ [r]) (by rw [hpre, List.append_assoc, List.cons_append])
      · rw [List.mem_singleton.mp hr']
        exact hprefix pre r [] rfl q hq
  intro pre r post hsplit q hq hin
  -- the first region with the base is taken for its own, and the walk goes on behind it
  have hsome : (pre.find? fun q => decide (q.Contains r.base)).isSome :=
    List.find?_isSome.mpr ⟨q, hq, decide_eq_true hin⟩
  obtain ⟨p, hp⟩ := Option.isSome_iff_exists.mp hsome
  obtain ⟨hcontains, before, after, hpre, hnone⟩ := List.find?_eq_some_iff_append.mp hp
  obtain ⟨r', rest, hbehind⟩ : ∃ r' rest, after ++ r :: post = r' :: rest := by
    cases after with
    | nil => exact ⟨r, post, rfl⟩
    | cons r' after => exact ⟨r', after ++ r :: post, rfl⟩
  have hall : regions = before ++ p :: r' :: rest := by
    rw [hsplit, hpre, List.append_assoc, List.cons_append, hbehind]
  have hfirst := (hall ▸ hwalks).rest
  have hwalk := (hsplit ▸ hwalks).rest
  have hne : r'.base ≠ noRegion.base := by
    have hr' := hregions r' (by rw [hall]; simp)
    exact (FlashRegion.base_ne hr'.1 hr'.2).1
  have hr := hregions r (by rw [hsplit]; simp)
  have hnext : t.flashNext r.base last = (r'.base, r'.last) := by
    obtain ⟨tail, htake, -⟩ := h.take_flash
    rw [flashNext_of_ne (FlashRegion.base_ne hr.1 hr.2).1, htake, hall]
    refine nextRegion_found (fun q hq => ?_) (fun q hq hqin => ?_) (of_decide_eq_true hcontains)
    · have hq' := hregions q (hall ▸ hq)
      exact (FlashRegion.base_ne hq'.1 hq'.2).2
    · have hnot := hnone q hq
      rw [decide_eq_true hqin] at hnot
      cases hnot
  cases hfirst with
  | visit _ _ hrest =>
    have hlen := congrArg List.length ((Walks.visit hnext hne hrest).unique hwalk)
    rw [← hbehind, List.length_append, List.length_cons] at hlen
    omega

/-- An empty table is not at its end: the zeros behind the end mark are taken for a region. -/
theorem Target.HasRegions.flashNext_empty (h : t.HasRegions []) (last : Word) :
    t.flashNext noRegion.base last = (0, 0) := by
  have hfirst : t.firstRegion = noRegion := Option.some.inj (h.get_flash (Fin.castSucc ⟨0, nflash_pos⟩))
  rw [Target.flashNext, hfirst, if_neg fun hand => hand.2 rfl, h]
  rfl

/-- The walk through a table that is not empty. -/
theorem Target.HasRegions.walks_iff (h : t.HasRegions regions)
    (hregions : ∀ q ∈ regions, q.base ≤ q.last ∧ q.last < 0xFFFFFFFF) (last : Word) :
    Walks t noRegion.base last regions ↔
      regions ≠ [] ∧ regions.Pairwise fun q q' => ¬ q.Contains q'.base := by
  constructor
  · intro hwalks
    refine ⟨?_, h.apart_of_walks hregions hwalks⟩
    rintro rfl
    cases hwalks with
    | done isEnd =>
      rw [h.flashNext_empty] at isEnd
      exact absurd isEnd (by decide)
  · rintro ⟨hne, hapart⟩
    obtain ⟨r, rest, rfl⟩ := List.exists_cons_of_ne_nil hne
    have hr := hregions r List.mem_cons_self
    have hbase := (FlashRegion.base_ne hr.1 hr.2).1
    have htable : t.HasRegions ([] ++ r :: rest) := h
    exact .visit (h.flashNext_start hbase last) hbase (htable.walks_from hregions hapart _)

end Mcprog
