import Mathlib.Tactic

/-!
# Memories of cells

A memory gives each number a cell. A list is stored over consecutive cells and leaves the
others alone; of several stores each cell keeps what the last one over it wrote.
-/

namespace Cells

variable {α : Type}

/-- The element of a list placed from a position on that lies at a cell. -/
def placed (pos : Nat) (xs : List α) (i : Nat) : Option α := if pos ≤ i then xs[i - pos]? else none

/-- Store a list from a position on. -/
def store (m : Nat → α) (pos : Nat) (xs : List α) : Nat → α := fun i =>
  (placed pos xs i).getD (m i)

variable {m : Nat → α} {pos i : Nat} {xs : List α}

/-- Nothing lies before the position. -/
theorem placed_of_lt (h : i < pos) : placed pos xs i = none := if_neg (not_le.mpr h)

/-- Nothing lies after the list. -/
theorem placed_of_ge (h : pos + xs.length ≤ i) : placed pos xs i = none := by
  unfold placed
  split
  · exact List.getElem?_eq_none (by omega)
  · rfl

/-- A cell that a list covers, counted from its start. -/
theorem placed_of_le (h : pos ≤ i) : placed pos xs i = xs[i - pos]? := if_pos h

/-- Only the distance from the position counts. -/
theorem placed_add (start pos i : Nat) (xs : List α) :
    placed (start + pos) xs (start + i) = placed pos xs i := by
  unfold placed
  simp only [Nat.add_sub_add_left, Nat.add_le_add_iff_left]

/-- A store leaves the cells alone at which its list does not lie. -/
theorem store_of_none (h : placed pos xs i = none) : store m pos xs i = m i := by
  rw [store, h]
  rfl

/-- What was stored is found where it was stored. -/
theorem map_store (m : Nat → α) (pos : Nat) (xs : List α) :
    (List.range xs.length).map (fun i => store m pos xs (pos + i)) = xs := by
  apply List.ext_getElem?
  intro i
  rcases Nat.lt_or_ge i xs.length with hi | hi
  · rw [List.getElem?_map, List.getElem?_range hi, Option.map_some, store,
      placed_of_le (Nat.le_add_right _ _), Nat.add_sub_cancel_left, List.getElem?_eq_getElem hi]
    rfl
  · rw [List.getElem?_eq_none (by simpa using hi), List.getElem?_eq_none hi]

/-- A store cell by cell. -/
theorem store_cons (m : Nat → α) (pos : Nat) (x : α) (xs : List α) :
    store m pos (x :: xs) = store (store m pos [x]) (pos + 1) xs := by
  funext i
  unfold store
  by_cases hlt : i < pos
  · rw [placed_of_lt hlt, placed_of_lt hlt, placed_of_lt (Nat.lt_succ_of_lt hlt)]
    rfl
  · by_cases heq : i = pos
    · rw [heq, placed_of_le (le_refl _), placed_of_lt (Nat.lt_succ_self _),
        placed_of_le (le_refl _), Nat.sub_self]
      rfl
    · have hnext : i - pos = i - (pos + 1) + 1 := by omega
      have hsingle : placed pos [x] i = none :=
        placed_of_ge (by rw [List.length_singleton]; omega)
      rw [hsingle, placed_of_le (by omega), placed_of_le (by omega), hnext,
        List.getElem?_cons_succ]
      rfl

theorem store_nil (m : Nat → α) (pos : Nat) : store m pos [] = m := by
  funext i
  apply store_of_none
  unfold placed
  split <;> rfl

/-- A list that is stored in two parts, the one behind the other. -/
theorem store_append (m : Nat → α) (pos : Nat) (xs ys : List α) :
    store (store m pos xs) (pos + xs.length) ys = store m pos (xs ++ ys) := by
  induction xs generalizing m pos with
  | nil => rw [store_nil, List.length_nil, Nat.add_zero, List.nil_append]
  | cons x xs ih =>
    rw [List.cons_append, store_cons m pos x xs, store_cons m pos x (xs ++ ys), ← ih, List.length_cons,
      Nat.add_comm xs.length, Nat.add_assoc]

/-- A store covers a cell. -/
def Covers (w : Nat × List α) (i : Nat) : Prop := w.1 ≤ i ∧ i < w.1 + w.2.length

instance (w : Nat × List α) (i : Nat) : Decidable (Covers w i) := instDecidableAnd

/-- Nothing lies at a cell that is not covered. -/
theorem placed_of_not_covers {w : Nat × List α} (h : ¬ Covers w i) : placed w.1 w.2 i = none := by
  by_cases hlt : i < w.1
  · exact placed_of_lt hlt
  · exact placed_of_ge (not_lt.mp fun hlt' => h ⟨not_lt.mp hlt, hlt'⟩)

/-- Stores one after the other. -/
def storeAll (m : Nat → α) (ws : List (Nat × List α)) : Nat → α :=
  ws.foldl (fun m w => store m w.1 w.2) m

@[simp] theorem storeAll_cons (w : Nat × List α) (ws : List (Nat × List α)) :
    storeAll m (w :: ws) = storeAll (store m w.1 w.2) ws := rfl

theorem storeAll_append (ws ws' : List (Nat × List α)) :
    storeAll m (ws ++ ws') = storeAll (storeAll m ws) ws' := List.foldl_append

/-- A cell that no store covers keeps its value. -/
theorem storeAll_of_not_covers {ws : List (Nat × List α)} (h : ∀ w ∈ ws, ¬ Covers w i) :
    storeAll m ws i = m i := by
  induction ws generalizing m with
  | nil => rfl
  | cons w ws ih =>
    have hw : ¬ Covers w i := h w List.mem_cons_self
    rw [storeAll_cons, ih fun w' hw' => h w' (List.mem_cons_of_mem _ hw'),
      store_of_none (placed_of_not_covers hw)]

/-- A cell holds what the last store over it wrote. -/
theorem storeAll_of_last {ws ws' : List (Nat × List α)} {w : Nat × List α}
    (hcover : Covers w i) (hlast : ∀ w' ∈ ws', ¬ Covers w' i) :
    some (storeAll m (ws ++ w :: ws') i) = w.2[i - w.1]? := by
  obtain ⟨hle, hlt⟩ := hcover
  rw [storeAll_append, storeAll_cons, storeAll_of_not_covers hlast, store, placed_of_le hle,
    List.getElem?_eq_getElem (by omega)]
  rfl

end Cells
