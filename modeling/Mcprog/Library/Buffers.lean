import Mathlib.Tactic

/-!
# Arrays that record their stores

An array together with whatever lies behind it, and the indices of the stores into it. A
store changes one cell, so that what lies elsewhere is known to stay.
-/

namespace Cells

variable {α : Type}

/-- The cells of an array, and the indices of the stores into it, the last one first. -/
structure Buffer (α : Type) where
  get : Nat → α
  stored : List Nat

namespace Buffer

variable (b : Buffer α) (i j : Nat) (x : α)

/-- Store a cell. -/
def set : Buffer α := ⟨Function.update b.get i x, i :: b.stored⟩

/-- Store consecutive cells. -/
def setAll (b : Buffer α) (i : Nat) : List α → Buffer α
  | [] => b
  | x :: xs => (b.set i x).setAll (i + 1) xs

/-- What was stored is there. -/
@[simp] theorem get_set_self : (b.set i x).get i = x := by
  simp only [set, Function.update_self]

/-- The other places keep what they hold. -/
theorem get_set_of_ne {i j : Nat} (h : j ≠ i) : (b.set i x).get j = b.get j := by
  simp only [set, Function.update_of_ne h]

/-- The cells before the one that is stored stay. -/
theorem get_set_of_lt {i j : Nat} (h : j < i) : (b.set i x).get j = b.get j :=
  b.get_set_of_ne x h.ne

/-- A buffer that starts with some cells starts with one more when that is stored behind them. -/
theorem get_set_concat {xs : List α} (h : ∀ k y, xs[k]? = some y → b.get k = y) {k : Nat} {y : α}
    (hk : (xs ++ [x])[k]? = some y) : (b.set xs.length x).get k = y := by
  have hlt := (List.getElem?_eq_some_iff.mp hk).1
  rw [List.length_append, List.length_singleton] at hlt
  by_cases hlast : k = xs.length
  · rw [hlast, List.getElem?_concat_length] at hk
    rw [hlast, get_set_self]
    exact Option.some.inj hk
  · have hbefore : k < xs.length := by omega
    rw [List.getElem?_append_left hbefore] at hk
    rw [get_set_of_lt _ _ hbefore]
    exact h k y hk

/-- Consecutive cells are stored in two parts. -/
theorem setAll_append (xs ys : List α) :
    (b.setAll i xs).setAll (i + xs.length) ys = b.setAll i (xs ++ ys) := by
  induction xs generalizing b i with
  | nil => rfl
  | cons x xs ih =>
    have hnext : i + (x :: xs).length = i + 1 + xs.length := by
      rw [List.length_cons]
      omega
    rw [hnext]
    exact ih (b.set i x) (i + 1)

/-- The cells before those that are stored stay. -/
theorem get_setAll_of_lt {i j : Nat} (h : j < i) (xs : List α) : (b.setAll i xs).get j = b.get j := by
  induction xs generalizing b i with
  | nil => rfl
  | cons x xs ih => exact (ih (b.set i x) (by omega)).trans (b.get_set_of_lt x h)

/-- The cells behind those that are stored stay. -/
theorem get_setAll_of_ge {i j : Nat} {xs : List α} (h : i + xs.length ≤ j) :
    (b.setAll i xs).get j = b.get j := by
  induction xs generalizing b i with
  | nil => rfl
  | cons x xs ih =>
    rw [List.length_cons] at h
    exact (ih (b.set i x) (by omega)).trans (b.get_set_of_ne x (by omega))

/-- The cells that are stored hold what was stored. -/
theorem get_setAll {xs : List α} {k : Nat} (h : xs[k]? = some x) :
    (b.setAll i xs).get (i + k) = x := by
  induction xs generalizing b i k with
  | nil => simp at h
  | cons y xs ih =>
    cases k with
    | zero =>
      rw [List.getElem?_cons_zero] at h
      obtain rfl := Option.some.inj h
      exact ((b.set i y).get_setAll_of_lt (Nat.lt_succ_self i) xs).trans (b.get_set_self i y)
    | succ k =>
      rw [List.getElem?_cons_succ] at h
      rw [← Nat.add_assoc, Nat.add_right_comm]
      exact ih (b.set i y) (i + 1) h

/-- Only the cells that are stored are stored into. -/
theorem mem_stored_setAll {xs : List α} {j : Nat} :
    j ∈ (b.setAll i xs).stored ↔ j ∈ b.stored ∨ (i ≤ j ∧ j < i + xs.length) := by
  induction xs generalizing b i with
  | nil =>
    rw [List.length_nil]
    exact ⟨.inl, fun h => h.resolve_right (by omega)⟩
  | cons x xs ih =>
    have hset : j ∈ (b.set i x).stored ↔ j = i ∨ j ∈ b.stored := List.mem_cons
    rw [setAll, ih, hset, List.length_cons, or_assoc, or_left_comm]
    refine or_congr_right ?_
    omega

/-- The cells from `start` on. -/
def slice (start n : Nat) : List α := (List.range n).map fun k => b.get (start + k)

theorem slice_succ (start n : Nat) : b.slice start (n + 1) = b.slice start n ++ [b.get (start + n)] := by
  rw [slice, List.range_succ, List.map_append]
  rfl

theorem slice_add (start m n : Nat) : b.slice start (m + n) = b.slice start m ++ b.slice (start + m) n := by
  rw [slice, List.range_add, List.map_append, List.map_map]
  refine congrArg (b.slice start m ++ ·) (List.map_congr_left fun k _ => ?_)
  exact congrArg b.get (Nat.add_assoc start m k).symm

/-- The first element, and those behind it. -/
theorem slice_succ' (start n : Nat) : b.slice start (n + 1) = b.get start :: b.slice (start + 1) n := by
  rw [Nat.add_comm n 1, slice_add]
  rfl

/-- A slice depends on its own cells only. -/
theorem slice_congr {b b' : Buffer α} {start n : Nat}
    (h : ∀ j, start ≤ j → j < start + n → b'.get j = b.get j) : b'.slice start n = b.slice start n :=
  List.map_congr_left fun k hk =>
    h (start + k) (Nat.le_add_right start k) (Nat.add_lt_add_left (List.mem_range.mp hk) start)

/-- A store behind a slice leaves it alone. -/
theorem slice_set_of_le {start n i : Nat} (h : start + n ≤ i) :
    (b.set i x).slice start n = b.slice start n :=
  slice_congr fun _ _ hj => b.get_set_of_lt x (by omega)

/-- The cells that are stored, as a slice. -/
theorem slice_setAll (xs : List α) : (b.setAll i xs).slice i xs.length = xs := by
  refine List.ext_getElem? fun k => ?_
  rw [slice, List.getElem?_map]
  rcases lt_or_ge k xs.length with hk | hk
  · rw [List.getElem?_range hk, Option.map_some, List.getElem?_eq_getElem hk]
    exact congrArg some (b.get_setAll i _ (List.getElem?_eq_getElem hk))
  · rw [List.getElem?_eq_none (by rwa [List.length_range]), List.getElem?_eq_none hk]
    rfl

/-- What is in the cells is replaced. -/
def map {β : Type} (f : α → β) (b : Buffer α) : Buffer β := ⟨f ∘ b.get, b.stored⟩

/-- Elements are stored after they are translated. -/
theorem map_setAll {β : Type} (f : α → β) (xs : List α) :
    (b.setAll i xs).map f = (b.map f).setAll i (xs.map f) := by
  induction xs generalizing b i with
  | nil => rfl
  | cons x xs ih =>
    refine (ih (b.set i x) (i + 1)).trans ?_
    have hset : (b.set i x).map f = (b.map f).set i (f x) :=
      congrArg (fun g => Buffer.mk g (i :: b.stored)) (Function.comp_update f b.get i x)
    rw [hset]
    rfl

end Buffer

end Cells
