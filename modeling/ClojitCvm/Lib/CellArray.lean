import Mathlib.Data.List.Basic
import Mathlib.Data.List.ReduceOption
import Mathlib.Tactic.Common

/-!
# Arrays of memory cells

A block obtained from an allocator is a fixed number of cells that hold nothing
until they are written.  This module is about such blocks at an arbitrary cell
type: loads and stores that fail outside the block, copies from one block to
another, and the relation that a block starts with a given list.

It also contains the list operation behind a growable array, assignment with
padding.

Main results:

- Theorems {lit}`Holds.store_append`, {lit}`Holds.store_set` and {lit}`Holds.copy`:
  the array operations act on the held list as append, update and identity.
- Theorem {lit}`getElem?_assign`: the contents after a padded assignment.
-/

namespace CellArray

variable {α : Type*}

/-- A block of cells; {lean}`none` is a cell that was never written. -/
abbrev Cells (α : Type*) := List (Option α)

/-! ## Cell operations -/

/-- A fresh block of {lit}`n` unwritten cells. -/
def malloc (n : Nat) : Cells α :=
  List.replicate n none

/-- Read one cell; {lean}`none` outside the block and for an unwritten cell. -/
def load (cells : Cells α) (i : Nat) : Option α :=
  cells[i]?.join

/-- Write one cell; {lean}`none` outside the block. -/
def store (cells : Cells α) (i : Nat) (v : α) : Option (Cells α) :=
  if i < cells.length then some (cells.set i (some v)) else none

/-- Copy the first {lit}`n` cells over the first {lit}`n` of another block;
{lean}`none` when either block is shorter. -/
def copy (src dst : Cells α) (n : Nat) : Option (Cells α) :=
  if n ≤ src.length ∧ n ≤ dst.length then some (src.take n ++ dst.drop n) else none

@[simp]
theorem length_malloc (n : Nat) : (malloc n : Cells α).length = n := by
  simp [malloc]

/-! ## Blocks that hold a list -/

/-- The block starts with the given written values. -/
def Holds (cells : Cells α) (xs : List α) : Prop :=
  cells.take xs.length = xs.map some

theorem holds_nil (cells : Cells α) : Holds cells [] := by
  simp [Holds]

namespace Holds

variable {cells : Cells α} {xs : List α} {v : α} {i n : Nat}

theorem length_le (h : Holds cells xs) : xs.length ≤ cells.length := by
  have := congrArg List.length h
  simp only [List.length_take, List.length_map] at this
  omega

/-- The list is what is written in its cells. -/
theorem reduceOption_take (h : Holds cells xs) :
    (cells.take xs.length).reduceOption = xs := by
  unfold Holds at h
  rw [h, List.reduceOption, List.filterMap_map]
  exact List.filterMap_some

/-- Reading an index of the held list reads the list. -/
theorem load (h : Holds cells xs) (hi : i < xs.length) : load cells i = xs[i]? := by
  have hcell : cells[i]? = (xs.map some)[i]? := by
    rw [← h, List.getElem?_take_of_lt hi]
  simp [CellArray.load, hcell, hi]

/-- Forgetting the end of the list keeps the relation. -/
theorem take (h : Holds cells xs) (n : Nat) : Holds cells (xs.take n) := by
  unfold Holds
  rw [List.map_take, ← h, List.take_take, List.length_take]

/-- A store just behind the held list appends to it. -/
theorem store_append (h : Holds cells xs) (hlt : xs.length < cells.length) :
    ∃ cells', store cells xs.length v = some cells' ∧ cells'.length = cells.length ∧
      Holds cells' (xs ++ [v]) := by
  refine ⟨cells.set xs.length (some v), if_pos hlt, by simp, ?_⟩
  unfold Holds at h ⊢
  have hfront : (cells.set xs.length (some v)).take xs.length = cells.take xs.length := by
    rw [List.take_set, List.set_eq_of_length_le (List.length_take_le _ _)]
  rw [List.length_append, List.length_singleton, List.take_add_one, hfront, h]
  simp [hlt]

/-- A store inside the held list updates it. -/
theorem store_set (h : Holds cells xs) (hi : i < xs.length) :
    ∃ cells', store cells i v = some cells' ∧ cells'.length = cells.length ∧
      Holds cells' (xs.set i v) := by
  have hlt : i < cells.length := Nat.lt_of_lt_of_le hi h.length_le
  refine ⟨cells.set i (some v), if_pos hlt, by simp, ?_⟩
  unfold Holds at h ⊢
  rw [List.length_set, List.take_set, h, List.map_set]

/-- Copying the held cells into a block that has room for them keeps the list. -/
theorem copy (h : Holds cells xs) (dst : Cells α) (hroom : xs.length ≤ dst.length) :
    ∃ cells', copy cells dst xs.length = some cells' ∧ cells'.length = dst.length ∧
      Holds cells' xs := by
  have hle := h.length_le
  refine ⟨cells.take xs.length ++ dst.drop xs.length, if_pos ⟨hle, hroom⟩, ?_, ?_⟩
  · simp only [List.length_append, List.length_take, List.length_drop]
    omega
  · unfold Holds at h ⊢
    rw [h]
    simp

end Holds

/-- A copy that needs more room than the target has does not happen. -/
theorem copy_eq_none_of_lt {src dst : Cells α} {n : Nat} (h : dst.length < n) :
    copy src dst n = none :=
  if_neg fun hn => by omega

/-! ## Padded assignment -/

/-- Replace element {lit}`i`, first padding the list up to it. -/
def assign (pad : α) (xs : List α) (i : Nat) (v : α) : List α :=
  (xs ++ List.replicate (i + 1 - xs.length) pad).set i v

@[simp]
theorem length_assign (pad : α) (xs : List α) (i : Nat) (v : α) :
    (assign pad xs i v).length = max xs.length (i + 1) := by
  simp only [assign, List.length_set, List.length_append, List.length_replicate]
  omega

/-- The element assigned is the value, older elements stay, and the gap is
padding. -/
theorem getElem?_assign (pad : α) (xs : List α) (i : Nat) (v : α) (j : Nat) :
    (assign pad xs i v)[j]? =
      if j = i then some v
      else if j < xs.length then xs[j]?
      else if j < i then some pad else none := by
  unfold assign
  rw [List.getElem?_set]
  by_cases hij : i = j
  · subst hij
    simp only [if_pos]
    rw [if_pos (by simp only [List.length_append, List.length_replicate]; omega)]
  · rw [if_neg hij, if_neg (Ne.symm hij), List.getElem?_append]
    split
    · rfl
    · rw [List.getElem?_replicate]
      split <;> split <;> first | rfl | omega

theorem getElem?_assign_self (pad : α) (xs : List α) (i : Nat) (v : α) :
    (assign pad xs i v)[i]? = some v := by
  rw [getElem?_assign, if_pos rfl]

/-- An element that was there and is not assigned stays. -/
theorem getElem?_assign_of_ne (pad : α) {xs : List α} {i j : Nat} (v : α) (hne : j ≠ i)
    (hj : j < xs.length) : (assign pad xs i v)[j]? = xs[j]? := by
  rw [getElem?_assign, if_neg hne, if_pos hj]

/-- The elements behind the one that is assigned stay. -/
theorem getElem?_assign_of_lt (pad : α) (xs : List α) {i j : Nat} (v : α) (h : i < j) :
    (assign pad xs i v)[j]? = xs[j]? := by
  rw [getElem?_assign, if_neg (by omega)]
  split
  · rfl
  · rw [if_neg (by omega), List.getElem?_eq_none (by omega)]

/-- An element behind an assignment is the value, an old element or padding. -/
theorem mem_of_mem_assign {pad : α} {xs : List α} {i : Nat} {v x : α} (h : x ∈ assign pad xs i v) :
    x = v ∨ x ∈ xs ∨ x = pad := by
  rcases List.mem_iff_getElem?.mp h with ⟨j, hj⟩
  rw [getElem?_assign] at hj
  split at hj
  · exact .inl (Option.some.inj hj).symm
  · split at hj
    · exact .inr (.inl (List.mem_of_getElem? hj))
    · split at hj
      · exact .inr (.inr (Option.some.inj hj).symm)
      · cases hj

/-- An assignment behind the first elements is one to the rest. -/
theorem drop_assign (pad : α) (xs : List α) (k i : Nat) (v : α) :
    (assign pad xs (k + i) v).drop k = assign pad (xs.drop k) i v := by
  refine List.ext_getElem? fun j => ?_
  simp only [List.getElem?_drop, getElem?_assign, List.length_drop, Nat.add_left_cancel_iff,
    Nat.add_lt_add_iff_left, Nat.lt_sub_iff_add_lt']

end CellArray
