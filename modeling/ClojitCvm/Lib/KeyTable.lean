import Mathlib.Data.List.Basic
import Mathlib.Tactic.Common

/-!
# Tables of keys and values

A table is used through three operations: the empty table, a lookup, and an insertion that
replaces the value of a key the table has.  How a table is laid out does not matter as long
as the laws of the operations hold.

Main results:

- Structure {lit}`TableOps.Lawful`: the laws of a table.
- Theorem {lit}`TableOps.Lawful.lookup_insertAll`: after any insertions a lookup gives the
  last value of its key, in every lawful table.
- Theorem {lit}`assocOps_lawful`: an association list is such a table.
-/

namespace KeyTable

variable {τ κ ν : Type*}

/-! ## Operations and laws -/

/-- The operations of a table. -/
structure TableOps (τ κ ν : Type*) where
  empty : τ
  lookup : τ → κ → Option ν
  insert : τ → κ → ν → τ

/-- What can be relied on. -/
structure TableOps.Lawful (ops : TableOps τ κ ν) : Prop where
  lookup_empty : ∀ key, ops.lookup ops.empty key = none
  lookup_insert_self : ∀ table key value,
    ops.lookup (ops.insert table key value) key = some value
  lookup_insert_of_ne : ∀ table key name value, key ≠ name →
    ops.lookup (ops.insert table name value) key = ops.lookup table key

/-- The table with all these pairs inserted, the last one of the list first. -/
def TableOps.insertAll (ops : TableOps τ κ ν) (pairs : List (κ × ν)) : τ :=
  pairs.foldr (fun pair table => ops.insert table pair.1 pair.2) ops.empty

/-- Whatever the table, a lookup gives the value that was inserted last. -/
theorem TableOps.Lawful.lookup_insertAll [BEq κ] [LawfulBEq κ] {ops : TableOps τ κ ν}
    (h : ops.Lawful) (pairs : List (κ × ν)) (key : κ) :
    ops.lookup (ops.insertAll pairs) key = pairs.lookup key := by
  induction pairs with
  | nil => exact h.lookup_empty key
  | cons pair pairs ih =>
      rcases pair with ⟨name, value⟩
      change ops.lookup (ops.insert (ops.insertAll pairs) name value) key = _
      by_cases hkey : key = name
      · subst hkey
        rw [h.lookup_insert_self, List.lookup_cons_self]
      · have hbeq : (key == name) = false := by simpa using hkey
        rw [h.lookup_insert_of_ne _ _ _ _ hkey, ih, List.lookup_cons, hbeq]

/-! ## Association lists -/

/-- The table as a list of pairs that has every key at most once. -/
def assocOps [BEq κ] [DecidableEq κ] : TableOps (List (κ × ν)) κ ν where
  empty := []
  lookup table key := table.lookup key
  insert table key value := (key, value) :: table.filter fun pair => pair.1 ≠ key

theorem assocOps_lawful [BEq κ] [LawfulBEq κ] [DecidableEq κ] :
    (assocOps : TableOps (List (κ × ν)) κ ν).Lawful where
  lookup_empty _ := rfl
  lookup_insert_self _ _ _ := List.lookup_cons_self
  lookup_insert_of_ne table key name value hne := by
    have hbeq : (key == name) = false := by simpa using hne
    change List.lookup key ((name, value) :: table.filter _) = table.lookup key
    rw [List.lookup_cons, hbeq]
    induction table with
    | nil => rfl
    | cons pair table ih =>
        rw [List.filter_cons]
        by_cases hpair : pair.1 = name
        · have hskip : (key == pair.1) = false := by simpa [hpair] using hne
          rw [if_neg (by simpa using hpair), List.lookup_cons, hskip]
          exact ih
        · rw [if_pos (by simpa using hpair), List.lookup_cons, List.lookup_cons]
          cases key == pair.1
          · exact ih
          · rfl

/-- An insertion keeps the keys apart. -/
theorem nodup_assoc_insert [BEq κ] [DecidableEq κ] {table : List (κ × ν)}
    (h : (table.map Prod.fst).Nodup) (key : κ) (value : ν) :
    ((assocOps.insert table key value).map Prod.fst).Nodup := by
  change (((key, value) :: table.filter fun pair => pair.1 ≠ key).map Prod.fst).Nodup
  rw [List.map_cons, List.nodup_cons]
  constructor
  · intro hmem
    rcases List.mem_map.mp hmem with ⟨pair, hpair, rfl⟩
    simpa using (List.mem_filter.mp hpair).2
  · exact h.sublist (List.filter_sublist.map Prod.fst)

end KeyTable
