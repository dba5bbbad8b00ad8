import ClojitCvm.Lib.ChainedHash
import Mathlib.Algebra.BigOperators.Group.Finset.Piecewise
import Mathlib.Algebra.Order.BigOperators.Group.Finset
import Mathlib.Algebra.BigOperators.Ring.Finset
import Mathlib.Algebra.Group.Action.Defs
import Mathlib.Data.List.Perm.Basic
import Mathlib.Tactic.Ring

/-!
# Balance of chained hash tables

A table keeps two views of its items, the chains of its buckets and the order in which
they were added, and counts them in three places.  The buckets double whenever one of
them outgrows its capacity; what a doubling measures decides how much the buckets may
grow before the next one.

Main results:

- Theorem {lit}`addAll_intact`: both views hold the items added, and all counters agree
  with them.
- Theorem {lit}`addAll_fsckCounts`: the counts of a table are always right.
- Theorem {lit}`find_addAll_iff`: an item with a key of its own is found, and nothing
  else is.
- Theorem {lit}`idealChainMaxlen_expandBuckets` and
  {lit}`nonidealItems_expandBuckets`: a doubling measures the ideal chain length and the
  items behind it.
- Theorem {lit}`addAll_balanced`: until doublings are given up, no chain outgrows its
  capacity and there are at most nineteen items to a bucket.
-/

namespace ChainedHash

open Finset (range)

variable {α κ : Type*}

/-! ## Walks over buckets -/

/-- An item more in one bucket is an item more in the walk. -/
theorem flatMap_update_perm (f : Nat → List α) {i n : Nat} (hi : i < n) (x : α) :
    ((List.range n).flatMap (Function.update f i (x :: f i))).Perm
      (x :: (List.range n).flatMap f) := by
  induction n with
  | zero => exact absurd hi (Nat.not_lt_zero i)
  | succ n ih =>
      rw [List.range_succ, List.flatMap_append, List.flatMap_append, List.flatMap_singleton,
        List.flatMap_singleton]
      rcases Nat.lt_succ_iff_lt_or_eq.mp hi with hlt | rfl
      · rw [Function.update_of_ne (by omega)]
        exact (ih hlt).append_right _
      · have hbelow : (List.range i).flatMap (Function.update f i (x :: f i)) =
            (List.range i).flatMap f := by
          apply List.flatMap_congr
          intro j hj
          rw [Function.update_of_ne (Nat.ne_of_lt (List.mem_range.mp hj))]
        rw [hbelow, Function.update_self]
        exact List.perm_middle

/-- Sorting items into buckets loses none. -/
theorem flatMap_filter_perm (g : α → Nat) {n : Nat} {xs : List α} (h : ∀ x ∈ xs, g x < n) :
    ((List.range n).flatMap fun i => xs.filter fun x => g x = i).Perm xs := by
  induction xs with
  | nil => simp
  | cons x xs ih =>
      rw [List.forall_mem_cons] at h
      have hupdate : (fun i => (x :: xs).filter fun y => g y = i) =
          Function.update (fun i => xs.filter fun y => g y = i) (g x)
            (x :: xs.filter fun y => g y = g x) := by
        funext i
        rw [Function.update_apply, List.filter_cons]
        by_cases hi : g x = i
        · subst hi
          simp
        · rw [if_neg (by simpa using hi), if_neg (Ne.symm hi)]
      rw [hupdate]
      exact (flatMap_update_perm _ h.1 x).trans ((ih h.2).cons x)

/-- The number of items a walk meets. -/
theorem length_walk (t : Table α) :
    t.walk.length = ∑ i ∈ range t.numBuckets, (t.buckets i).chain.length := by
  unfold Table.walk
  generalize t.numBuckets = n
  induction n with
  | zero => rfl
  | succ n ih =>
      rw [List.range_succ, List.flatMap_append, List.flatMap_singleton, List.length_append, ih,
        Finset.sum_range_succ]

/-! ## Counters agree with the items -/

variable (h : Hashing α κ)

/-- The chains and the list of items hold the same items, each in the bucket of its
key, and are counted correctly. -/
structure Intact (t : Table α) : Prop where
  placed : Placed h t
  numBuckets_eq : t.numBuckets = 2 ^ t.log2NumBuckets
  count_eq : ∀ i, (t.buckets i).count = (t.buckets i).chain.length
  walk_perm : t.walk.Perm t.items
  numItems_eq : t.numItems = t.items.length

namespace Intact

variable {h} {t : Table α}

/-- The counts of all buckets add up to the number of items. -/
theorem sum_count (ht : Intact h t) :
    ∑ i ∈ range t.numBuckets, (t.buckets i).count = t.numItems := by
  rw [ht.numItems_eq, ← ht.walk_perm.length_eq, length_walk]
  exact Finset.sum_congr rfl fun i _ => ht.count_eq i

end Intact

/-- A new table has no items and no counts. -/
theorem makeTable_intact : Intact h (makeTable : Table α) where
  placed := makeTable_placed h
  numBuckets_eq := rfl
  count_eq _ := rfl
  walk_perm := by
    have hwalk : (makeTable : Table α).walk = [] := by
      rw [Table.walk, List.flatMap_eq_nil_iff]
      intro i _
      rfl
    rw [hwalk]
    exact .nil
  numItems_eq := rfl

/-- Linking an item in raises the count of its bucket and the number of items by one. -/
theorem link_intact {t : Table α} (ht : Intact h t) (x : α) : Intact h (link h t x) where
  placed := link_placed h ht.placed x
  numBuckets_eq := ht.numBuckets_eq
  count_eq i := by
    simp only [link, Function.update_apply]
    split
    · rw [ht.count_eq, List.length_cons]
    · exact ht.count_eq i
  walk_perm := by
    have hchains : (fun i => ((link h t x).buckets i).chain) =
        Function.update (fun i => (t.buckets i).chain) (t.bucketOf h (h.key x))
          (x :: (t.buckets (t.bucketOf h (h.key x))).chain) := by
      funext i
      simp only [link, Function.update_apply]
      split <;> rfl
    have hbucket := toBucket_lt (h.hash (h.key x)) ht.placed.numBuckets_pos
    have hperm := flatMap_update_perm (fun i => (t.buckets i).chain) hbucket x
    change ((List.range t.numBuckets).flatMap
      fun i => ((link h t x).buckets i).chain).Perm (t.items ++ [x])
    rw [hchains]
    exact hperm.trans ((ht.walk_perm.cons x).trans (List.perm_append_singleton x t.items).symm)
  numItems_eq := by
    change t.numItems + 1 = (t.items ++ [x]).length
    rw [List.length_append, List.length_singleton, ht.numItems_eq]

/-! ## What a doubling measures -/

/-- After some items were moved: their chains are counted, a chain longer than the
ideal one has the multiple of its length, and the items behind the ideal length are
counted. -/
structure Relinked (numBuckets ideal : Nat) (acc : (Nat → Bucket α) × Nat) : Prop where
  count_eq : ∀ i, (acc.1 i).count = (acc.1 i).chain.length
  expandMult_eq : ∀ i, (acc.1 i).expandMult =
    if ideal < (acc.1 i).count then (acc.1 i).count / ideal else 0
  nonideal_eq : acc.2 = ∑ i ∈ range numBuckets, ((acc.1 i).count - ideal)

/-- A doubling starts with empty buckets and nothing measured. -/
theorem relinked_empty (numBuckets ideal : Nat) :
    Relinked numBuckets ideal ((fun _ => .empty, 0) : (Nat → Bucket α) × Nat) where
  count_eq _ := rfl
  expandMult_eq _ := by simp [Bucket.empty]
  nonideal_eq := by simp [Bucket.empty]

/-- A sum over the buckets after one of them changed. -/
theorem sum_update {n i : Nat} (hi : i < n) (buckets : Nat → Bucket α) (b : Bucket α)
    (f : Bucket α → Nat) :
    ∑ j ∈ range n, f (Function.update buckets i b j) + f (buckets i) =
      ∑ j ∈ range n, f (buckets j) + f b := by
  have hmem : i ∈ range n := Finset.mem_range.mpr hi
  rw [← Finset.sum_erase_add _ _ hmem, ← Finset.sum_erase_add (range n) _ hmem,
    Function.update_self]
  have hrest : ∑ j ∈ (range n).erase i, f (Function.update buckets i b j) =
      ∑ j ∈ (range n).erase i, f (buckets j) := by
    apply Finset.sum_congr rfl
    intro j hj
    rw [Function.update_of_ne (Finset.ne_of_mem_erase hj)]
  omega

/-- One bucket is replaced by a bucket with correct counters. -/
theorem Relinked.update {numBuckets ideal k n : Nat} {acc : (Nat → Bucket α) × Nat}
    (hacc : Relinked numBuckets ideal acc) (hk : k < numBuckets) {b : Bucket α}
    (hcount : b.count = b.chain.length)
    (hmult : b.expandMult = if ideal < b.count then b.count / ideal else 0)
    (hn : n + ((acc.1 k).count - ideal) = acc.2 + (b.count - ideal)) :
    Relinked numBuckets ideal (Function.update acc.1 k b, n) where
  count_eq i := by
    change (Function.update acc.1 k b i).count = (Function.update acc.1 k b i).chain.length
    rw [Function.update_apply]
    split
    · exact hcount
    · exact hacc.count_eq i
  expandMult_eq i := by
    change (Function.update acc.1 k b i).expandMult =
      if ideal < (Function.update acc.1 k b i).count then _ else 0
    dsimp only
    rw [Function.update_apply]
    split
    · exact hmult
    · exact hacc.expandMult_eq i
  nonideal_eq := by
    have hsum := sum_update hk acc.1 b fun b => b.count - ideal
    have hacc := hacc.nonideal_eq
    dsimp only at hsum ⊢
    omega

/-- Each item that is moved is counted in its new bucket, and above the ideal length as
well. -/
theorem relink_relinked {numBuckets ideal : Nat} (hpos : 0 < numBuckets)
    {acc : (Nat → Bucket α) × Nat} (hacc : Relinked numBuckets ideal acc) (x : α) :
    Relinked numBuckets ideal (relink h numBuckets ideal acc x) := by
  have hlt := toBucket_lt (h.hash (h.key x)) hpos
  simp only [relink]
  generalize toBucket (h.hash (h.key x)) numBuckets = k at hlt
  have hlength : (acc.1 k).count + 1 = (x :: (acc.1 k).chain).length := by
    rw [hacc.count_eq, List.length_cons]
  split
  · next hideal =>
    exact hacc.update hlt hlength (if_pos hideal).symm (by dsimp only; omega)
  · next hideal =>
    have hmult : (acc.1 k).expandMult = 0 := by
      rw [hacc.expandMult_eq, if_neg (by omega)]
    exact hacc.update hlt hlength (hmult.trans (if_neg hideal).symm) (by dsimp only; omega)

/-- Hence all items are, after the walk over them. -/
theorem foldl_relink_relinked {numBuckets ideal : Nat} (hpos : 0 < numBuckets) (xs : List α)
    {acc : (Nat → Bucket α) × Nat} (hacc : Relinked numBuckets ideal acc) :
    Relinked numBuckets ideal (xs.foldl (relink h numBuckets ideal) acc) := by
  induction xs generalizing acc with
  | nil => exact hacc
  | cons x xs ih => exact ih (relink_relinked h hpos hacc x)

/-- The moved buckets of a doubling. -/
theorem expandBuckets_relinked {t : Table α} (hpos : 0 < t.numBuckets) :
    Relinked (t.numBuckets * 2) (expandBuckets h t).idealChainMaxlen
      ((expandBuckets h t).buckets, (expandBuckets h t).nonidealItems) :=
  foldl_relink_relinked h (Nat.mul_pos hpos (by decide)) _ (relinked_empty _ _)

/-- A doubling keeps all items, and its counts are right. -/
theorem expandBuckets_intact {t : Table α} (ht : Intact h t) : Intact h (expandBuckets h t) where
  placed := expandBuckets_placed h ht.placed
  numBuckets_eq := by
    change t.numBuckets * 2 = 2 ^ (t.log2NumBuckets + 1)
    rw [ht.numBuckets_eq, pow_succ]
  count_eq := (expandBuckets_relinked h ht.placed.numBuckets_pos).count_eq
  walk_perm := by
    have hpos : 0 < t.numBuckets * 2 := Nat.mul_pos ht.placed.numBuckets_pos (by decide)
    have hsorted :
        ((List.range (t.numBuckets * 2)).flatMap fun i =>
          t.walk.filter fun x => toBucket (h.hash (h.key x)) (t.numBuckets * 2) = i).Perm t.walk :=
      flatMap_filter_perm _ fun x _ => toBucket_lt _ hpos
    refine List.Perm.trans ?_ (hsorted.trans ht.walk_perm)
    apply List.Perm.flatMap_left
    intro i _
    rw [expandBuckets_chain]
    exact List.reverse_perm _
  numItems_eq := ht.numItems_eq

/-- The shift and the mask of a doubling compute the number of items over the number
of buckets, rounded up. -/
theorem idealChainMaxlen_expandBuckets {t : Table α} (ht : Intact h t) :
    (expandBuckets h t).idealChainMaxlen = (t.numItems + t.numBuckets * 2 - 1) /
      (t.numBuckets * 2) := by
  have hpow : t.numBuckets * 2 = 2 ^ (t.log2NumBuckets + 1) := by
    rw [ht.numBuckets_eq, pow_succ]
  change t.numItems >>> (t.log2NumBuckets + 1) +
    (if t.numItems &&& (t.numBuckets * 2 - 1) ≠ 0 then 1 else 0) = _
  rw [hpow, Nat.shiftRight_eq_div_pow, Nat.and_two_pow_sub_one_eq_mod]
  have hpos : 0 < 2 ^ (t.log2NumBuckets + 1) := Nat.two_pow_pos _
  generalize 2 ^ (t.log2NumBuckets + 1) = b at hpos
  have hdiv := Nat.div_add_mod t.numItems b
  have hmod := Nat.mod_lt t.numItems hpos
  generalize t.numItems / b = q, t.numItems % b = r at hdiv hmod
  symm
  split
  · next hr =>
    rw [Nat.div_eq_iff hpos, Nat.add_mul]
    rw [Nat.mul_comm b q] at hdiv
    omega
  · next hr =>
    rw [Nat.div_eq_iff hpos, Nat.add_zero]
    rw [Nat.mul_comm b q] at hdiv
    omega

/-- A doubling counts the items whose chain position exceeds the ideal length. -/
theorem nonidealItems_expandBuckets {t : Table α} (ht : Intact h t) :
    (expandBuckets h t).nonidealItems =
      ∑ i ∈ range (expandBuckets h t).numBuckets,
        (((expandBuckets h t).buckets i).chain.length -
          (expandBuckets h t).idealChainMaxlen) := by
  have hmoved := expandBuckets_relinked h ht.placed.numBuckets_pos
  refine hmoved.nonideal_eq.trans (Finset.sum_congr rfl fun i _ => ?_)
  rw [← hmoved.count_eq i]

/-! ## Adding -/

/-- Adding an item keeps the counts right, whether the table doubles or not. -/
theorem add_intact {t : Table α} (ht : Intact h t) (x : α) : Intact h (add h t x) := by
  simp only [add]
  split
  · exact expandBuckets_intact h (link_intact h ht x)
  · exact link_intact h ht x

/-- A property of the new table that every addition keeps holds of every table. -/
theorem addAll_induction {P : Table α → Prop} (hmake : P makeTable)
    (hadd : ∀ t x, P t → P (add h t x)) (xs : List α) : P ((addAll h xs).getD makeTable) := by
  have hfoldl : ∀ head : Option (Table α), P (head.getD makeTable) →
      P ((xs.foldl (addHead h) head).getD makeTable) := by
    induction xs with
    | nil => exact fun _ h => h
    | cons x xs ih => exact fun head hhead => ih _ (hadd _ x hhead)
  exact hfoldl none hmake

/-- All counts of a table that is built by adding are right. -/
theorem addAll_intact (xs : List α) : Intact h ((addAll h xs).getD makeTable) :=
  addAll_induction h (makeTable_intact h) (fun _ x ht => add_intact h ht x) xs

/-- A table exists once an item was added. -/
theorem addAll_eq_none_iff (xs : List α) : addAll h xs = none ↔ xs = [] := by
  constructor
  · intro hnone
    have hitems := addAll_items h xs
    rw [hnone] at hitems
    exact hitems.symm
  · rintro rfl
    rfl

/-- The counting part of the consistency check {lit}`HASH_FSCK`: the chains have the
lengths their buckets count, and the items met in the chains and in the order of their
addition are as many as the table counts.  The backward pointers that the check follows as
well do not exist here, where a chain is a list. -/
def fsckCounts (t : Table α) : Bool :=
  ((List.range t.numBuckets).all fun i =>
    decide ((t.buckets i).count = (t.buckets i).chain.length)) &&
  decide (t.walk.length = t.numItems) &&
  decide (t.items.length = t.numItems)

/-- A table with right counts passes the counting part of {lit}`HASH_FSCK`. -/
theorem Intact.fsckCounts_eq {t : Table α} (ht : Intact h t) : fsckCounts t = true := by
  simp only [fsckCounts, Bool.and_eq_true, List.all_eq_true, decide_eq_true_eq]
  refine ⟨⟨fun i _ => ht.count_eq i, ?_⟩, ht.numItems_eq.symm⟩
  rw [ht.walk_perm.length_eq, ht.numItems_eq]

/-- Every table that is built by adding passes it. -/
theorem addAll_fsckCounts (xs : List α) : fsckCounts ((addAll h xs).getD makeTable) = true :=
  (addAll_intact h xs).fsckCounts_eq

section Lookup

variable [DecidableEq κ]

/-- Nothing is found exactly when no item has the key. -/
theorem find_addAll_eq_none_iff (xs : List α) (k : κ) :
    find h (addAll h xs) k = none ↔ ∀ x ∈ xs, h.key x ≠ k := by
  rw [find_addAll, List.head?_eq_none_iff, List.eq_nil_iff_forall_not_mem]
  simp only [mem_order, not_and]

/-- What is found was added with the key. -/
theorem mem_of_find_addAll {xs : List α} {k : κ} {x : α}
    (hfind : find h (addAll h xs) k = some x) : x ∈ xs ∧ h.key x = k := by
  rw [find_addAll] at hfind
  exact (mem_order h k).mp (List.mem_of_head? hfind)

/-- With a key for every item, a lookup finds an item exactly when it was added. -/
theorem find_addAll_iff {xs : List α} (hdistinct : (xs.map h.key).Nodup) (k : κ) (x : α) :
    find h (addAll h xs) k = some x ↔ x ∈ xs ∧ h.key x = k := by
  refine ⟨mem_of_find_addAll h, fun hx => ?_⟩
  cases hfind : find h (addAll h xs) k with
  | none => exact absurd hx.2 ((find_addAll_eq_none_iff h xs k).mp hfind x hx.1)
  | some y =>
      have hy := mem_of_find_addAll h hfind
      rw [List.inj_on_of_nodup_map hdistinct hx.1 hy.1 (hx.2.trans hy.2.symm)]

end Lookup

/-! ## Balance -/

/-- The items a bucket holds or may come to hold before it asks for more buckets. -/
def Bucket.room (b : Bucket α) : Nat :=
  max b.count (b.expandMult * bucketCapacityThresh + 9)

/-- No chain outgrows its capacity, and all chains together have room for nineteen
items to a bucket. -/
structure Balanced (t : Table α) : Prop where
  count_le : ∀ i, (t.buckets i).count ≤ ((t.buckets i).expandMult + 1) * bucketCapacityThresh
  sum_room_le : ∑ i ∈ range t.numBuckets, (t.buckets i).room ≤ 19 * t.numBuckets

/-- A balanced table has at most nineteen items to a bucket. -/
theorem Balanced.numItems_le {t : Table α} (hbal : Balanced t) (ht : Intact h t) :
    t.numItems ≤ 19 * t.numBuckets := by
  refine Nat.le_trans ?_ hbal.sum_room_le
  rw [← ht.sum_count]
  exact Finset.sum_le_sum fun i _ => Nat.le_max_left _ _

/-- A new table is balanced. -/
theorem makeTable_balanced : Balanced (makeTable : Table α) where
  count_le _ := Nat.zero_le _
  sum_room_le := by
    change ∑ i ∈ range 32, 9 ≤ 19 * 32
    decide

/-- A link that does not ask for more buckets uses room that was there. -/
theorem link_balanced {t : Table α} (hbal : Balanced t) (hno : t.noexpand = false) {x : α}
    (hx : overfull h (link h t x) x = false) : Balanced (link h t x) := by
  have hsmall : (t.buckets (t.bucketOf h (h.key x))).count + 1 <
      ((t.buckets (t.bucketOf h (h.key x))).expandMult + 1) * bucketCapacityThresh := by
    have hlinked : (link h t x).buckets ((link h t x).bucketOf h (h.key x)) =
        ⟨x :: (t.buckets (t.bucketOf h (h.key x))).chain,
          (t.buckets (t.bucketOf h (h.key x))).count + 1,
          (t.buckets (t.bucketOf h (h.key x))).expandMult⟩ := Function.update_self ..
    have hnoexpand : (link h t x).noexpand = false := hno
    simp only [overfull, hlinked, hnoexpand, Bool.not_false, Bool.and_true,
      decide_eq_false_iff_not] at hx
    omega
  refine ⟨fun i => ?_, Nat.le_trans (Finset.sum_le_sum fun i _ => ?_) hbal.sum_room_le⟩
  · simp only [link, Function.update_apply]
    split
    · exact hsmall.le
    · exact hbal.count_le i
  · simp only [link, Function.update_apply]
    split
    · next hi =>
      subst hi
      simp only [Bucket.room, bucketCapacityThresh] at hsmall ⊢
      omega
    · exact Nat.le_refl _

/-- The room of a bucket after a doubling is paid for by nine and by its share of the
items. -/
theorem room_mul_ideal_le {b : Bucket α} {ideal : Nat} (hpos : 0 < ideal) (hideal : ideal ≤ 10)
    (hmult : b.expandMult = if ideal < b.count then b.count / ideal else 0) :
    b.room * ideal ≤ 9 * ideal + 10 * b.count := by
  unfold Bucket.room
  rw [hmult, bucketCapacityThresh]
  split
  · have hfull : b.count ≤ b.count / ideal * 10 + 9 := by
      have hdiv := Nat.div_add_mod b.count ideal
      have hrem := Nat.mod_lt b.count hpos
      have hscale := Nat.mul_le_mul_right (b.count / ideal) hideal
      omega
    rw [Nat.max_eq_right hfull]
    calc (b.count / ideal * 10 + 9) * ideal = 9 * ideal + 10 * (b.count / ideal * ideal) := by
          ring
      _ ≤ 9 * ideal + 10 * b.count := by
          have hdiv := Nat.div_mul_le_self b.count ideal
          omega
  · next hle =>
    rcases Nat.lt_or_ge b.count 10 with hsmall | hlarge
    · rw [Nat.max_eq_right (by omega)]
      omega
    · -- a chain of ten is ideal only where the ideal length is ten
      have hcount : b.count = 10 := by omega
      have hten : ideal = 10 := by omega
      rw [hcount, hten]
      decide

/-- A doubling of a table that outgrew its room gives every chain room again. -/
theorem expandBuckets_balanced {t : Table α} (ht : Intact h t) (hnonempty : 0 < t.numItems)
    (hitems : t.numItems ≤ 20 * t.numBuckets) : Balanced (expandBuckets h t) := by
  have hpos := ht.placed.numBuckets_pos
  have hmoved := expandBuckets_relinked h hpos
  have hintact := expandBuckets_intact h ht
  have hceil := idealChainMaxlen_expandBuckets h ht
  have hsum : ∑ i ∈ range (t.numBuckets * 2), ((expandBuckets h t).buckets i).count =
      t.numItems := hintact.sum_count
  generalize (expandBuckets h t).idealChainMaxlen = ideal at hmoved hceil
  have hideal_pos : 0 < ideal := by
    rw [hceil]
    exact Nat.div_pos (by omega) (by omega)
  have hideal_le : ideal ≤ 10 := by
    rw [hceil, ← Nat.lt_succ_iff, Nat.div_lt_iff_lt_mul (by omega)]
    omega
  have hcovers : t.numItems ≤ ideal * (t.numBuckets * 2) := by
    have hdiv := Nat.div_add_mod (t.numItems + t.numBuckets * 2 - 1) (t.numBuckets * 2)
    have hrem := Nat.mod_lt (t.numItems + t.numBuckets * 2 - 1)
      (show 0 < t.numBuckets * 2 by omega)
    rw [← hceil, Nat.mul_comm] at hdiv
    omega
  refine ⟨fun i => ?_, ?_⟩
  · have hmult := hmoved.expandMult_eq i
    dsimp only at hmult
    rw [hmult, bucketCapacityThresh]
    split
    · have hlt := Nat.lt_succ_self (((expandBuckets h t).buckets i).count / ideal)
      rw [Nat.div_lt_iff_lt_mul hideal_pos] at hlt
      exact hlt.le.trans (Nat.mul_le_mul_left _ hideal_le)
    · omega
  · change ∑ i ∈ range (t.numBuckets * 2), ((expandBuckets h t).buckets i).room ≤
      19 * (t.numBuckets * 2)
    refine Nat.le_of_mul_le_mul_right ?_ hideal_pos
    calc (∑ i ∈ range (t.numBuckets * 2), ((expandBuckets h t).buckets i).room) * ideal
        = ∑ i ∈ range (t.numBuckets * 2), ((expandBuckets h t).buckets i).room * ideal :=
          Finset.sum_mul ..
      _ ≤ ∑ i ∈ range (t.numBuckets * 2),
            (9 * ideal + 10 * ((expandBuckets h t).buckets i).count) :=
          Finset.sum_le_sum fun i _ =>
            room_mul_ideal_le hideal_pos hideal_le (hmoved.expandMult_eq i)
      _ = t.numBuckets * 2 * (9 * ideal) + 10 * t.numItems := by
          rw [Finset.sum_add_distrib, Finset.sum_const, Finset.card_range, smul_eq_mul,
            ← Finset.mul_sum, hsum]
      _ ≤ t.numBuckets * 2 * (9 * ideal) + 10 * (ideal * (t.numBuckets * 2)) := by omega
      _ = 19 * (t.numBuckets * 2) * ideal := by ring

/-- Doublings once given up are given up for good. -/
theorem noexpand_of_add {t : Table α} {x : α} (hno : (add h t x).noexpand = false) :
    t.noexpand = false := by
  simp only [add] at hno
  split at hno
  · have hor : (t.noexpand || decide _) = false := hno
    exact (Bool.or_eq_false_iff.mp hor).1
  · exact hno

/-- Adding an item keeps the table balanced, unless it has given up doubling. -/
theorem add_balanced {t : Table α} (ht : Intact h t) (hbal : t.noexpand = false → Balanced t)
    (x : α) (hno : (add h t x).noexpand = false) : Balanced (add h t x) := by
  have hold := noexpand_of_add h hno
  have hbal := hbal hold
  simp only [add]
  cases hdoubles : doubles h t x with
  | false => exact link_balanced h hbal hold hdoubles
  | true =>
      have hitems := hbal.numItems_le h ht
      have hpos := ht.placed.numBuckets_pos
      refine expandBuckets_balanced h (link_intact h ht x) (Nat.succ_pos _) ?_
      change t.numItems + 1 ≤ 20 * t.numBuckets
      omega

/-- Until doublings are given up, every table is balanced. -/
theorem addAll_balanced (xs : List α)
    (hno : ((addAll h xs).getD makeTable).noexpand = false) :
    Balanced ((addAll h xs).getD makeTable) := by
  have hboth := addAll_induction h
    (P := fun t => Intact h t ∧ (t.noexpand = false → Balanced t))
    ⟨makeTable_intact h, fun _ => makeTable_balanced⟩
    (fun t x ht => ⟨add_intact h ht.1 x, add_balanced h ht.1 ht.2 x⟩) xs
  exact hboth.2 hno

end ChainedHash
