import Mathlib.Data.List.Basic
import Mathlib.Data.List.Flatten
import Mathlib.Logic.Function.Basic
import Mathlib.Tactic.Common

/-!
# Chained hash tables

An intrusive hash table with chained buckets: an item is linked at the head of the
chain of its bucket, and a bucket that grows too long doubles the number of
buckets, which moves every item to the head of its new chain.  Nothing stops two
items with one key from being added; a lookup returns the first in the chain.

Main results:

- Theorem {lit}`chainOf_addAll`: the items of one key stand newest first, turned
  around by every doubling since.
- Theorem {lit}`find_addAll`: a lookup returns the item at the front of that order.
- Theorem {lit}`mem_order`: the order has the items added with the key.
-/

namespace ChainedHash

variable {α κ : Type*}

/-! ## Tables -/

/-- A bucket: the chain of its items, their number, and how often the bucket may
exceed the usual capacity before it asks for more buckets. -/
structure Bucket (α : Type*) where
  chain : List α
  count : Nat
  expandMult : Nat

/-- A table with the items in the order they were added. -/
structure Table (α : Type*) where
  items : List α
  buckets : Nat → Bucket α
  numBuckets : Nat
  log2NumBuckets : Nat
  numItems : Nat
  idealChainMaxlen : Nat
  nonidealItems : Nat
  ineffExpands : Nat
  noexpand : Bool

def Bucket.empty : Bucket α := ⟨[], 0, 0⟩

/-- How items are hashed: the key of an item and the hash value of a key. -/
structure Hashing (α κ : Type*) where
  key : α → κ
  hash : κ → Nat

variable (h : Hashing α κ)

/-- The bucket of a hash value. -/
def toBucket (hashv numBuckets : Nat) : Nat :=
  hashv &&& (numBuckets - 1)

/-- The bucket an item with this key belongs to. -/
def Table.bucketOf (t : Table α) (k : κ) : Nat :=
  toBucket (h.hash k) t.numBuckets

def initialNumBuckets : Nat := 32
def initialNumBucketsLog2 : Nat := 5
def bucketCapacityThresh : Nat := 10

/-- A new table without items. -/
def makeTable : Table α where
  items := []
  buckets := fun _ => .empty
  numBuckets := initialNumBuckets
  log2NumBuckets := initialNumBucketsLog2
  numItems := 0
  idealChainMaxlen := 0
  nonidealItems := 0
  ineffExpands := 0
  noexpand := false

/-! ## Doubling -/

/-- Relink one item at the head of its chain among the new buckets, counting
the items past the ideal chain length. -/
def relink (numBuckets ideal : Nat) (acc : (Nat → Bucket α) × Nat) (x : α) :
    (Nat → Bucket α) × Nat :=
  let i := toBucket (h.hash (h.key x)) numBuckets
  let old := acc.1 i
  let count := old.count + 1
  if count > ideal then
    (Function.update acc.1 i ⟨x :: old.chain, count, count / ideal⟩, acc.2 + 1)
  else
    (Function.update acc.1 i ⟨x :: old.chain, count, old.expandMult⟩, acc.2)

/-- The items in the order a walk over all buckets meets them. -/
def Table.walk (t : Table α) : List α :=
  (List.range t.numBuckets).flatMap fun i => (t.buckets i).chain

/-- Double the number of buckets. -/
def expandBuckets (t : Table α) : Table α :=
  let ideal := (t.numItems >>> (t.log2NumBuckets + 1)) +
    (if t.numItems &&& (t.numBuckets * 2 - 1) ≠ 0 then 1 else 0)
  let moved := t.walk.foldl (relink h (t.numBuckets * 2) ideal) (fun _ => .empty, 0)
  let ineff := if moved.2 > t.numItems >>> 1 then t.ineffExpands + 1 else 0
  { t with
    buckets := moved.1
    numBuckets := t.numBuckets * 2
    log2NumBuckets := t.log2NumBuckets + 1
    idealChainMaxlen := ideal
    nonidealItems := moved.2
    ineffExpands := ineff
    noexpand := t.noexpand || decide (ineff > 1) }

/-! ## Adding and finding -/

/-- Link an item at the head of its chain, before any doubling. -/
def link (t : Table α) (x : α) : Table α :=
  let i := t.bucketOf h (h.key x)
  let old := t.buckets i
  { t with
    items := t.items ++ [x]
    numItems := t.numItems + 1
    buckets := Function.update t.buckets i ⟨x :: old.chain, old.count + 1, old.expandMult⟩ }

/-- The item just linked asks for more buckets. -/
def overfull (t : Table α) (x : α) : Bool :=
  let bucket := t.buckets (t.bucketOf h (h.key x))
  decide (bucket.count ≥ (bucket.expandMult + 1) * bucketCapacityThresh) && !t.noexpand

/-- Adding the item doubles the table. -/
def doubles (t : Table α) (x : α) : Bool :=
  overfull h (link h t x) x

def add (t : Table α) (x : α) : Table α :=
  if doubles h t x then expandBuckets h (link h t x) else link h t x

/-- A table is made when its first item is added; {lean}`none` is the empty
table. -/
def addHead (head : Option (Table α)) (x : α) : Option (Table α) :=
  some (add h (head.getD makeTable) x)

def addAll (xs : List α) : Option (Table α) :=
  xs.foldl (addHead h) none

/-- The first item in the key's chain that carries the key. -/
def find [DecidableEq κ] (head : Option (Table α)) (k : κ) : Option α :=
  match head with
  | none => none
  | some t => (t.buckets (t.bucketOf h k)).chain.find? fun x => h.key x = k

/-- The items of one key in chain order. -/
def chainOf [DecidableEq κ] (t : Table α) (k : κ) : List α :=
  (t.buckets (t.bucketOf h k)).chain.filter fun x => h.key x = k

/-! ## Application order -/

/-- The items of a table in the order they were added. -/
def itemsOf (head : Option (Table α)) : List α :=
  (head.getD makeTable).items

@[simp]
theorem add_items (t : Table α) (x : α) : (add h t x).items = t.items ++ [x] := by
  simp only [add]
  split <;> rfl

theorem foldl_addHead_items (xs : List α) (head : Option (Table α)) :
    itemsOf (xs.foldl (addHead h) head) = itemsOf head ++ xs := by
  induction xs generalizing head with
  | nil => simp
  | cons x xs ih =>
      rw [List.foldl_cons, ih]
      simp [addHead, itemsOf]

/-- The table lists its items in the order they were added. -/
theorem addAll_items (xs : List α) : itemsOf (addAll h xs) = xs := by
  rw [addAll, foldl_addHead_items]
  rfl

/-! ## Items stand in the bucket of their key -/

/-- Every item is linked in the bucket of its key. -/
structure Placed (t : Table α) : Prop where
  numBuckets_pos : 0 < t.numBuckets
  bucketOf_eq : ∀ i, ∀ x ∈ (t.buckets i).chain, t.bucketOf h (h.key x) = i

theorem toBucket_lt {n : Nat} (hashv : Nat) (hn : 0 < n) : toBucket hashv n < n := by
  have := @Nat.and_le_right hashv (n - 1)
  unfold toBucket
  omega

theorem makeTable_placed : Placed h (makeTable : Table α) where
  numBuckets_pos := Nat.zero_lt_succ 31
  bucketOf_eq := by
    intro i x hx
    exact absurd hx (by simp [makeTable, Bucket.empty])

theorem link_placed {t : Table α} (ht : Placed h t) (x : α) : Placed h (link h t x) where
  numBuckets_pos := ht.numBuckets_pos
  bucketOf_eq := by
    intro i y hy
    change t.bucketOf h (h.key y) = i
    simp only [link, Function.update_apply] at hy
    split at hy
    · next hi =>
      rcases List.mem_cons.mp hy with rfl | hy
      · exact hi.symm
      · rw [ht.bucketOf_eq _ y hy, hi]
    · exact ht.bucketOf_eq i y hy

/-- The chains of the new buckets: the items met so far that belong to the
bucket, last one first. -/
theorem chain_foldl_relink (numBuckets ideal : Nat) (xs : List α)
    (acc : (Nat → Bucket α) × Nat) (i : Nat) :
    ((xs.foldl (relink h numBuckets ideal) acc).1 i).chain =
      (xs.filter fun x => toBucket (h.hash (h.key x)) numBuckets = i).reverse ++
        (acc.1 i).chain := by
  induction xs generalizing acc with
  | nil => simp
  | cons x xs ih =>
      have hone : ((relink h numBuckets ideal acc x).1 i).chain =
          (if toBucket (h.hash (h.key x)) numBuckets = i then [x] else []) ++
            (acc.1 i).chain := by
        simp only [relink]
        by_cases hi : toBucket (h.hash (h.key x)) numBuckets = i
        · subst hi
          split <;> simp
        · rw [if_neg hi]
          split <;> simp [Function.update_of_ne (Ne.symm hi)]
      rw [List.foldl_cons, ih, hone, List.filter_cons]
      split <;> simp_all

theorem expandBuckets_chain (t : Table α) (i : Nat) :
    ((expandBuckets h t).buckets i).chain =
      (t.walk.filter fun x =>
        toBucket (h.hash (h.key x)) (t.numBuckets * 2) = i).reverse := by
  simp only [expandBuckets, chain_foldl_relink, Bucket.empty, List.append_nil]

theorem expandBuckets_placed {t : Table α} (ht : Placed h t) :
    Placed h (expandBuckets h t) where
  numBuckets_pos := Nat.mul_pos ht.numBuckets_pos (by decide)
  bucketOf_eq := by
    intro i x hx
    rw [expandBuckets_chain, List.mem_reverse, List.mem_filter] at hx
    exact of_decide_eq_true hx.2

theorem add_placed {t : Table α} (ht : Placed h t) (x : α) : Placed h (add h t x) := by
  simp only [add]
  split
  · exact expandBuckets_placed h (link_placed h ht x)
  · exact link_placed h ht x

/-! ## The order of the items of one key -/

section Order

variable [DecidableEq κ] (k : κ)

/-- Linking an item of the key puts it in front. -/
theorem chainOf_link (t : Table α) (x : α) :
    chainOf h (link h t x) k =
      if h.key x = k then x :: chainOf h t k else chainOf h t k := by
  unfold chainOf
  change ((link h t x).buckets (t.bucketOf h k)).chain.filter _ = _
  simp only [link, Function.update_apply]
  by_cases hk : h.key x = k
  · subst hk
    simp
  · rw [if_neg hk]
    split
    · next hi => simp [hk, hi]
    · rfl

/-- The walk over all buckets meets the items of one key in chain order. -/
theorem filter_walk {t : Table α} (ht : Placed h t) :
    t.walk.filter (fun x => h.key x = k) = chainOf h t k := by
  have hbucket : t.bucketOf h k < t.numBuckets := toBucket_lt _ ht.numBuckets_pos
  have hother : ∀ i, i ≠ t.bucketOf h k →
      (t.buckets i).chain.filter (fun x => h.key x = k) = [] := by
    intro i hi
    rw [List.filter_eq_nil_iff]
    intro x hx hkey
    apply hi
    rw [← of_decide_eq_true hkey, ht.bucketOf_eq i x hx]
  have hall : ∀ n, (List.range n).flatMap
      (fun i => (t.buckets i).chain.filter fun x => h.key x = k) =
        if t.bucketOf h k < n then chainOf h t k else [] := by
    intro n
    induction n with
    | zero => simp
    | succ n ih =>
        rw [List.range_succ, List.flatMap_append, ih, List.flatMap_singleton]
        rcases Nat.lt_trichotomy (t.bucketOf h k) n with hlt | heq | hgt
        · rw [if_pos hlt, if_pos (by omega), hother n (by omega), List.append_nil]
        · rw [if_neg (by omega), if_pos (by omega), List.nil_append, ← heq]
          rfl
        · rw [if_neg (by omega), if_neg (by omega), hother n (by omega), List.append_nil]
  rw [Table.walk, List.filter_flatMap, hall, if_pos hbucket]

/-- Doubling turns the items of one key around. -/
theorem chainOf_expandBuckets {t : Table α} (ht : Placed h t) :
    chainOf h (expandBuckets h t) k = (chainOf h t k).reverse := by
  rw [← filter_walk h k ht, chainOf, expandBuckets_chain, List.filter_reverse,
    List.filter_filter]
  congr 1
  apply List.filter_congr
  intro x _
  by_cases hkey : h.key x = k
  · subst hkey
    simp [Table.bucketOf, expandBuckets]
  · simp [hkey]

/-- The order in which the items of one key are met: an item is added in front,
and every doubling turns the order around. -/
def order : Option (Table α) → List α → List α → List α
  | _, front, [] => front
  | head, front, x :: xs =>
      let front := if h.key x = k then x :: front else front
      let front := if doubles h (head.getD makeTable) x then front.reverse else front
      order (addHead h head x) front xs

theorem chainOf_add {t : Table α} (ht : Placed h t) (x : α) :
    chainOf h (add h t x) k =
      let front := if h.key x = k then x :: chainOf h t k else chainOf h t k
      if doubles h t x then front.reverse else front := by
  simp only [add]
  split
  · rw [chainOf_expandBuckets h k (link_placed h ht x), chainOf_link]
  · rw [chainOf_link]

theorem chainOf_foldl (xs : List α) {head : Option (Table α)}
    (ht : Placed h (head.getD makeTable)) :
    chainOf h ((xs.foldl (addHead h) head).getD makeTable) k =
      order h k head (chainOf h (head.getD makeTable) k) xs := by
  induction xs generalizing head with
  | nil => rfl
  | cons x xs ih =>
      have hadd := chainOf_add h k ht x
      have hplaced : Placed h ((addHead h head x).getD makeTable) := add_placed h ht x
      simp only [List.foldl_cons, order]
      rw [ih hplaced, ← hadd]
      rfl

/-- The items of one key stand newest first, turned around by every doubling
since. -/
theorem chainOf_addAll (xs : List α) :
    chainOf h ((addAll h xs).getD makeTable) k = order h k none [] xs := by
  have hplaced : Placed h ((none : Option (Table α)).getD makeTable) := makeTable_placed h
  exact chainOf_foldl h k xs hplaced

/-- A lookup is the front of the key's order. -/
theorem find_eq_head? (head : Option (Table α)) :
    find h head k = (chainOf h (head.getD makeTable) k).head? := by
  cases head with
  | none => rfl
  | some t => simp [find, chainOf]

theorem find_addAll (xs : List α) :
    find h (addAll h xs) k = (order h k none [] xs).head? := by
  rw [find_eq_head?, chainOf_addAll]

/-! ## What a lookup can return -/

theorem order_perm (xs : List α) (head : Option (Table α)) (front : List α) :
    (order h k head front xs).Perm (front ++ xs.filter fun x => h.key x = k) := by
  induction xs generalizing head front with
  | nil => simp [order]
  | cons x xs ih =>
      have hstep : (if doubles h (head.getD makeTable) x then
          (if h.key x = k then x :: front else front).reverse
          else if h.key x = k then x :: front else front).Perm
            (front ++ if h.key x = k then [x] else []) := by
        have hfront : (if h.key x = k then x :: front else front).Perm
            (front ++ if h.key x = k then [x] else []) := by
          split
          · exact (List.perm_append_singleton x front).symm
          · simp
        split
        · exact (List.reverse_perm _).trans hfront
        · exact hfront
      simp only [order]
      refine (ih _ _).trans ((hstep.append_right _).trans ?_)
      rw [List.append_assoc, List.filter_cons]
      split <;> simp_all

/-- The items of one key, in whatever order, are the items added with it. -/
theorem mem_order {xs : List α} {x : α} :
    x ∈ order h k none [] xs ↔ x ∈ xs ∧ h.key x = k := by
  rw [(order_perm h k xs none []).mem_iff]
  simp

end Order

/-! ## Small tables -/

/-- No bucket holds more items than were added. -/
theorem count_link_le {t : Table α} {n : Nat} (hcount : ∀ i, (t.buckets i).count ≤ n)
    (x : α) (i : Nat) : ((link h t x).buckets i).count ≤ n + 1 := by
  simp only [link, Function.update_apply]
  have hi := hcount i
  have hx := hcount (t.bucketOf h (h.key x))
  split
  · simpa using hx
  · omega

/-- A table with few items does not double. -/
theorem doubles_eq_false {t : Table α} {n : Nat} (hcount : ∀ i, (t.buckets i).count ≤ n)
    (hn : n + 1 < bucketCapacityThresh) (x : α) : doubles h t x = false := by
  have hle := count_link_le h hcount x ((link h t x).bucketOf h (h.key x))
  simp only [doubles, overfull, Bool.and_eq_false_iff, decide_eq_false_iff_not]
  refine .inl fun hge => ?_
  rw [Nat.add_mul] at hge
  omega

variable [DecidableEq κ] (k : κ)

/-- While no bucket can be full, the items of one key stand newest first. -/
theorem order_of_small (xs : List α) {head : Option (Table α)} {n : Nat}
    (hcount : ∀ i, ((head.getD makeTable).buckets i).count ≤ n)
    (hn : n + xs.length < bucketCapacityThresh) (front : List α) :
    order h k head front xs = (xs.filter fun x => h.key x = k).reverse ++ front := by
  induction xs generalizing head front n with
  | nil => simp [order]
  | cons x xs ih =>
      rw [List.length_cons] at hn
      have hdoubles := doubles_eq_false h hcount (show n + 1 < bucketCapacityThresh by omega) x
      have hadd : add h (head.getD makeTable) x = link h (head.getD makeTable) x := by
        simp only [add]
        exact if_neg (by simp [hdoubles])
      have hnext : ∀ i, (((addHead h head x).getD makeTable).buckets i).count ≤ n + 1 := by
        intro i
        simp only [addHead, Option.getD_some, hadd]
        exact count_link_le h hcount x i
      simp only [order, hdoubles, Bool.false_eq_true, if_false]
      rw [ih hnext (by omega), List.filter_cons]
      split <;> simp_all

/-- With fewer items than a bucket's capacity, a lookup returns the newest item of
the key. -/
theorem find_addAll_of_small {xs : List α} (hn : xs.length < bucketCapacityThresh) :
    find h (addAll h xs) k = (xs.filter fun x => h.key x = k).getLast? := by
  rw [find_addAll, order_of_small h k xs (n := 0)
    (by intro i; simp [makeTable, Bucket.empty]) (by omega), List.append_nil,
    List.head?_reverse]

end ChainedHash
