import ClojitCvm.Lib.HashBalance
import ClojitCvm.Loader.Bounds

/-!
# The hash tables of a file

Type records and dispatch records go into hash tables that double while the rows of a
section are read.  The tables of a loaded file hold the rows of the last section of their
kind, and the doublings keep their chains short.

Main results:

- Theorem {lit}`parse_tables_complete`: for every file the tables hold the rows of their
  sections, have the right counts and find the record of every type.
- Theorem {lit}`parse_tables_balanced`: for every file no chain outgrows its capacity
  unless the doublings of the table were given up.
-/

namespace ClojitCvm

open ByteMemory ChainedHash

/-! ## Rows of a file -/

/-- The type rows of a file, those of the last section of types. -/
def typeRows (mem : Memory) (buf : Nat) : List TypeRecord :=
  ((tableSection .types (layout mem buf)).map (SectionAt.typeRecords mem)).getD []

/-- The dispatch rows of a file, those of the last section of dispatch records. -/
def vtableRows (mem : Memory) (buf : Nat) : List VtableRecord :=
  ((tableSection .vtables (layout mem buf)).map (SectionAt.vtableRecords mem)).getD []

variable (mem : Memory) (buf : Nat)

/-- A section that sets the table of types is one of types. -/
theorem kind_of_mem_tableSection {kind : SectionKind} {xs : List SectionAt} {s : SectionAt}
    (hs : s ∈ tableSection kind xs) (hkind : kind ≠ .cint) : s.kind = kind := by
  have hdisturbs : Disturbs 0 s kind := by simpa using List.find?_some hs
  rcases hdisturbs with hown | ⟨_, hcint, _⟩
  · exact hown
  · exact absurd hcint hkind

theorem parse_types : (parse 0 mem buf .zero).2.types = addAll typeHashing (typeRows mem buf) := by
  rw [parse_eq_foldl, typeRows]
  cases hsection : tableSection .types (layout mem buf) with
  | none => exact (foldl_load_of_tableSection_eq_none hsection .zero).1
  | some s =>
      have hkind := kind_of_mem_tableSection hsection (by decide)
      obtain ⟨before, hsame, _⟩ : ∃ before : Sections, SameTable _
          ((layout mem buf).foldl (SectionAt.load 0 mem) .zero) (s.load 0 mem before) :=
        foldl_load_tableSection hsection .zero
      rw [hsame, SectionAt.load, hkind]
      rfl

theorem parse_vtable :
    (parse 0 mem buf .zero).2.vtable = addAll vtableHashing (vtableRows mem buf) := by
  rw [parse_eq_foldl, vtableRows]
  cases hsection : tableSection .vtables (layout mem buf) with
  | none => exact (foldl_load_of_tableSection_eq_none hsection .zero).1
  | some s =>
      have hkind := kind_of_mem_tableSection hsection (by decide)
      obtain ⟨before, hsame, _⟩ : ∃ before : Sections, SameTable _
          ((layout mem buf).foldl (SectionAt.load 0 mem) .zero) (s.load 0 mem before) :=
        foldl_load_tableSection hsection .zero
      rw [hsame, SectionAt.load, hkind]
      rfl

/-! ## Complete tables -/

/-- The table under a head pointer holds exactly these rows: they stand in it in the order
they were added, and its chains are a rearrangement of them. -/
structure HoldsRows {α κ : Type} (h : Hashing α κ) (head : Option (Table α))
    (rows : List α) : Prop where
  null_iff : head = none ↔ rows = []
  items_eq : itemsOf head = rows
  walk_perm : (head.getD makeTable).walk.Perm rows
  placed : Placed h (head.getD makeTable)
  numBuckets_eq : (head.getD makeTable).numBuckets = 2 ^ (head.getD makeTable).log2NumBuckets
  fsckCounts : fsckCounts (head.getD makeTable) = true

theorem addAll_holdsRows {α κ : Type} (h : Hashing α κ) (rows : List α) :
    HoldsRows h (addAll h rows) rows where
  null_iff := addAll_eq_none_iff h rows
  items_eq := addAll_items h rows
  walk_perm := by
    have hwalk := (addAll_intact h rows).walk_perm
    have hitems : ((addAll h rows).getD makeTable).items = rows := addAll_items h rows
    rwa [hitems] at hwalk
  placed := (addAll_intact h rows).placed
  numBuckets_eq := (addAll_intact h rows).numBuckets_eq
  fsckCounts := addAll_fsckCounts h rows

/-- After loading any file, the two hash tables hold the rows of the last section of their
kind and nothing else, however often they were doubled, and all their counters are right.
A type is looked up without success exactly when no row has its id, a record that is found is
a row with the id, and if all ids differ every row is found. -/
theorem parse_tables_complete :
    HoldsRows typeHashing (parse 0 mem buf .zero).2.types (typeRows mem buf) ∧
    HoldsRows vtableHashing (parse 0 mem buf .zero).2.vtable (vtableRows mem buf) ∧
    (∀ id, getTypeRecord (parse 0 mem buf .zero).2 id = none ↔
      ∀ row ∈ typeRows mem buf, row.typeId ≠ id) ∧
    (∀ id row, getTypeRecord (parse 0 mem buf .zero).2 id = some row →
      row ∈ typeRows mem buf ∧ row.typeId = id) ∧
    (((typeRows mem buf).map (·.typeId)).Nodup →
      ∀ row ∈ typeRows mem buf,
        getTypeRecord (parse 0 mem buf .zero).2 row.typeId = some row) := by
  simp only [getTypeRecord, parse_types, parse_vtable]
  refine ⟨addAll_holdsRows _ _, addAll_holdsRows _ _, ?_, ?_, ?_⟩
  · exact fun id => find_addAll_eq_none_iff typeHashing _ id
  · exact fun id row hfind => mem_of_find_addAll typeHashing hfind
  · intro hdistinct row hrow
    exact (find_addAll_iff typeHashing hdistinct _ row).mpr ⟨hrow, rfl⟩

/-! ## Balanced tables -/

/-- The chains of a table are as short as its doublings keep them. -/
structure ShortChains {α : Type} (t : Table α) : Prop where
  chain_le : ∀ i, (t.buckets i).chain.length ≤
    ((t.buckets i).expandMult + 1) * bucketCapacityThresh
  items_le : t.items.length ≤ 19 * t.numBuckets

/-- The ideal chain length is the number of items over the number of buckets, rounded up,
and the items behind it in their chains are counted. -/
structure Measured {α : Type} (t : Table α) : Prop where
  ideal_eq : t.idealChainMaxlen = (t.items.length + t.numBuckets - 1) / t.numBuckets
  nonideal_eq : t.nonidealItems =
    ∑ i ∈ Finset.range t.numBuckets, ((t.buckets i).chain.length - t.idealChainMaxlen)

section Tables

variable {α κ : Type} (h : Hashing α κ) (rows : List α)

theorem shortChains_of_addAll {t : Table α} (ht : addAll h rows = some t)
    (hno : t.noexpand = false) : ShortChains t := by
  have htable : (addAll h rows).getD makeTable = t := by rw [ht, Option.getD_some]
  have hintact := addAll_intact h rows
  have hbal := addAll_balanced h rows
  rw [htable] at hintact hbal
  have hbal := hbal hno
  refine ⟨fun i => ?_, ?_⟩
  · rw [← hintact.count_eq]
    exact hbal.count_le i
  · rw [← hintact.numItems_eq]
    exact hbal.numItems_le h hintact

theorem measured_of_doubles {x : α}
    (hdoubles : doubles h ((addAll h rows).getD makeTable) x = true) :
    Measured (add h ((addAll h rows).getD makeTable) x) := by
  have hlinked := link_intact h (addAll_intact h rows) x
  have hadd : add h ((addAll h rows).getD makeTable) x =
      expandBuckets h (link h ((addAll h rows).getD makeTable) x) := if_pos hdoubles
  rw [hadd]
  refine ⟨?_, nonidealItems_expandBuckets h hlinked⟩
  rw [idealChainMaxlen_expandBuckets h hlinked, hlinked.numItems_eq]
  rfl

end Tables

/-- After loading any file, a hash table whose doublings were not given up has no chain
longer than its bucket allows, and at most nineteen rows to a bucket.  Every doubling on the
way measured the ideal chain length and the rows behind it exactly. -/
theorem parse_tables_balanced :
    (∀ t, (parse 0 mem buf .zero).2.types = some t → t.noexpand = false → ShortChains t) ∧
    (∀ t, (parse 0 mem buf .zero).2.vtable = some t → t.noexpand = false → ShortChains t) ∧
    (∀ front row, front ++ [row] <+: typeRows mem buf →
      doubles typeHashing ((addAll typeHashing front).getD makeTable) row = true →
        Measured (add typeHashing ((addAll typeHashing front).getD makeTable) row)) ∧
    (∀ front row, front ++ [row] <+: vtableRows mem buf →
      doubles vtableHashing ((addAll vtableHashing front).getD makeTable) row = true →
        Measured (add vtableHashing ((addAll vtableHashing front).getD makeTable) row)) := by
  rw [parse_types, parse_vtable]
  refine ⟨?_, ?_, ?_, ?_⟩
  · exact fun t ht hno => shortChains_of_addAll typeHashing _ ht hno
  · exact fun t ht hno => shortChains_of_addAll vtableHashing _ ht hno
  · exact fun front row _ hdoubles => measured_of_doubles typeHashing front hdoubles
  · exact fun front row _ hdoubles => measured_of_doubles vtableHashing front hdoubles

end ClojitCvm
