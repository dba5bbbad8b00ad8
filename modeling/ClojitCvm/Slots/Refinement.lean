import ClojitCvm.Slots.Storage

/-!
# The slot array as a growable list

The abstract slot array is a list of words: appending adds at the end, assigning
past the end pads with nil, reading past the end stops the machine, and truncation
keeps a front part.  This file relates the array of {lit}`slots.c` to it.

Main results:

- The structure {lit}`Slots.Represents`: the invariant of the array together with the
  list it stands for.
- Theorems {lit}`Slots.Represents.append`, {lit}`Slots.Represents.get`,
  {lit}`Slots.Represents.set` and {lit}`Slots.Represents.truncate`: one rule for each
  operation.
- Theorem {lit}`runSlots_refines_list`: every sequence of operations on the array shows
  the outputs of the list and stops where the list does.
-/

namespace ClojitCvm

open CellArray Slot

/-- The largest capacity that doubling reaches without wrapping. -/
def maxCapacity : Nat := 10 * 2 ^ 28

/-- The array is in order and its used part is the given list. -/
structure Slots.Represents (slots : Slots) (xs : List Word) : Prop where
  size_eq : slots.size = xs.length
  capacity_eq : ∃ k ≤ 28, slots.capacity = 10 * 2 ^ k
  length_eq : slots.data.length = slots.capacity
  root_eq : slots.rootO = ⟨slots.block, slots.capacity⟩
  holds : Holds slots.data xs

theorem moveTo_capacity {slots slots' : Slots} {capacity : Nat} {call : RootCall}
    (hmove : moveTo slots capacity call = .ok slots') : slots'.capacity = capacity := by
  unfold moveTo at hmove
  split at hmove <;> cases hmove
  rfl

namespace Slots.Represents

variable {slots slots' : Slots} {xs : List Word}

theorem size_le_capacity (h : slots.Represents xs) : slots.size ≤ slots.capacity := by
  rw [h.size_eq, ← h.length_eq]
  exact h.holds.length_le

theorem capacity_le (h : slots.Represents xs) : slots.capacity ≤ maxCapacity := by
  rcases h.capacity_eq with ⟨k, hk, hcap⟩
  rw [hcap]
  exact Nat.mul_le_mul_left 10 (Nat.pow_le_pow_right (by decide) hk)

theorem length_le (h : slots.Represents xs) : xs.length ≤ maxCapacity := by
  have := h.size_le_capacity
  have := h.capacity_le
  have := h.size_eq
  omega

/-! ## Moving to another block -/

/-- Moving to a block with room keeps the list. -/
theorem moveTo {k : Nat} (h : slots.Represents xs) (hk : k ≤ 28)
    (hroom : xs.length ≤ 10 * 2 ^ k) (call : RootCall) :
    ∃ slots', ClojitCvm.moveTo slots (10 * 2 ^ k) call = .ok slots' ∧
      slots'.Represents xs ∧ slots'.capacity = 10 * 2 ^ k := by
  obtain ⟨data, hcopy, hlen, hholds⟩ :=
    h.holds.copy (malloc (10 * 2 ^ k)) (by simpa using hroom)
  unfold ClojitCvm.moveTo
  rw [h.size_eq, hcopy]
  refine ⟨_, rfl, ?_, rfl⟩
  exact
    { size_eq := rfl
      capacity_eq := ⟨k, hk, rfl⟩
      length_eq := by simpa using hlen
      root_eq := rfl
      holds := hholds }

/-- The source test is ten times the size against three times the capacity. -/
theorem sparse_iff (h : slots.Represents xs) :
    sparse slots = true ↔ slots.capacity ≠ 10 ∧ 10 * slots.size ≤ 3 * slots.capacity := by
  rcases h.capacity_eq with ⟨k, _, hcap⟩
  have heven : 2 * (slots.capacity / 2) = slots.capacity := by
    rw [hcap]
    omega
  simp only [sparse, slotsInitialCapacity, Bool.and_eq_true, bne_iff_ne, decide_eq_true_eq]
  omega

/-- Halving a sparse array keeps the list. -/
theorem half (h : slots.Represents xs) (hsparse : sparse slots = true) :
    ∃ slots', slotsHalfCapacity slots = .ok slots' ∧ slots'.Represents xs := by
  rcases h.sparse_iff.mp hsparse with ⟨hne, hle⟩
  rcases h.capacity_eq with ⟨k, hk, hcap⟩
  obtain ⟨j, rfl⟩ : ∃ j, k = j + 1 := by
    cases k with
    | zero => exact absurd hcap hne
    | succ j => exact ⟨j, rfl⟩
  have hhalf : slots.capacity / 2 = 10 * 2 ^ j := by
    rw [hcap, Nat.pow_succ]
    omega
  have hroom : xs.length ≤ 10 * 2 ^ j := by
    rw [← h.size_eq]
    omega
  rcases h.moveTo (by omega) hroom .slotsHalfCapacity with ⟨slots', hmove, hrep, _⟩
  exact ⟨slots', by rw [slotsHalfCapacity, hhalf, hmove], hrep⟩

/-- The first statement of a read keeps the list. -/
theorem halve (h : slots.Represents xs) :
    ∃ slots', halveIfSparse slots = .ok slots' ∧ slots'.Represents xs := by
  unfold halveIfSparse
  split
  · next hsparse => exact h.half hsparse
  · exact ⟨slots, rfl, h⟩

/-- Making room either succeeds with a free cell or, at the largest capacity,
overruns the wrapped block. -/
theorem double (h : slots.Represents xs) :
    if xs.length < maxCapacity then
      ∃ slots', slotsDoubleCapacityIfFull slots = .ok slots' ∧ slots'.Represents xs ∧
        xs.length < slots'.capacity
    else slotsDoubleCapacityIfFull slots = .error (.fault .overrun) := by
  have hsize := h.size_eq
  have hle := h.size_le_capacity
  rcases h.capacity_eq with ⟨k, hk, hcap⟩
  unfold slotsDoubleCapacityIfFull
  by_cases hfull : slots.size ≥ slots.capacity
  · rw [if_pos hfull]
    by_cases hlast : k = 28
    · -- the doubled capacity wraps to less than the size
      subst hlast
      rw [if_neg (by unfold maxCapacity; omega)]
      have hwrap : slots.capacity * 2 % 2 ^ 32 = 1073741824 := by omega
      have hcopy : copy slots.data (malloc 1073741824) slots.size = none :=
        copy_eq_none_of_lt (by simp; omega)
      rw [hwrap]
      simp only [ClojitCvm.moveTo, hcopy]
    · have hpos := Nat.two_pow_pos k
      have hpow : (2 : Nat) ^ k ≤ 2 ^ 27 := Nat.pow_le_pow_right (by decide) (by omega)
      have hdouble : slots.capacity * 2 % 2 ^ 32 = 10 * 2 ^ (k + 1) := by
        rw [hcap, Nat.pow_succ]
        omega
      rw [if_pos (by unfold maxCapacity; omega), hdouble]
      obtain ⟨slots', hmove, hrep, hcap'⟩ :=
        h.moveTo (k := k + 1) (by omega) (by rw [Nat.pow_succ]; omega)
          .slotsDoubleCapacityIfFull
      refine ⟨slots', hmove, hrep, ?_⟩
      rw [hcap', Nat.pow_succ]
      omega
  · have := h.capacity_le
    rw [if_neg hfull, if_pos (by omega)]
    exact ⟨slots, rfl, h, by omega⟩

/-! ## One rule for each operation -/

/-- Appending adds at the end, as long as the capacity can grow. -/
theorem append (h : slots.Represents xs) (v : Word) :
    if xs.length < maxCapacity then
      ∃ slots', slotsAppend slots v = .ok slots' ∧ slots'.Represents (xs ++ [v])
    else slotsAppend slots v = .error (.fault .overrun) := by
  have hdouble := h.double
  split at hdouble
  · next hlt =>
    rcases hdouble with ⟨grown, hgrow, hrep, hroom⟩
    rw [if_pos hlt]
    obtain ⟨data, hstore, hlen, hholds⟩ :=
      hrep.holds.store_append (v := v) (by rw [hrep.length_eq]; exact hroom)
    rw [← hrep.size_eq] at hstore
    have hsize : (grown.size + 1) % 2 ^ 32 = grown.size + 1 := by
      have := hrep.size_eq
      unfold maxCapacity at hlt
      omega
    simp only [slotsAppend, hgrow, bind, Except.bind, hstore]
    refine ⟨_, rfl, ?_⟩
    exact
      { size_eq := hsize.trans (by simp [hrep.size_eq])
        capacity_eq := hrep.capacity_eq
        length_eq := hlen.trans hrep.length_eq
        root_eq := hrep.root_eq
        holds := hholds }
  · next hge =>
    rw [if_neg hge]
    simp only [slotsAppend, hdouble, bind, Except.bind]

/-- Reading gives the element, and stops with status 1 exactly past the end. -/
theorem get (h : slots.Represents xs) (i : Nat) :
    ∃ slots', slots'.Represents xs ∧
      match xs[i]? with
      | some w => slotsGet slots i = .ok (slots', w)
      | none => ∃ printed, slotsGet slots i = .error (.exit 1 slots' printed) := by
  rcases h.halve with ⟨shrunk, hshrink, hrep⟩
  refine ⟨shrunk, hrep, ?_⟩
  have hsize := hrep.size_eq
  simp only [slotsGet, hshrink, bind, Except.bind]
  by_cases hi : i < xs.length
  · have hload := hrep.holds.load hi
    rw [List.getElem?_eq_getElem hi] at hload ⊢
    simp only [if_neg (show ¬ i ≥ shrunk.size by omega), hload]
  · rw [List.getElem?_eq_none (by omega)]
    exact ⟨_, if_pos (by omega)⟩

/-- The padding loop brings the size past the index, as far as the capacity can
grow. -/
theorem appendUntil (h : slots.Represents xs) {i turns : Nat}
    (hturns : turns = i + 1 - xs.length) (hi : i < maxCapacity) :
    ∃ slots', ClojitCvm.appendUntil i turns slots = .ok slots' ∧
      slots'.Represents (xs ++ List.replicate turns 0#64) := by
  induction turns generalizing slots xs with
  | zero => exact ⟨slots, rfl, by simpa using h⟩
  | succ turns ih =>
      have happend := h.append 0#64
      rw [if_pos (by omega)] at happend
      rcases happend with ⟨grown, hgrow, hrep⟩
      obtain ⟨slots', hrun, hrep'⟩ :=
        ih hrep (by simp only [List.length_append, List.length_singleton]; omega)
      refine ⟨slots', ?_, ?_⟩
      · rw [ClojitCvm.appendUntil, if_pos (by rw [h.size_eq]; omega), hgrow]
        exact hrun
      · simpa [List.replicate_succ] using hrep'

/-- Past the largest capacity the padding loop overruns. -/
theorem appendUntil_overrun (h : slots.Represents xs) {i turns : Nat}
    (hturns : turns = i + 1 - xs.length) (hi : maxCapacity ≤ i) :
    ClojitCvm.appendUntil i turns slots = .error (.fault .overrun) := by
  have hlen := h.length_le
  induction turns generalizing slots xs with
  | zero => omega
  | succ turns ih =>
      rw [ClojitCvm.appendUntil, if_pos (by rw [h.size_eq]; omega)]
      have happend := h.append 0#64
      split at happend
      · rcases happend with ⟨grown, hgrow, hrep⟩
        rw [hgrow]
        exact ih hrep (by simp only [List.length_append, List.length_singleton]; omega)
          hrep.length_le
      · rw [happend]
        rfl

/-- Assigning replaces the element, padding with nil up to it. -/
theorem set (h : slots.Represents xs) (i : Nat) (v : Word) :
    if i < maxCapacity then
      ∃ slots', slotsSet slots i v = .ok slots' ∧ slots'.Represents (assign 0#64 xs i v)
    else slotsSet slots i v = .error (.fault .overrun) := by
  have hturns : i + 1 - slots.size = i + 1 - xs.length := by rw [h.size_eq]
  unfold slotsSet
  split
  · next hi =>
    rcases h.appendUntil hturns hi with ⟨grown, hgrow, hrep⟩
    obtain ⟨data, hstore, hlen, hholds⟩ := hrep.holds.store_set (i := i) (v := v) (by
      simp only [List.length_append, List.length_replicate]
      omega)
    simp only [hgrow, bind, Except.bind, hstore]
    refine ⟨_, rfl, ?_⟩
    exact
      { size_eq := by
          rw [length_assign, hrep.size_eq, List.length_append, List.length_replicate]
          omega
        capacity_eq := hrep.capacity_eq
        length_eq := hlen.trans hrep.length_eq
        root_eq := hrep.root_eq
        holds := by rwa [hturns] at hholds }
  · next hi =>
    simp only [h.appendUntil_overrun hturns (by omega), bind, Except.bind]

/-- The direct assignment of a smaller size keeps the front of the list. -/
theorem truncate (h : slots.Represents xs) {n : Nat} (hn : n ≤ xs.length) :
    Slots.Represents { slots with size := n } (xs.take n) where
  size_eq := by simp [hn]
  capacity_eq := h.capacity_eq
  length_eq := h.length_eq
  root_eq := h.root_eq
  holds := h.holds.take n

end Slots.Represents

/-! ## Sequences of operations -/

theorem slotsInit_represents : slotsInit.Represents [] where
  size_eq := rfl
  capacity_eq := ⟨0, by decide, rfl⟩
  length_eq := rfl
  root_eq := rfl
  holds := holds_nil _

/-- What the machine does with the array; {lit}`truncate` is the assignment
{lit}`vm.slots.size = n` of the instruction RET. -/
inductive SlotsOp where
  | append (value : Word)
  | set (index : Nat) (value : Word)
  | get (index : Nat)
  | truncate (n : Nat)
deriving DecidableEq, Repr

namespace SlotsOp

/-- One operation on the array, with the value it returns. -/
def onSlots (slots : Slots) : SlotsOp → Outcome Slots (Slots × Option Word)
  | append value => do return (← slotsAppend slots value, none)
  | set index value => do return (← slotsSet slots index value, none)
  | get index => do
      let (slots, word) ← slotsGet slots index
      return (slots, some word)
  | truncate n => return ({ slots with size := n }, none)

/-- One operation on the abstract list; {lean}`none` stops the machine. -/
def onList (xs : List Word) : SlotsOp → Option (List Word × Option Word)
  | append value => some (xs ++ [value], none)
  | set index value => some (assign 0#64 xs index value, none)
  | get index => (xs[index]?).map fun word => (xs, some word)
  | truncate n => some (xs.take n, none)

/-- Indices stay below the largest capacity, and a truncation makes the array
smaller. -/
def Allowed (xs : List Word) : SlotsOp → Prop
  | append _ => xs.length < maxCapacity
  | set index _ => index < maxCapacity
  | get index => index < maxCapacity
  | truncate n => n < xs.length

instance (xs : List Word) : (op : SlotsOp) → Decidable (op.Allowed xs)
  | append _ => inferInstanceAs (Decidable (xs.length < maxCapacity))
  | set index _ => inferInstanceAs (Decidable (index < maxCapacity))
  | get index => inferInstanceAs (Decidable (index < maxCapacity))
  | truncate n => inferInstanceAs (Decidable (n < xs.length))

/-- An allowed operation acts on the array as on the list it represents, and
stops on the array exactly when it stops on the list. -/
theorem onSlots_refines {slots : Slots} {xs : List Word} (h : slots.Represents xs)
    (op : SlotsOp) (hop : op.Allowed xs) :
    match op.onList xs with
    | some (xs', out) =>
        ∃ slots', op.onSlots slots = .ok (slots', out) ∧ slots'.Represents xs'
    | none => ∃ slots' printed, op.onSlots slots = .error (.exit 1 slots' printed) := by
  cases op with
  | append value =>
      have happend := h.append value
      rw [if_pos (show xs.length < maxCapacity from hop)] at happend
      rcases happend with ⟨slots', hrun, hrep⟩
      exact ⟨slots', by simp only [onSlots, hrun]; rfl, hrep⟩
  | set index value =>
      have hset := h.set index value
      rw [if_pos (show index < maxCapacity from hop)] at hset
      rcases hset with ⟨slots', hrun, hrep⟩
      exact ⟨slots', by simp only [onSlots, hrun]; rfl, hrep⟩
  | get index =>
      rcases h.get index with ⟨slots', hrep, hget⟩
      simp only [onList, onSlots]
      cases hword : xs[index]? with
      | some word =>
          rw [hword] at hget
          exact ⟨slots', by simp only [hget]; rfl, hrep⟩
      | none =>
          rw [hword] at hget
          rcases hget with ⟨printed, hget⟩
          exact ⟨slots', printed, by simp only [hget]; rfl⟩
  | truncate n => exact ⟨_, rfl, h.truncate (Nat.le_of_lt hop)⟩

end SlotsOp

/-- Run operations on the array and collect the values read. -/
def runSlots : List SlotsOp → Slots → Outcome Slots (Slots × List Word)
  | [], slots => return (slots, [])
  | op :: ops, slots => do
      let (slots, out) ← op.onSlots slots
      let (slots, outs) ← runSlots ops slots
      return (slots, out.toList ++ outs)

/-- Run operations on the list and collect the values read; {lean}`none` when one
of them stops the machine. -/
def runList : List SlotsOp → List Word → Option (List Word × List Word)
  | [], xs => some (xs, [])
  | op :: ops, xs => do
      let (xs, out) ← op.onList xs
      let (xs, outs) ← runList ops xs
      return (xs, out.toList ++ outs)

/-- Every operation is allowed where the run reaches it. -/
def AllAllowed : List SlotsOp → List Word → Prop
  | [], _ => True
  | op :: ops, xs =>
      op.Allowed xs ∧ ∀ xs' out, op.onList xs = some (xs', out) → AllAllowed ops xs'

/-- From related states, a run of allowed operations ends in related states with
the same values read, or stops on both sides. -/
theorem runSlots_represents (ops : List SlotsOp) {slots : Slots} {xs : List Word}
    (h : slots.Represents xs) (hops : AllAllowed ops xs) :
    match runList ops xs with
    | some (xs', outs) =>
        ∃ slots', runSlots ops slots = .ok (slots', outs) ∧ slots'.Represents xs'
    | none => ∃ slots' printed, runSlots ops slots = .error (.exit 1 slots' printed) := by
  induction ops generalizing slots xs with
  | nil => exact ⟨slots, rfl, h⟩
  | cons op ops ih =>
      rcases hops with ⟨hop, hrest⟩
      have hstep := op.onSlots_refines h hop
      cases hlist : op.onList xs with
      | none =>
          rw [hlist] at hstep
          rcases hstep with ⟨slots', printed, hrun⟩
          simp only [runList, hlist, Option.bind_eq_bind, Option.bind_none]
          exact ⟨slots', printed, by simp only [runSlots, hrun]; rfl⟩
      | some result =>
          rcases result with ⟨xs', out⟩
          rw [hlist] at hstep
          rcases hstep with ⟨slots', hrun, hrep⟩
          have hih := ih hrep (hrest xs' out hlist)
          simp only [runList, hlist, Option.bind_eq_bind, Option.bind_some]
          cases htail : runList ops xs' with
          | none =>
              rw [htail] at hih
              rcases hih with ⟨stopped, printed, htailRun⟩
              exact ⟨stopped, printed, by simp only [runSlots, hrun, bind, Except.bind, htailRun]⟩
          | some tail =>
              rcases tail with ⟨xs'', outs⟩
              rw [htail] at hih
              rcases hih with ⟨last, htailRun, hlast⟩
              exact ⟨last, by simp only [runSlots, hrun, bind, Except.bind, htailRun]; rfl, hlast⟩

/-- Every allowed sequence of operations from {lit}`slots_init` reads the values of
the abstract list and stops exactly where the list does.  The size never passes
the capacity, which is ten times a power of two, and no copy leaves its block. -/
theorem runSlots_refines_list (ops : List SlotsOp) (hops : AllAllowed ops []) :
    match runList ops [] with
    | some (xs, outs) =>
        ∃ slots, runSlots ops slotsInit = .ok (slots, outs) ∧ slots.Represents xs ∧
          slots.size ≤ slots.capacity ∧ ∃ k, slots.capacity = 10 * 2 ^ k
    | none => ∃ slots printed, runSlots ops slotsInit = .error (.exit 1 slots printed) := by
  have hrun := runSlots_represents ops slotsInit_represents hops
  cases hlist : runList ops [] with
  | none => rwa [hlist] at hrun
  | some result =>
      rcases result with ⟨xs, outs⟩
      rw [hlist] at hrun
      rcases hrun with ⟨slots, hslots, hrep⟩
      rcases hrep.capacity_eq with ⟨k, _, hcap⟩
      exact ⟨slots, hslots, hrep, hrep.size_le_capacity, k, hcap⟩

/-- A run that grows the array by assignment, truncates it and reads from the
halved array. -/
theorem runSlots_grow_truncate_read :
    ∃ slots, runSlots [.append 5, .set 12 7, .truncate 2, .get 0] slotsInit =
        .ok (slots, [5]) ∧ slots.Represents [5, 0] ∧
      slots.size ≤ slots.capacity ∧ ∃ k, slots.capacity = 10 * 2 ^ k :=
  runSlots_refines_list [.append 5, .set 12 7, .truncate 2, .get 0] (by
    refine ⟨by decide, fun xs out h => ?_⟩
    cases h
    refine ⟨by decide, fun xs out h => ?_⟩
    cases h
    refine ⟨by decide, fun xs out h => ?_⟩
    cases h
    exact ⟨by decide, fun _ _ _ => trivial⟩)

end ClojitCvm
