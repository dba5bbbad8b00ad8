import ClojitCvm.Slots.Refinement

/-!
# The cost of growing and shrinking

This module instruments the operations of the slot array rather than introducing other
ones.  A counted array carries two counters: the calls of {lit}`slots_append`, and the
elements copied by {lit}`slots_half_capacity` and {lit}`slots_double_capacity_if_full`.

Every append brings twenty units and every copied element takes five.  What is left is
kept by the array: three for each cell beyond the first ten, and twenty for each slot
beyond six tenths of the capacity.

Main results:

- Theorem {lit}`erase_countedOp`: without the counters the operations are the real ones.
- Theorem {lit}`Counted.Paid.op`: every operation is paid for by the appends so far.
- Theorem {lit}`moved_le_appends`: in every state reached, no more than four elements
  were copied for each append.
-/

namespace ClojitCvm

open CellArray Slot

/-! ## Counting copies -/

/-- The array with the number of appends and of copied elements so far. -/
structure Counted where
  slots : Slots
  appends : Nat
  moved : Nat

/-- The elements that {lit}`slots_double_capacity_if_full` copies. -/
def movedByDoubling (slots : Slots) : Nat :=
  if slots.size ≥ slots.capacity then slots.size else 0

/-- The elements that the first statement of {lit}`slots_get` copies. -/
def movedByHalving (slots : Slots) : Nat :=
  if sparse slots then slots.size else 0

/-- Attach counters to the outcome of an operation, also where the process exits. -/
def attach (appends moved : Nat) : Outcome Slots Slots → Outcome Counted Counted
  | .ok slots => .ok ⟨slots, appends, moved⟩
  | .error (.exit status slots printed) => .error (.exit status ⟨slots, appends, moved⟩ printed)
  | .error (.fault why) => .error (.fault why)

def countedAppend (c : Counted) (value : Word) : Outcome Counted Counted :=
  attach (c.appends + 1) (c.moved + movedByDoubling c.slots) (slotsAppend c.slots value)

def countedGet (c : Counted) (index : Nat) : Outcome Counted Counted :=
  attach c.appends (c.moved + movedByHalving c.slots)
    ((slotsGet c.slots index).map Prod.fst)

/-- The loop of {lit}`slots_set`, append by append. -/
def countedAppendUntil (index : Nat) : Nat → Counted → Outcome Counted Counted
  | 0, c => .ok c
  | turns + 1, c =>
      if index ≥ c.slots.size then do
        let c ← countedAppend c 0#64
        countedAppendUntil index turns c
      else .ok c

def countedSet (c : Counted) (index : Nat) (value : Word) : Outcome Counted Counted := do
  let c ← countedAppendUntil index (index + 1 - c.slots.size) c
  match store c.slots.data index value with
  | none => .error (.fault .overrun)
  | some data => .ok { c with slots := { c.slots with data := data } }

/-- One operation with its counters. -/
def countedOp (c : Counted) : SlotsOp → Outcome Counted Counted
  | .append value => countedAppend c value
  | .set index value => countedSet c index value
  | .get index => countedGet c index
  | .truncate n => .ok { c with slots := { c.slots with size := n } }

/-- The outcome without the counters. -/
def erase : Outcome Counted Counted → Outcome Slots Slots
  | .ok c => .ok c.slots
  | .error (.exit status c printed) => .error (.exit status c.slots printed)
  | .error (.fault why) => .error (.fault why)

theorem erase_attach (appends moved : Nat) (x : Outcome Slots Slots) :
    erase (attach appends moved x) = x := by
  rcases x with (⟨status, slots, printed⟩ | why) | slots <;> rfl

/-- A sequence is erased part by part. -/
theorem erase_bind {x : Outcome Counted Counted} {f : Counted → Outcome Counted Counted}
    {g : Slots → Outcome Slots Slots} (hf : ∀ c, erase (f c) = g c.slots) :
    erase (x >>= f) = (erase x >>= g) := by
  rcases x with (⟨status, c, printed⟩ | why) | c
  · rfl
  · rfl
  · exact hf c

theorem erase_countedAppendUntil (index turns : Nat) (c : Counted) :
    erase (countedAppendUntil index turns c) = appendUntil index turns c.slots := by
  induction turns generalizing c with
  | zero => rfl
  | succ turns ih =>
      unfold countedAppendUntil appendUntil
      split
      · rw [erase_bind ih, countedAppend, erase_attach]
      · rfl

theorem erase_countedSet (c : Counted) (index : Nat) (value : Word) :
    erase (countedSet c index value) = slotsSet c.slots index value := by
  unfold countedSet slotsSet
  rw [← erase_countedAppendUntil]
  apply erase_bind
  intro c
  cases store c.slots.data index value <;> rfl

/-- Without the counters the operations are the real ones. -/
theorem erase_countedOp (c : Counted) (op : SlotsOp) :
    erase (countedOp c op) = (op.onSlots c.slots).map Prod.fst := by
  cases op with
  | append value =>
      rw [countedOp, countedAppend, erase_attach, SlotsOp.onSlots]
      cases slotsAppend c.slots value <;> rfl
  | set index value =>
      rw [countedOp, erase_countedSet, SlotsOp.onSlots]
      cases slotsSet c.slots index value <;> rfl
  | get index =>
      rw [countedOp, countedGet, erase_attach, SlotsOp.onSlots]
      cases slotsGet c.slots index <;> rfl
  | truncate n => rfl

/-! ## Sizes and capacities -/

section Sizes

variable {slots slots' : Slots} {xs : List Word}

/-- An append adds a slot, and doubles the capacity if the array was full. -/
theorem Slots.Represents.sizes_of_append (h : slots.Represents xs) {value : Word}
    (hok : slotsAppend slots value = .ok slots') :
    slots'.Represents (xs ++ [value]) ∧ slots'.size = slots.size + 1 ∧
      slots'.capacity =
        if slots.size ≥ slots.capacity then 2 * slots.capacity else slots.capacity := by
  rcases of_eq_ok (h.append value) hok with ⟨hlt, hrep⟩
  refine ⟨hrep, ?_, ?_⟩
  · rw [hrep.size_eq, h.size_eq, List.length_append, List.length_singleton]
  · rcases bind_eq_ok.mp hok with ⟨doubled, hdouble, hstore⟩
    have hcap : slots'.capacity = doubled.capacity := by
      split at hstore
      · cases hstore
      · cases hstore
        rfl
    rw [hcap]
    unfold slotsDoubleCapacityIfFull at hdouble
    split at hdouble
    · next hfull =>
      have hle := h.size_le_capacity
      have hsize := h.size_eq
      rcases h.capacity_eq with ⟨k, hk, hcap⟩
      unfold maxCapacity at hlt
      have hlast : k ≠ 28 := by
        rintro rfl
        omega
      have hpow : (2 : Nat) ^ k ≤ 2 ^ 27 := Nat.pow_le_pow_right (by decide) (by omega)
      rw [moveTo_capacity hdouble, if_pos hfull, Nat.mul_comm]
      exact Nat.mod_eq_of_lt (by omega)
    · next hroom =>
      cases hdouble
      rw [if_neg hroom]

/-- A read keeps the size, and halves the capacity if the array is sparse. -/
theorem Slots.Represents.sizes_of_halve (h : slots.Represents xs)
    (hok : halveIfSparse slots = .ok slots') :
    slots'.Represents xs ∧ slots'.size = slots.size ∧
      slots'.capacity = if sparse slots then slots.capacity / 2 else slots.capacity := by
  rcases h.halve with ⟨halved, hrun, hrep⟩
  rw [hok] at hrun
  cases hrun
  refine ⟨hrep, hrep.size_eq.trans h.size_eq.symm, ?_⟩
  unfold halveIfSparse at hok
  split at hok
  · next hsparse => rw [moveTo_capacity hok, if_pos hsparse]
  · next hdense =>
    cases hok
    rw [if_neg hdense]

end Sizes

/-! ## What the appends pay for -/

/-- What the array keeps: three units for each cell beyond the first ten, and twenty for
each slot beyond six tenths of the capacity. -/
def potential (slots : Slots) : Nat :=
  3 * (slots.capacity - 10) + (20 * slots.size - 12 * slots.capacity)

/-- The array is in order, and the appends paid for the copies and for what the array
keeps. -/
structure Counted.Paid (c : Counted) : Prop where
  inOrder : ∃ xs, c.slots.Represents xs
  paid : 5 * c.moved + potential c.slots ≤ 20 * c.appends

namespace Counted.Paid

variable {c c' : Counted}

theorem moved_le (h : c.Paid) : c.moved ≤ 4 * c.appends := by
  have := h.paid
  omega

/-- The capacity is even and at least ten. -/
theorem capacity (h : c.Paid) :
    10 ≤ c.slots.capacity ∧ 2 * (c.slots.capacity / 2) = c.slots.capacity := by
  rcases h.inOrder with ⟨xs, hrep⟩
  rcases hrep.capacity_eq with ⟨k, _, hcap⟩
  have := Nat.two_pow_pos k
  rw [hcap]
  omega

/-- An append that doubles copies the full array, which has kept eight units for each of
its cells since the capacity changed last. -/
theorem append (h : c.Paid) {value : Word} {slots : Slots}
    (hok : slotsAppend c.slots value = .ok slots) :
    Counted.Paid ⟨slots, c.appends + 1, c.moved + movedByDoubling c.slots⟩ := by
  rcases h.inOrder with ⟨xs, hrep⟩
  rcases hrep.sizes_of_append hok with ⟨hrep', hsize, hcap⟩
  refine ⟨⟨_, hrep'⟩, ?_⟩
  have hpaid := h.paid
  have hle := hrep.size_le_capacity
  have hten := h.capacity.1
  simp only [potential, movedByDoubling, hsize, hcap] at hpaid ⊢
  split
  · omega
  · omega

/-- A read that halves copies at most three tenths of the capacity, and frees half of
it. -/
theorem halve (h : c.Paid) {slots : Slots} (hok : halveIfSparse c.slots = .ok slots) :
    Counted.Paid ⟨slots, c.appends, c.moved + movedByHalving c.slots⟩ := by
  rcases h.inOrder with ⟨xs, hrep⟩
  rcases hrep.sizes_of_halve hok with ⟨hrep', hsize, hcap⟩
  refine ⟨⟨_, hrep'⟩, ?_⟩
  have hpaid := h.paid
  have heven := h.capacity.2
  have hten := h.capacity.1
  have hsparse := hrep.sparse_iff
  simp only [potential, movedByHalving, hsize, hcap] at hpaid ⊢
  by_cases hhalve : sparse c.slots = true
  · rw [if_pos hhalve, if_pos hhalve]
    rcases hsparse.mp hhalve with ⟨hne, hle⟩
    rcases hrep.capacity_eq with ⟨k, _, hcapacity⟩
    have htwenty : 20 ≤ c.slots.capacity := by
      cases k with
      | zero => exact absurd hcapacity hne
      | succ k =>
          have := Nat.two_pow_pos k
          rw [hcapacity, Nat.pow_succ]
          omega
    omega
  · rw [if_neg hhalve, if_neg hhalve]
    omega

/-- An array that is no larger, with the capacity as it was, costs nothing. -/
theorem shrink (h : c.Paid) {slots : Slots} {xs : List Word} (hrep : slots.Represents xs)
    (hsize : slots.size ≤ c.slots.size) (hcap : slots.capacity = c.slots.capacity) :
    Counted.Paid { c with slots := slots } := by
  refine ⟨⟨xs, hrep⟩, ?_⟩
  have hpaid := h.paid
  simp only [potential, hcap] at hpaid ⊢
  omega

end Counted.Paid

/-- The counters are paid for if the operation returns, and if the process exits. -/
def PaidFor (x : Outcome Counted Counted) : Prop :=
  Ends x Counted.Paid fun _ c _ => c.Paid

/-- Counters attached to an outcome are paid for if they are in both cases. -/
theorem paidFor_attach {appends moved : Nat} {x : Outcome Slots Slots}
    (h : Ends x (fun slots => Counted.Paid ⟨slots, appends, moved⟩)
      fun _ slots _ => Counted.Paid ⟨slots, appends, moved⟩) :
    PaidFor (attach appends moved x) := by
  rcases x with (⟨status, slots, printed⟩ | why) | slots
  · exact h
  · exact trivial
  · exact h

namespace Counted.Paid

variable {c : Counted}

theorem countedAppend (h : c.Paid) (value : Word) :
    PaidFor (ClojitCvm.countedAppend c value) := by
  apply paidFor_attach
  rcases h.inOrder with ⟨xs, hrep⟩
  have happend := hrep.append value
  cases hrun : slotsAppend c.slots value with
  | ok slots => exact h.append hrun
  | error halt =>
      -- an append that does not return overran the largest capacity
      rw [hrun] at happend
      split at happend
      · rcases happend with ⟨slots, hok, _⟩
        cases hok
      · cases happend
        exact trivial

theorem countedAppendUntil (h : c.Paid) (index turns : Nat) :
    PaidFor (ClojitCvm.countedAppendUntil index turns c) := by
  induction turns generalizing c with
  | zero => exact h
  | succ turns ih =>
      unfold ClojitCvm.countedAppendUntil
      split
      · exact (h.countedAppend 0#64).bind fun c hc => ih hc
      · exact h

/-- A store inside the block. -/
theorem store (h : c.Paid) {index : Nat} {value : Word} {data : Cells Word}
    (hstore : CellArray.store c.slots.data index value = some data) :
    Counted.Paid { c with slots := { c.slots with data := data } } := by
  rcases h.inOrder with ⟨xs, hrep⟩
  have hdata : data = c.slots.data.set index (some value) := by
    unfold CellArray.store at hstore
    split at hstore
    · exact (Option.some.inj hstore).symm
    · cases hstore
  subst hdata
  have hholds : Holds (c.slots.data.set index (some value)) (xs.set index value) := by
    have hholds := hrep.holds
    unfold Holds at hholds ⊢
    rw [List.length_set, List.take_set, hholds, List.map_set]
  have hkept : ({ c.slots with data := c.slots.data.set index (some value) } : Slots).Represents
      (xs.set index value) :=
    { size_eq := hrep.size_eq.trans List.length_set.symm
      capacity_eq := hrep.capacity_eq
      length_eq := List.length_set.trans hrep.length_eq
      root_eq := hrep.root_eq
      holds := hholds }
  exact h.shrink hkept (Nat.le_refl _) rfl

theorem countedSet (h : c.Paid) (index : Nat) (value : Word) :
    PaidFor (ClojitCvm.countedSet c index value) := by
  refine (h.countedAppendUntil index (index + 1 - c.slots.size)).bind fun c hc => ?_
  split
  · exact trivial
  · next data hstore => exact hc.store hstore

theorem countedGet (h : c.Paid) (index : Nat) : PaidFor (ClojitCvm.countedGet c index) := by
  apply paidFor_attach
  rcases h.inOrder with ⟨xs, hrep⟩
  obtain ⟨halved, hhalve, _⟩ := hrep.halve
  have hpaid := h.halve hhalve
  unfold slotsGet
  rw [hhalve]
  simp only [bind, Except.bind]
  split
  · exact hpaid
  · split
    · exact trivial
    · exact hpaid

/-- Every operation is paid for, as long as truncations make the array smaller. -/
theorem op (h : c.Paid) (op : SlotsOp) (hop : ∀ n, op = .truncate n → n < c.slots.size) :
    PaidFor (countedOp c op) := by
  cases op with
  | append value => exact h.countedAppend value
  | set index value => exact h.countedSet index value
  | get index => exact h.countedGet index
  | truncate n =>
      have hn := hop n rfl
      rcases h.inOrder with ⟨xs, hrep⟩
      have hle : n ≤ xs.length := by
        rw [← hrep.size_eq]
        exact Nat.le_of_lt hn
      exact h.shrink (hrep.truncate hle) (Nat.le_of_lt hn) rfl

end Counted.Paid

/-! ## Sequences of operations -/

/-- The array of {lit}`slots_init`, before any append. -/
def countedInit : Counted :=
  ⟨slotsInit, 0, 0⟩

/-- The states that sequences of operations go through.  A truncation makes the array
smaller; an operation that wraps the capacity leads nowhere. -/
inductive CountedReach : Counted → Prop where
  | init : CountedReach countedInit
  | op {c c' : Counted} (op : SlotsOp) :
      CountedReach c → (∀ n, op = .truncate n → n < c.slots.size) →
        countedOp c op = .ok c' → CountedReach c'
  | exit {c c' : Counted} {status : Nat} {printed : List String} (op : SlotsOp) :
      CountedReach c → (∀ n, op = .truncate n → n < c.slots.size) →
        countedOp c op = .error (.exit status c' printed) → CountedReach c'

theorem CountedReach.paid {c : Counted} (h : CountedReach c) : c.Paid := by
  induction h with
  | init => exact ⟨⟨[], slotsInit_represents⟩, by decide⟩
  | op op _ hop hok ih => exact (ih.op op hop).ok hok
  | exit op _ hop hexit ih => exact (ih.op op hop).exit hexit

/-- However appends, assignments, reads and truncations follow each other, no more than
four elements are copied for each append. -/
theorem moved_le_appends {c : Counted} (h : CountedReach c) : c.moved ≤ 4 * c.appends :=
  h.paid.moved_le

/-- Eleven appends double the array, and a read of three slots halves it. -/
theorem grow_truncate_read_moved :
    ∃ c, CountedReach c ∧ c.appends = 11 ∧ c.moved = 13 ∧ c.moved ≤ 4 * c.appends := by
  have hgrown : CountedReach _ := .op (.set 10 7) .init nofun rfl
  have htruncated : CountedReach _ := .op (.truncate 3) hgrown
    (fun n hn => by cases hn; decide) rfl
  have hread : CountedReach _ := .op (.get 0) htruncated nofun rfl
  exact ⟨_, hread, rfl, rfl, moved_le_appends hread⟩

end ClojitCvm
