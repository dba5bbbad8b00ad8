import ClojitCvm.Outcome
import ClojitCvm.Lib.CellArray
import Mathlib.Algebra.Ring.Int.Defs
import Mathlib.Algebra.Ring.Nat

/-!
# The context stack

The growable array of {lit}`stack.c` that holds the contexts of the callers.  A push
doubles a full array with {lit}`realloc`, and a pop of the empty stack ends the
process.

Main results:

- The structure {lit}`Stack.Represents`: the invariant of the array together with the
  list of contexts it stands for, the oldest first.
- Theorems {lit}`Stack.Represents.push` and {lit}`Stack.Represents.pop`: one rule for
  each operation.
-/

namespace ClojitCvm

open CellArray

/-- What a call saves: the base slot of the caller and its instruction pointer. -/
structure Context where
  baseSlot : Nat
  ip : BitVec 32
deriving DecidableEq, Repr

/-- {lit}`top` and {lit}`capacity` are C {lit}`int`s. -/
structure Stack where
  top : Int
  capacity : Int
  data : Cells Context
deriving DecidableEq, Repr

/-- The constant {lit}`STACK_INITIAL_CAPACITY`. -/
def stackInitialCapacity : Nat := 10

/-- The C constant {lit}`INT_MAX`. -/
def intMax : Int := 2 ^ 31 - 1

/-- An empty stack has its top at zero. -/
def stackInit : Stack where
  top := 0
  capacity := stackInitialCapacity
  data := malloc stackInitialCapacity

/-- Doubling the capacity can pass {lit}`INT_MAX`; {lit}`realloc` keeps the old cells. -/
def stackDoubleCapacityIfFull (stack : Stack) : Outcome Stack Stack :=
  if stack.top ≥ stack.capacity then
    if stack.capacity * 2 > intMax then .error (.fault .overrun)
    else .ok { stack with
      capacity := stack.capacity * 2
      data := stack.data ++ malloc stack.data.length }
  else .ok stack

/-- The array is doubled in front of the write. -/
def push (stack : Stack) (ctx : Context) : Outcome Stack Stack := do
  let stack ← stackDoubleCapacityIfFull stack
  match store stack.data stack.top.toNat ctx with
  | none => .error (.fault .overrun)
  | some data => .ok { stack with data := data, top := stack.top + 1 }

/-- The top is lowered before it is checked. -/
def pop (stack : Stack) : Outcome Stack (Stack × Context) :=
  let stack := { stack with top := stack.top - 1 }
  if stack.top < 0 then
    .error (.exit 1 stack
      ["Index " ++ toString stack.top ++ " out of bounds for stack of top " ++
        toString stack.top ++ "\n"])
  else
    match load stack.data stack.top.toNat with
    | none => .error (.fault .uninitialized)
    | some ctx => .ok (stack, ctx)

/-! ## The stack as a list -/

/-- The largest number of contexts, ten times a power of two below
{lit}`INT_MAX`. -/
def maxDepth : Nat := 10 * 2 ^ 27

/-- The array is in order and its used part is the given list. -/
structure Stack.Represents (stack : Stack) (ctxs : List Context) : Prop where
  top_eq : stack.top = ctxs.length
  capacity_eq : ∃ k ≤ 27, stack.capacity = ((10 * 2 ^ k : Nat) : Int)
  length_eq : (stack.data.length : Int) = stack.capacity
  holds : Holds stack.data ctxs

/-- A new stack is the empty list. -/
theorem stackInit_represents : stackInit.Represents [] where
  top_eq := rfl
  capacity_eq := ⟨0, by decide, rfl⟩
  length_eq := rfl
  holds := holds_nil _

namespace Stack.Represents

variable {stack stack' : Stack} {ctxs : List Context} {ctx : Context}

/-- The top counts the contexts. -/
theorem top_nonneg (h : stack.Represents ctxs) : 0 ≤ stack.top := by
  rw [h.top_eq]
  exact Int.natCast_nonneg _

/-- The contexts are in the array. -/
theorem top_le_capacity (h : stack.Represents ctxs) : stack.top ≤ stack.capacity := by
  rw [h.top_eq, ← h.length_eq]
  exact_mod_cast h.holds.length_le

/-- Making room keeps the list, as long as the capacity can double. -/
theorem double (h : stack.Represents ctxs) (hlt : ctxs.length < maxDepth) :
    ∃ stack', stackDoubleCapacityIfFull stack = .ok stack' ∧ stack'.Represents ctxs ∧
      ctxs.length < stack'.data.length := by
  rcases h.capacity_eq with ⟨k, hk, hcap⟩
  have htop := h.top_eq
  have hlength := h.length_eq
  unfold stackDoubleCapacityIfFull
  split
  · next hfull =>
    have hlt27 : k < 27 := by
      by_contra hge
      rw [show k = 27 by omega] at hcap
      unfold maxDepth at hlt
      omega
    have hpow : 2 ^ k ≤ 2 ^ 26 := Nat.pow_le_pow_right (by decide) (by omega)
    rw [if_neg (by unfold intMax; omega)]
    refine ⟨_, rfl, ⟨htop, ⟨k + 1, hlt27, ?_⟩, ?_, ?_⟩, ?_⟩
    · change stack.capacity * 2 = _
      rw [hcap, Nat.pow_succ]
      push_cast
      omega
    · simp only [List.length_append, length_malloc]
      push_cast
      omega
    · have hle := h.holds.length_le
      have hholds := h.holds
      unfold Holds at hholds ⊢
      rw [List.take_append_of_le_length hle, hholds]
    · simp only [List.length_append, length_malloc]
      have hpos : 0 < 2 ^ k := Nat.two_pow_pos k
      have hle := h.top_le_capacity
      omega
  · next hroom => exact ⟨stack, rfl, h, by omega⟩

/-- A push adds at the end of the list, up to the largest depth. -/
theorem push (h : stack.Represents ctxs) (hlt : ctxs.length < maxDepth) (ctx : Context) :
    ∃ stack', ClojitCvm.push stack ctx = .ok stack' ∧ stack'.Represents (ctxs ++ [ctx]) := by
  obtain ⟨grown, hdouble, hrep, hroom⟩ := h.double hlt
  obtain ⟨data, hstore, hlength, hholds⟩ := hrep.holds.store_append (v := ctx) hroom
  have htop : grown.top.toNat = ctxs.length := by
    rw [hrep.top_eq]
    rfl
  simp only [ClojitCvm.push, hdouble, bind, Except.bind, htop, hstore]
  refine ⟨_, rfl, ?_, hrep.capacity_eq, ?_, hholds⟩
  · simp [hrep.top_eq]
  · rw [hlength]
    exact hrep.length_eq

/-- A full stack of the largest depth cannot grow. -/
theorem push_overrun (h : stack.Represents ctxs) (hge : maxDepth ≤ ctxs.length)
    (ctx : Context) : ClojitCvm.push stack ctx = .error (.fault .overrun) := by
  rcases h.capacity_eq with ⟨k, hk, hcap⟩
  have hpow : 2 ^ k ≤ 2 ^ 27 := Nat.pow_le_pow_right (by decide) hk
  have htop := h.top_eq
  have hle := h.top_le_capacity
  have hdouble : stackDoubleCapacityIfFull stack = .error (.fault .overrun) := by
    unfold maxDepth at hge
    rw [stackDoubleCapacityIfFull, if_pos (by omega), if_pos (by unfold intMax; omega)]
  simp only [ClojitCvm.push, hdouble, bind, Except.bind]

/-- A pop takes the last context, and ends the process on the empty list. -/
theorem pop (h : stack.Represents ctxs) :
    match ctxs.getLast? with
    | some ctx => ∃ stack', ClojitCvm.pop stack = .ok (stack', ctx) ∧
        stack'.Represents ctxs.dropLast
    | none => ∃ stack' printed, ClojitCvm.pop stack = .error (.exit 1 stack' printed) := by
  have htop := h.top_eq
  rcases List.eq_nil_or_concat ctxs with rfl | ⟨front, last, hctxs⟩
  · simp only [List.getLast?_nil, ClojitCvm.pop]
    exact ⟨_, _, if_pos (by simp at htop; omega)⟩
  · rw [List.concat_eq_append] at hctxs
    subst hctxs
    have hlast : stack.top - 1 = front.length := by
      rw [htop]
      simp
    have hload : load stack.data front.length = some last := by
      rw [h.holds.load (by simp)]
      simp
    simp only [List.getLast?_concat, List.dropLast_concat, ClojitCvm.pop, hlast,
      Int.toNat_natCast, hload]
    refine ⟨_, if_neg (by omega), rfl, h.capacity_eq, h.length_eq, ?_⟩
    have htake := h.holds.take front.length
    rwa [List.take_left] at htake

end Stack.Represents

end ClojitCvm
