import ClojitCvm.Outcome
import ClojitCvm.Lib.CellArray
import ClojitCvm.Slot.Encoding

/-!
# The slot array

The growable array of {lit}`slots.c`: appending doubles a full array, reading
halves a sparse one, and assigning past the end appends nil first.  Every array
is a fresh block whose cells hold nothing until they are written, and every block
is registered with the collector as a root table.

The memory pool system may refuse a root table.  The functions print a line of their
own then and go on with the handle they have; what the pool system does with such a
handle is not known, and here it does nothing.  The calls are logged, and the result
of each is a matter of the host.
-/

namespace ClojitCvm

open CellArray Slot

/-- The exact root table the collector scans: a block and a number of words. -/
structure RootTable where
  block : Nat
  count : Nat
deriving DecidableEq, Repr

/-- The functions that call {lit}`mps_root_create_table_masked`. -/
inductive RootCall where
  | slotsInit
  | slotsHalfCapacity
  | slotsDoubleCapacityIfFull
deriving DecidableEq, Repr

/-- What a function prints if its call is refused.  The texts of the last two are
exchanged in the source. -/
def RootCall.refusal : RootCall → String
  | slotsInit => "Couldn't create slots roots"
  | slotsHalfCapacity => "Couldn't create root for increased slots\n"
  | slotsDoubleCapacityIfFull => "Couldn't create root for decreased slots\n"

/-- {lit}`data` is the array, {lit}`block` the identity of its memory, {lit}`rootO` the
table that was passed to the last call for a root and {lit}`rootCalls` the log of these
calls. -/
structure Slots where
  size : Nat
  capacity : Nat
  rootO : RootTable
  block : Nat
  data : Cells Word
  rootCalls : List RootCall
deriving DecidableEq, Repr

/-- The constant {lit}`SLOTS_INITIAL_CAPACITY`. -/
def slotsInitialCapacity : Nat := 10

/-- The function {lit}`slots_init`: a fresh array, which is registered as a whole. -/
def slotsInit : Slots where
  size := 0
  capacity := slotsInitialCapacity
  rootO := ⟨0, slotsInitialCapacity⟩
  block := 0
  data := malloc slotsInitialCapacity
  rootCalls := [.slotsInit]

/-- Move the contents to a fresh block of the given capacity and register it;
the common part of {lit}`slots_half_capacity` and
{lit}`slots_double_capacity_if_full`, which differ in what they print if the root is
refused.  Copying more elements than the new block holds is an overrun. -/
def moveTo (slots : Slots) (capacity : Nat) (call : RootCall) : Outcome Slots Slots :=
  match copy slots.data (malloc capacity) slots.size with
  | none => .error (.fault .overrun)
  | some data =>
      .ok { slots with
        capacity := capacity
        block := slots.block + 1
        rootO := ⟨slots.block + 1, capacity⟩
        data := data
        rootCalls := slots.rootCalls ++ [call] }

/-- The function {lit}`slots_half_capacity`. -/
def slotsHalfCapacity (slots : Slots) : Outcome Slots Slots :=
  moveTo slots (slots.capacity / 2) .slotsHalfCapacity

/-- The capacity is a {lit}`uint32_t`, so doubling it can wrap. -/
def slotsDoubleCapacityIfFull (slots : Slots) : Outcome Slots Slots :=
  if slots.size ≥ slots.capacity then
    moveTo slots (slots.capacity * 2 % 2 ^ 32) .slotsDoubleCapacityIfFull
  else .ok slots

/-- The function {lit}`slots_append`. -/
def slotsAppend (slots : Slots) (value : Word) : Outcome Slots Slots := do
  let slots ← slotsDoubleCapacityIfFull slots
  match store slots.data slots.size value with
  | none => .error (.fault .overrun)
  | some data => .ok { slots with data := data, size := (slots.size + 1) % 2 ^ 32 }

/-- The test {lit}`((uint32_t)(capacity / 2) * 0.6) >= size`, in tenths. -/
def sparse (slots : Slots) : Bool :=
  slots.capacity != slotsInitialCapacity &&
    decide (6 * (slots.capacity / 2) ≥ 10 * slots.size)

/-- The first statement of {lit}`slots_get`. -/
def halveIfSparse (slots : Slots) : Outcome Slots Slots :=
  if sparse slots then slotsHalfCapacity slots else .ok slots

/-- The function {lit}`slots_get`: a sparse array is halved in front of the check of the
index. -/
def slotsGet (slots : Slots) (index : Nat) : Outcome Slots (Slots × Word) := do
  let slots ← halveIfSparse slots
  if index ≥ slots.size then
    .error (.exit 1 slots
      ["Index " ++ formatD (.ofNat 32 index) ++ " out of bounds for slots of size " ++
        formatD (.ofNat 32 slots.size) ++ "\n"])
  else
    match load slots.data index with
    | none => .error (.fault .uninitialized)
    | some word => .ok (slots, word)

/-- The loop {lit}`while (index >= slots->size) slots_append(slots, 0)`.  Each
turn adds one slot, so {lit}`turns` bounds the number left. -/
def appendUntil (index : Nat) : Nat → Slots → Outcome Slots Slots
  | 0, slots => .ok slots
  | turns + 1, slots =>
      if index ≥ slots.size then do
        let slots ← slotsAppend slots 0#64
        appendUntil index turns slots
      else .ok slots

/-- The function {lit}`slots_set`: a gap in front of the index is filled with nil. -/
def slotsSet (slots : Slots) (index : Nat) (value : Word) : Outcome Slots Slots := do
  let slots ← appendUntil index (index + 1 - slots.size) slots
  match store slots.data index value with
  | none => .error (.fault .overrun)
  | some data => .ok { slots with data := data }

end ClojitCvm
