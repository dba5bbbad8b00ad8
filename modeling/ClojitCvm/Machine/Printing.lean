import ClojitCvm.Machine.State

/-!
# Printing slots

The text that {lit}`println` and a failed call print.  An object prints its fields, so
printing follows the references between objects as deep as the native stack allows.
-/

namespace ClojitCvm

open Slot

/-- The C format {lit}`%d` applied to a builtin's address, of which it prints the low
half. -/
def formatPointer (p : Word) : String :=
  formatD (p.setWidth 32)

/-- The number of turns of the loop over the fields, which ends where the index is
{lit}`size / 8 - 1`. -/
def fieldTurns (size : Nat) : Nat :=
  (size / 8 + (2 ^ 32 - 1)) % 2 ^ 32

/-- The text of the values that hold no reference and no double, as {lit}`print_slot`
and {lit}`println_slot` agree on it. -/
def immediateText (slot : Word) : Option String :=
  if isFnew slot then some ("fn" ++ formatD ((getFnew slot).signExtend 32))
  else if isBuiltin slot then some ("bfn" ++ formatPointer (getBuiltin slot))
  else if isType slot then some ("t" ++ formatD ((getType slot).setWidth 32))
  else none

/-- The text of an object, given the way to print a field. -/
def printObject (host : Host) (vm : VM) (printField : Word → Outcome VM String)
    (slot : Word) : Outcome VM String := do
  let obj := slot.toNat
  let cljtype ← vm.loadThrough host obj (obj + 2) 2
  let size ← vm.loadThrough host obj (obj + 4) 4
  let fields ← (List.range (fieldTurns size)).mapM fun i => do
    let word ← vm.loadRef host obj i
    printField word
  return "( [cljtype: " ++ toString cljtype ++ ", size: " ++ formatD (.ofNat 32 size) ++ "] " ++
    String.join fields ++ ") "

/-- The function {lit}`print_slot`, with a bound on the depth of the recursion. -/
def printSlot (host : Host) (vm : VM) : (depth : Nat) → Word → Outcome VM String
  | 0, _ => .error (.fault .nativeStack)
  | depth + 1, slot =>
      if isSmallInt slot then .ok ("i" ++ formatD (getSmallInt slot))
      else if isNil slot then .ok "n0"
      else
        match immediateText slot with
        | some text => .ok text
        | none =>
            if isPointer slot then printObject host vm (printSlot host vm depth) slot
            else if isDouble slot then do
              let (_, d) ← vm.getDouble host slot
              return "f" ++ host.float.format d
            else .ok "-"

/-- The function {lit}`println_slot`.  Its format for doubles has no conversion. -/
def printlnSlot (host : Host) (vm : VM) (slot : Word) : Outcome VM String :=
  if isSmallInt slot then .ok (formatD (getSmallInt slot))
  else if isNil slot then .ok "nil"
  else
    match immediateText slot with
    | some text => .ok text
    | none =>
        if isPointer slot then printObject host vm (printSlot host vm host.nativeLimit) slot
        else if isDouble slot then do
          let _ ← vm.getDouble host slot
          return "f%"
        else .ok ""

/-- The loop of {lit}`print_slots` from an index on.  It ends when the incremented index is
the size, and overruns when the index, an {lit}`int`, cannot be incremented any more. -/
def printSlotsFrom (host : Host) (base : Nat) : (turns index : Nat) → VM → Outcome VM VM
  | 0, _, _ => .error (.fault .overrun)
  | turns + 1, index, vm => do
      let vm := if base = index then vm.print "| " else vm
      if index < vm.slots.size then
        let (slots, word) ← vm.onSlots (slotsGet vm.slots index)
        let vm := { vm with slots := slots }
        let text ← printSlot host vm host.nativeLimit word
        let vm := (vm.print text).print " "
        if index + 1 = vm.slots.size then return vm.print "\n"
        else printSlotsFrom host base turns (index + 1) vm
      else printSlotsFrom host base turns (index + 1) vm

def printSlots (host : Host) (vm : VM) (base : Nat) : Outcome VM VM :=
  printSlotsFrom host base intMax.toNat 0 vm

end ClojitCvm
