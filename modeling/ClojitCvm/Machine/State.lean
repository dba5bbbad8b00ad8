import ClojitCvm.Heap.ObjectFormat
import ClojitCvm.Lib.KeyTable
import ClojitCvm.Lib.MarkedTexts
import ClojitCvm.Loader.Sections
import ClojitCvm.Machine.ContextStack
import ClojitCvm.Slots.Storage

/-!
# The machine's state

The state of the machine is {lit}`struct vm` with the object heap and the text printed
so far.  What the machine finds around it is the host: the mapped program file, the
arithmetic of doubles, the address of the builtin function, the memory pool system
and the memory behind the type records.

The state also logs which slots and fields were stored to, and which texts were printed
between which calls of the memory pool system.  The logs are not part of the source; no
instruction reads them.

Main results:

- Definitions {lit}`VM.get`, {lit}`VM.set`, {lit}`VM.pushContext` and {lit}`VM.popContext`:
  the operations of the machine on its parts.
- Definition {lit}`vmInit`: the first state of the machine.
- Definition {lit}`VM.output`: all that was written to the standard output.
-/

namespace ClojitCvm

open ByteMemory ChainedHash KeyTable Slot

/-! ## The host -/

/-- A block of the object heap. -/
structure Block where
  addr : Nat
  size : Nat
deriving DecidableEq, Repr

/-- Two ranges of addresses have no address in common. -/
def Apart (a n b m : Nat) : Prop :=
  a + n ≤ b ∨ b + m ≤ a

/-- The C operations on doubles. -/
structure FloatOps where
  add : Double → Double → Double
  sub : Double → Double → Double
  mul : Double → Double → Double
  div : Double → Double → Double
  ofInt : BitVec 32 → Double
  eq : Double → Double → Bool
  /-- The format {lit}`%.2f`. -/
  format : Double → String

/-- The calls of the memory pool system that create what the machine needs: those of
{lit}`vm_init` and the ones for root tables. -/
inductive MpsCall where
  | createVmArea
  | chainCreate
  | threadReg
  | rootCreateReg
  | createObjFmt
  | createAmcPool
  | createAmcAp
  | createAmczPool
  | createAmczAp
  | rootCreateTableMasked (caller : RootCall)
deriving DecidableEq, Repr

/-- What is printed if the call is refused. -/
def MpsCall.refusal : MpsCall → String
  | createVmArea => "Couldn't create arena"
  | chainCreate => "Couldn't create obj chain"
  | threadReg => "Couldn't register thread"
  | rootCreateReg => "Couldn't create root"
  | createObjFmt => "Couldn't create Obj Format"
  | createAmcPool => "Couldn't create obj pool (amc)"
  | createAmcAp => "Couldn't create obj allocation point (amc)"
  | createAmczPool => "Couldn't create obj pool (amcz)"
  | createAmczAp => "Couldn't create obj allocation point (amcz)"
  | rootCreateTableMasked caller => caller.refusal

/-- The calls of {lit}`vm_init` in front of that of {lit}`slots_init`. -/
def vmInitCalls : List MpsCall :=
  [.createVmArea, .chainCreate, .threadReg, .rootCreateReg, .createObjFmt, .createAmcPool,
    .createAmcAp, .createAmczPool, .createAmczAp]

/-- The surroundings of the machine.  The file is mapped read-only into the lower half
of the address space, above its first page, and so are the blocks of the pool system,
which never overlap the file or another block.

The allocation point is reached through {lit}`vm->amc`, which points to a local variable of
{lit}`vm_init` that is dead when the first instruction runs.  The answers to allocations
assume that it still holds what {lit}`vm_init` put there. -/
structure Host where
  fileBase : Nat
  fileSize : Nat
  file : Memory
  heap : Memory
  float : FloatOps
  /-- The address of {lit}`builtin_println`. -/
  println : Word
  /-- The answer to allocation number {lit}`n`, given the blocks of all objects. -/
  reserve : Nat → List Block → BitVec 32 → Reply
  /-- What is read at {lit}`sec.types[d]` behind the first record. -/
  typesPast : Nat → Option TypeRecord
  /-- How deep the native stack lets {lit}`print_slot` recurse. -/
  nativeLimit : Nat
  /-- The result of call number {lit}`n` of those that create something.  A call that is
  refused has no effect but the line that is printed. -/
  mpsResult : Nat → Nat := fun _ => mpsResOk
  page_le_fileBase : 4096 ≤ fileBase
  file_le : fileBase + fileSize ≤ 2 ^ 47
  println_ne_zero : println ≠ 0#64
  println_lt : println.toNat < 2 ^ 47
  reserve_mapped : ∀ n blocks size, ∀ addr ∈ (reserve n blocks size).addrs,
    4096 ≤ addr ∧ addr + size.toNat ≤ 2 ^ 47 ∧ Apart addr size.toNat fileBase fileSize
  reserve_fresh : ∀ n blocks size, ∀ addr ∈ (reserve n blocks size).addrs,
    ∀ block ∈ blocks, Apart addr size.toNat block.addr block.size

/-- The bytes are in the mapped file. -/
def Host.inFile (host : Host) (a n : Nat) : Bool :=
  decide (host.fileBase ≤ a) && decide (a + n ≤ host.fileBase + host.fileSize)

/-- The bytes of a C string from an address on, if it ends within so many bytes. -/
def cStringFrom (mem : Memory) : (fuel a : Nat) → Option (List Byte)
  | 0, _ => none
  | fuel + 1, a =>
      if mem a = 0#8 then some []
      else (cStringFrom mem fuel (a + 1)).map (mem a :: ·)

/-- The C string at an address, if it lies in the file. -/
def Host.cString (host : Host) (a : Nat) : Option (List Byte) :=
  if host.fileBase ≤ a then
    cStringFrom host.file (host.fileBase + host.fileSize - a) a
  else none

/-! ## The state -/

/-- A store to a field: the object, the index and the value. -/
structure FieldStore where
  obj : Nat
  index : Nat
  value : Word
deriving DecidableEq, Repr

/-- The C {lit}`struct vm`, the heap and the logs.  The pool {lit}`vm->amc` is part of the
host. -/
structure VM where
  pc : BitVec 32
  ip : BitVec 32
  base : Nat
  slots : Slots
  stack : Stack
  symbolTable : List (List Byte × Word)
  heap : Memory
  blocks : List Block
  reserves : Nat
  /-- The texts printed by the machine itself. -/
  out : List String
  /-- How many calls of {lit}`MpsCall` had been made when each of the texts was printed. -/
  marks : List Nat
  /-- The log of the indices passed to {lit}`slots_set`, the last one first. -/
  stores : List Nat
  /-- The log of the stores to fields, the last one first. -/
  fieldStores : List FieldStore

namespace VM

/-- A step to the next instruction, {lit}`vm.pc++`. -/
def next (vm : VM) : VM :=
  { vm with pc := vm.pc + 1 }

/-- The calls of the memory pool system up to now, from {lit}`vm_init` on. -/
def mpsCalls (vm : VM) : List MpsCall :=
  vmInitCalls ++ vm.slots.rootCalls.map .rootCreateTableMasked

/-- A text is marked with the number of calls of the memory pool system before it. -/
def print (vm : VM) (text : String) : VM :=
  { vm with
    out := vm.out ++ [text]
    marks := vm.marks ++ [vm.mpsCalls.length] }

/-! ## Slots -/

/-- Run an operation of the slot array as part of the machine. -/
def onSlots {α : Type} (vm : VM) (x : Outcome Slots α) : Outcome VM α :=
  match x with
  | .ok a => .ok a
  | .error (.exit status slots printed) => .error (.exit status { vm with slots := slots } printed)
  | .error (.fault why) => .error (.fault why)

/-- The function {lit}`get`: the index is added to the base with 32 bits. -/
def get (vm : VM) (index : Nat) : Outcome VM (VM × Word) := do
  let (slots, word) ← vm.onSlots (slotsGet vm.slots ((vm.base + index) % 2 ^ 32))
  return ({ vm with slots := slots }, word)

/-- The function {lit}`set`, with the index kept in the log. -/
def set (vm : VM) (index : Nat) (value : Word) : Outcome VM VM := do
  let slots ← vm.onSlots (slotsSet vm.slots ((vm.base + index) % 2 ^ 32) value)
  return { vm with
    slots := slots
    stores := (vm.base + index) % 2 ^ 32 :: vm.stores }

/-- The function {lit}`move`. -/
def move (vm : VM) (target source : Nat) : Outcome VM VM := do
  let (vm, word) ← vm.get source
  vm.set target word

/-! ## Contexts -/

/-- The function {lit}`set_context`. -/
def setContext (vm : VM) (ctx : Context) : VM :=
  { vm with base := ctx.baseSlot, ip := ctx.ip }

/-- The function {lit}`get_context`. -/
def getContext (vm : VM) : Context :=
  ⟨vm.base, vm.ip⟩

/-- Run an operation of the context stack as part of the machine. -/
def onStack {α : Type} (vm : VM) (x : Outcome Stack α) : Outcome VM α :=
  match x with
  | .ok a => .ok a
  | .error (.exit status stack printed) => .error (.exit status { vm with stack := stack } printed)
  | .error (.fault why) => .error (.fault why)

/-- A call of {lit}`push` on the machine's stack. -/
def pushContext (vm : VM) (ctx : Context) : Outcome VM VM := do
  let stack ← vm.onStack (push vm.stack ctx)
  return { vm with stack := stack }

/-- A call of {lit}`pop` on the machine's stack. -/
def popContext (vm : VM) : Outcome VM (VM × Context) := do
  let (stack, ctx) ← vm.onStack (pop vm.stack)
  return ({ vm with stack := stack }, ctx)

/-! ## The symbol table -/

/-- The operations of the hash table of the symbols, {lit}`g_hash_table_lookup` and
{lit}`g_hash_table_insert` on strings.  The hash table is not part of the source, and only
the laws {lit}`TableOps.Lawful` of its operations matter. -/
def symbolTableOps : TableOps (List (List Byte × Word)) (List Byte) Word :=
  assocOps

/-- The list is a table with the laws. -/
theorem symbolTableOps_lawful : symbolTableOps.Lawful :=
  assocOps_lawful

/-- A lookup of a name that is not in the table gives {lit}`NULL`. -/
def getSymbolTable (vm : VM) (key : List Byte) : Word :=
  (symbolTableOps.lookup vm.symbolTable key).getD 0#64

/-- An insertion replaces the value of a name that is in the table. -/
def addSymbolTablePair (vm : VM) (key : List Byte) (value : Word) : VM :=
  { vm with symbolTable := symbolTableOps.insert vm.symbolTable key value }

/-- A lookup searches the list. -/
theorem getSymbolTable_eq (vm : VM) (key : List Byte) :
    vm.getSymbolTable key = (vm.symbolTable.lookup key).getD 0#64 :=
  rfl

/-- A name that was inserted has its new value. -/
theorem lookup_addSymbolTablePair_self (vm : VM) (key : List Byte) (value : Word) :
    (vm.addSymbolTablePair key value).symbolTable.lookup key = some value :=
  symbolTableOps_lawful.lookup_insert_self vm.symbolTable key value

/-- Other names keep their values. -/
theorem lookup_addSymbolTablePair_of_ne (vm : VM) {key name : List Byte} (value : Word)
    (hne : key ≠ name) :
    (vm.addSymbolTablePair name value).symbolTable.lookup key = vm.symbolTable.lookup key :=
  symbolTableOps_lawful.lookup_insert_of_ne vm.symbolTable key name value hne

/-! ## Memory -/

/-- The object that starts at an address. -/
def block? (vm : VM) (obj : Nat) : Option Block :=
  vm.blocks.find? fun block => block.addr = obj

/-- Load bytes through a pointer to an object.  The bytes must belong to the object
that starts there, or lie in the mapped file. -/
def loadThrough (vm : VM) (host : Host) (obj a n : Nat) : Outcome VM Nat :=
  match vm.block? obj with
  | some block =>
      if a + n ≤ obj + block.size then .ok (loadLE vm.heap a n) else .error (.fault .overrun)
  | none =>
      if host.inFile a n then .ok (loadLE host.file a n) else .error (.fault .wildRead)

/-- The value of {lit}`obj->ref[offset]`. -/
def loadRef (vm : VM) (host : Host) (obj offset : Nat) : Outcome VM Word := do
  let word ← vm.loadThrough host obj (refAt obj offset) 8
  return .ofNat 64 word

/-- The assignment {lit}`obj->ref[offset] = value`.  Only objects can be written. -/
def storeRef (vm : VM) (obj offset : Nat) (value : Word) : Outcome VM VM :=
  match vm.block? obj with
  | some block =>
      if refAt obj offset + 8 ≤ obj + block.size then
        .ok { vm with
          heap := setObjRef vm.heap obj offset value
          fieldStores := ⟨obj, offset, value⟩ :: vm.fieldStores }
      else .error (.fault .overrun)
  | none => .error (.fault .wildWrite)

/-- The function {lit}`get_double` loads the double from the address that its bits
spell. -/
def getDouble (vm : VM) (host : Host) (slot : Word) : Outcome VM (VM × Double) :=
  if isDouble slot then do
    let ptr := (invertNonNegative slot).toNat
    let bits ← vm.loadThrough host ptr ptr 8
    return (vm, .ofNat 64 bits)
  else return (vm.print "get_double called with nondouble\n", 0#64)

end VM

/-! ## Initialization -/

/-- The characters of {lit}`"println"`. -/
def printlnName : List Byte :=
  [0x70, 0x72, 0x69, 0x6e, 0x74, 0x6c, 0x6e]

/-- The state before {lit}`vm_init`. -/
def VM.zero (host : Host) : VM where
  pc := 0
  ip := 0
  base := 0
  slots := slotsInit
  stack := stackInit
  symbolTable := symbolTableOps.empty
  heap := host.heap
  blocks := []
  reserves := 0
  out := []
  marks := []
  stores := []
  fieldStores := []

/-- The function {lit}`add_builtin_function` binds {lit}`println`. -/
def addBuiltinFunction (host : Host) (vm : VM) : VM :=
  vm.addSymbolTablePair printlnName (toBuiltin host.println)

/-- Slots, context stack and symbol table of a new machine.  What refused calls of
{lit}`vm_init` print is in {lit}`VM.output`. -/
def vmInit (host : Host) : VM :=
  addBuiltinFunction host (.zero host)

/-! ## The output -/

namespace VM

/-- What the call number {lit}`n` prints. -/
def refusalText (host : Host) (vm : VM) (n : Nat) : List String :=
  match vm.mpsCalls[n]? with
  | some call => if host.mpsResult n = mpsResOk then [] else [call.refusal]
  | none => []

/-- All that was written to the standard output: the texts of the machine, and the lines of
the calls that were refused, in the order they were printed. -/
def output (host : Host) (vm : VM) : List String :=
  MarkedTexts.written (vm.refusalText host) vm.mpsCalls.length 0 vm.out vm.marks

/-- A call prints nothing exactly when it is not refused, or was not made. -/
theorem join_refusalText_eq_empty_iff (host : Host) (vm : VM) (n : Nat) :
    String.join (vm.refusalText host n) = "" ↔
      n < vm.mpsCalls.length → host.mpsResult n = mpsResOk := by
  unfold refusalText
  by_cases hn : n < vm.mpsCalls.length
  · rw [List.getElem?_eq_getElem hn, imp_iff_right hn]
    dsimp only
    have hrefusal (call : MpsCall) : String.join [call.refusal] ≠ "" := by
      rcases call with _ | _ | _ | _ | _ | _ | _ | _ | _ | caller <;>
        first | decide | cases caller <;> decide
    by_cases hresult : host.mpsResult n = mpsResOk
    · rw [if_pos hresult]
      exact iff_of_true rfl hresult
    · rw [if_neg hresult]
      exact iff_of_false (hrefusal _) hresult
  · rw [List.getElem?_eq_none (Nat.not_lt.mp hn)]
    exact iff_of_true rfl fun h => absurd h hn

end VM

end ClojitCvm
