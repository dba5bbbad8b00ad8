import ClojitCvm.Lib.LockStep
import ClojitCvm.Machine.Effects

/-!
# The ideal machine

What the machine is for, without the ways it manages its memory.  Slots and contexts are
lists, the symbol table is a function from names to values, and an object is a list of
fields with the number of its type.  There is no capacity that grows or shrinks, no byte of
an object and no cell that holds garbage.

The ideal machine reads the program it runs through {lit}`Program`, which has no part of the
object heap and no arithmetic of doubles.

Main results:

- Definitions {lit}`Host.program` and {lit}`VM.ideal`: the program in a host, and the ideal
  state of a machine.
- Definitions {lit}`Ideal.execute` and {lit}`Ideal.run`: the ideal machine.
-/

namespace ClojitCvm

open ByteMemory CellArray Slot

/-! ## Programs -/

/-- What a run reads and never changes. -/
structure Program where
  code : BitVec 32 → Option Decoded
  key : BitVec 16 → Option Nat
  name : BitVec 16 → Option (List Byte)
  type : BitVec 16 → Option TypeRecord
  /-- A load from the mapped file: the address and the number of bytes. -/
  bytes : Nat → Nat → Option Nat
  println : Word
  /-- The address of a new object, if there is one. -/
  reserve : Nat → List Block → BitVec 32 → Option Nat
  nativeLimit : Nat

/-- The program of a loaded file in its process. -/
def Host.program (host : Host) (sec : Sections) : Program where
  code pc := (instrAt host sec pc).map decode
  key d := sec.cstr[d.toNat]?
  name := nameOf? host sec
  type d := typesAt host sec d.toNat
  bytes a n := if host.inFile a n then some (loadLE host.file a n) else none
  println := host.println
  reserve n blocks size := (host.reserve n blocks size).object?
  nativeLimit := host.nativeLimit

/-! ## States -/

/-- An object: its address, its size in bytes, the number of its type and its fields. -/
structure Object where
  addr : Nat
  size : Nat
  cljtype : Nat
  fields : List Word
deriving DecidableEq, Repr

/-- The number of fields of an object of a size in bytes. -/
def fieldCount (size : Nat) : Nat :=
  (size - headerSize) / 8

/-- The state of the ideal machine: lists that have no capacity, objects that have their
fields, and a function for the symbol table. -/
structure Ideal where
  pc : BitVec 32
  ip : BitVec 32
  base : Nat
  words : List Word
  contexts : List Context
  globals : List Byte → Word
  /-- The objects, the youngest first. -/
  objects : List Object
  reserves : Nat
  out : List String

/-- The object in a block. -/
def Block.object (mem : Memory) (block : Block) : Object where
  addr := block.addr
  size := block.size
  cljtype := objCljtype mem block.addr
  fields := (List.range (fieldCount block.size)).map (objRef mem block.addr)

/-- The ideal state of a machine. -/
def VM.ideal (vm : VM) : Ideal where
  pc := vm.pc
  ip := vm.ip
  base := vm.base
  words := vm.words
  contexts := vm.contexts
  globals := vm.getSymbolTable
  objects := vm.blocks.map (Block.object vm.heap)
  reserves := vm.reserves
  out := vm.out

/-- A load that finds nothing. -/
def orWild {α : Type} (x : Option α) : Outcome Ideal α :=
  match x with
  | some a => .ok a
  | none => .error (.fault .wildRead)

namespace Ideal

/-- The counter wraps at 32 bits. -/
def next (p : Ideal) : Ideal :=
  { p with pc := p.pc + 1 }

/-- The distance is signed. -/
def jump (p : Ideal) (d : BitVec 16) : Ideal :=
  { p with pc := p.pc + d.signExtend 32 }

/-- The output is a list of texts, one for each call of {lit}`printf`. -/
def print (p : Ideal) (text : String) : Ideal :=
  { p with out := p.out ++ [text] }

/-! ## Slots and contexts -/

/-- The message of {lit}`slots_get`, which prints both numbers as signed ones. -/
def boundsText (index size : Nat) : String :=
  "Index " ++ formatD (.ofNat 32 index) ++ " out of bounds for slots of size " ++
    formatD (.ofNat 32 size) ++ "\n"

/-- A read behind the last slot ends the process. -/
def get (p : Ideal) (i : Nat) : Outcome Ideal Word :=
  match p.words[p.base + i]? with
  | some word => .ok word
  | none => .error (.exit 1 p [boundsText (p.base + i) p.words.length])

/-- A write behind the last slot pads with nil. -/
def set (p : Ideal) (i : Nat) (word : Word) : Outcome Ideal Ideal :=
  if p.base + i < maxCapacity then
    .ok { p with words := assign 0#64 p.words (p.base + i) word }
  else .error (.fault .overrun)

/-- A read and a write; the write can make room behind the slot that was read. -/
def move (p : Ideal) (target source : Nat) : Outcome Ideal Ideal := do
  let word ← p.get source
  p.set target word

/-- Put a word into a slot and step on. -/
def put (p : Ideal) (i : Nat) (word : Word) : Outcome Ideal Ideal := do
  let p ← p.set i word
  return p.next

/-- The loop of {lit}`BULKMOV`, from a turn on. -/
def bulkMove (a b : Nat) : (turns i : Nat) → Ideal → Outcome Ideal Ideal
  | 0, _, p => .ok p
  | turns + 1, i, p => do
      let p ← p.move (a + i) (b + i)
      bulkMove a b turns (i + 1) p

/-- The loop that sets slots to nil, from a slot on. -/
def clear : (turns i : Nat) → Ideal → Outcome Ideal Ideal
  | 0, _, p => .ok p
  | turns + 1, i, p => do
      let p ← p.set i getNil
      clear turns (i + 1) p

/-- A call begins. -/
def enter (p : Ideal) (localbase : Nat) (func : BitVec 16) : Outcome Ideal Ideal :=
  if p.contexts.length < maxDepth then
    .ok { p with
      base := p.base + localbase
      ip := func.setWidth 32
      contexts := p.contexts ++ [⟨p.base, p.ip⟩] }
  else .error (.fault .overrun)

/-- The message of {lit}`pop`. -/
def underflowText : String :=
  "Index -1 out of bounds for stack of top -1\n"

/-- A call ends. -/
def leave (p : Ideal) : Outcome Ideal Ideal :=
  match p.contexts.getLast? with
  | some caller =>
      .ok { p with
        base := caller.baseSlot
        ip := caller.ip
        contexts := p.contexts.dropLast }
  | none => .error (.exit 1 p [underflowText])

/-- The slots from an index on are gone. -/
def truncate (p : Ideal) (a : Nat) : Ideal :=
  { p with words := p.words.take (p.base + a) }

/-! ## Objects -/

/-- The youngest object at an address. -/
def object? (p : Ideal) (addr : Nat) : Option Object :=
  p.objects.find? fun obj => obj.addr = addr

/-- The blocks of the pool that the objects are in. -/
def blocks (p : Ideal) : List Block :=
  p.objects.map fun obj => ⟨obj.addr, obj.size⟩

/-- The type and the size of an object, in memory or in the file. -/
def header (prog : Program) (p : Ideal) (addr : Nat) : Outcome Ideal (Nat × Nat) :=
  match p.object? addr with
  | some obj => .ok (obj.cljtype, obj.size)
  | none => do
      let cljtype ← orWild (prog.bytes (addr + 2) 2)
      let size ← orWild (prog.bytes (addr + 4) 4)
      return (cljtype, size)

/-- A word that is read through an address, in an object or in the file. -/
def field (prog : Program) (p : Ideal) (addr i : Nat) : Outcome Ideal Word :=
  match p.object? addr with
  | some obj =>
      match obj.fields[i]? with
      | some word => .ok word
      | none => .error (.fault .overrun)
  | none => do
      let word ← orWild (prog.bytes (refAt addr i) 8)
      return .ofNat 64 word

/-- A word that is stored through an address: the file cannot be written. -/
def setField (p : Ideal) (addr i : Nat) (word : Word) : Outcome Ideal Ideal :=
  match p.object? addr with
  | some obj =>
      if i < obj.fields.length then
        .ok { p with objects := p.objects.map fun x =>
          if x.addr = addr then { x with fields := x.fields.set i word } else x }
      else .error (.fault .overrun)
  | none => .error (.fault .wildWrite)

/-- A new object of a type: its fields are nil. -/
def fresh (record : TypeRecord) (addr : Nat) : Object where
  addr := addr
  size := record.typeSize.toNat
  cljtype := (record.typeId.setWidth 16).toNat
  fields := List.replicate (fieldCount record.typeSize.toNat) 0#64

/-- The message of a refused allocation, misspelt as in the source. -/
def refusedText : String := "Could't not allocate obj\n"

/-- A refused allocation prints its message and goes on. -/
def allocate (prog : Program) (p : Ideal) (record : TypeRecord) : Outcome Ideal Ideal :=
  if record.typeSize.toNat > headerSize then
    let addr := prog.reserve p.reserves p.blocks record.typeSize
    let p := { p with
      objects := addr.toList.map (fresh record) ++ p.objects
      reserves := p.reserves + 1 }
    .ok (if addr.isSome then p else p.print refusedText)
  else .error (.fault .assertion)

/-! ## Printing -/

/-- An object is printed as its header and its fields. -/
def printObject (prog : Program) (p : Ideal) (printField : Word → Outcome Ideal String)
    (slot : Word) : Outcome Ideal String := do
  let (cljtype, size) ← p.header prog slot.toNat
  let fields ← (List.range (fieldTurns size)).mapM fun i => do
    let word ← p.field prog slot.toNat i
    printField word
  return "( [cljtype: " ++ toString cljtype ++ ", size: " ++ formatD (.ofNat 32 size) ++ "] " ++
    String.join fields ++ ") "

/-- The bits of a double are no address, so a double is never printed. -/
def printSlot (prog : Program) (p : Ideal) : (depth : Nat) → Word → Outcome Ideal String
  | 0, _ => .error (.fault .nativeStack)
  | depth + 1, slot =>
      if isSmallInt slot then .ok ("i" ++ formatD (getSmallInt slot))
      else if isNil slot then .ok "n0"
      else
        match immediateText slot with
        | some text => .ok text
        | none =>
            if isPointer slot then p.printObject prog (printSlot prog p depth) slot
            else if isDouble slot then .error (.fault .wildRead)
            else .ok "-"

/-- The text of a {lit}`println`, which differs from that of the dump for integers, for nil and
for what is no value. -/
def printlnSlot (prog : Program) (p : Ideal) (slot : Word) : Outcome Ideal String :=
  if isSmallInt slot then .ok (formatD (getSmallInt slot))
  else if isNil slot then .ok "nil"
  else
    match immediateText slot with
    | some text => .ok text
    | none =>
        if isPointer slot then p.printObject prog (p.printSlot prog prog.nativeLimit) slot
        else if isDouble slot then .error (.fault .wildRead)
        else .ok ""

/-- The dump of the slots from an index on. -/
def printSlotsFrom (prog : Program) : (turns index : Nat) → Ideal → Outcome Ideal Ideal
  | 0, _, _ => .error (.fault .overrun)
  | turns + 1, index, p => do
      let p := if p.base = index then p.print "| " else p
      match p.words[index]? with
      | some word => do
          let text ← p.printSlot prog prog.nativeLimit word
          let p := (p.print text).print " "
          if index + 1 = p.words.length then return p.print "\n"
          else printSlotsFrom prog turns (index + 1) p
      | none => printSlotsFrom prog turns (index + 1) p

/-- The counter of the dump is an {lit}`int`. -/
def printSlots (prog : Program) (p : Ideal) : Outcome Ideal Ideal :=
  printSlotsFrom prog intMax.toNat 0 p

/-! ## Instructions -/

/-- The operands of which one is a double and the other a number. -/
def loadsDouble (x y : Word) : Bool :=
  (isDouble x && (isDouble y || isSmallInt y)) || (isSmallInt x && isDouble y)

/-- The result of an arithmetic instruction on integers. -/
def setInt (p : Ideal) (a : Nat) (result : Option (BitVec 32)) : Outcome Ideal Ideal :=
  match result with
  | some num => p.set a (toSmallInt num)
  | none => .error (.fault .divisionTrap)

/-- Other operands than numbers leave the slot as it is. -/
def arith (int : BitVec 32 → BitVec 32 → Option (BitVec 32)) (p : Ideal) (a b c : Nat) :
    Outcome Ideal Ideal := do
  let x ← p.get b
  let y ← p.get c
  if isSmallInt x && isSmallInt y then
    let p ← p.setInt a (int (getSmallInt x) (getSmallInt y))
    return p.next
  else if loadsDouble x y then .error (.fault .wildRead)
  else return p.next

/-- The remainder of integers; any other operand ends the process. -/
def modulo (p : Ideal) (a b c : Nat) : Outcome Ideal Ideal := do
  let x ← p.get b
  let y ← p.get c
  if isSmallInt x && isSmallInt y then
    let num := getSmallInt x
    let divisor := getSmallInt y
    let p ← p.setInt a (if divTraps num divisor then none else some (num.srem divisor))
    return p.next
  else .error (.exit 1 p ["Type Error. Called Modulo with Float\n"])

/-- Integers are compared, reading a double is a fault, and other operands end the process. -/
def isEqual (p : Ideal) (a b c : Nat) : Outcome Ideal Ideal := do
  let x ← p.get b
  let y ← p.get c
  let p := p.next
  if isSmallInt x && isSmallInt y then
    p.set a (toBool (getSmallInt x == getSmallInt y))
  else if isDouble x && isDouble y then .error (.fault .wildRead)
  else .error (.exit 1 p ["Type Error ISEQ can only called with all Ints or all Double"])

/-- A conditional jump prints so many lines with its test. -/
def branch (test : Word → Bool) (lines : Nat) (p : Ideal) (a : Nat) (d : BitVec 16) :
    Outcome Ideal Ideal := do
  let slot ← p.get a
  let p := { p with out := p.out ++ List.replicate lines truthText }
  return if test slot then p.jump d else p.next

/-- The call of {lit}`println`: its argument is in the third slot of the callee. -/
def callBuiltin (prog : Program) (p : Ideal) (fn : Word) (localbase : Nat) :
    Outcome Ideal Ideal :=
  if getBuiltin fn = prog.println then do
    let slot ← p.get 2
    let text ← p.printlnSlot prog slot
    let p ← ((p.print text).print "\n").set 0 getNil
    let p ← clear (localbase + 8) 2 p
    let p ← p.leave
    return p.next
  else .error (.fault .badCall)

/-- A call of a function, of a builtin, or of what is neither, which dumps the slots first. -/
def call (prog : Program) (p : Ideal) (localbase : Nat) : Outcome Ideal Ideal := do
  let p ← p.set localbase (toSmallInt p.pc)
  let fn ← p.get (localbase + 1)
  match calledFunc fn with
  | none => do
      let p ← p.printSlots prog
      .error (.exit 0 p ["\nCALL ERROR NO FUNC\n\n"])
  | some func => do
      let p ← p.enter localbase func
      if func = 0#16 then p.callBuiltin prog fn localbase
      else return { p with pc := func.setWidth 32 }

/-- The result goes to the first slot of the frame, which the caller keeps, and the slots from
an index on are gone. -/
def ret (p : Ideal) (a : Nat) : Outcome Ideal Ideal := do
  let slot ← p.get 0
  let p ← p.move 0 a
  let p ← (p.truncate a).leave
  return { p with pc := getSmallInt slot + 1 }

/-! ## The machine -/

/-- One case for each instruction, as in the switch of {lit}`start`. -/
def execute (prog : Program) (p : Ideal) (op : Option Opcode) (a b c : Nat)
    (d : BitVec 16) : Outcome Ideal Ideal :=
  match op with
  | some .cstr => p.put a (toSmallInt (d.setWidth 32))
  | some .ckey => do
      let key ← orWild (prog.key d)
      p.put a (.ofNat 64 key)
  | some .ctype => p.put a (toType d)
  | some .cbool => p.put a (toBool (d != 0#16))
  | some .cnil => p.put a getNil
  | some .cshort => p.put a (toSmallInt (d.setWidth 32))
  | some .fnew => p.put a (toFnew d)
  | some .nsset => do
      let value ← p.get a
      let name ← orWild (prog.name d)
      return { p.next with globals := Function.update p.globals name value }
  | some .nsget => do
      let name ← orWild (prog.name d)
      p.put a (p.globals name)
  | some .addvv => p.arith addvv.int a b c
  | some .subvv => p.arith subvv.int a b c
  | some .mulvv => p.arith mulvv.int a b c
  | some .divvv => p.arith divvv.int a b c
  | some .modvv => p.modulo a b c
  | some .iseq => p.isEqual a b c
  | some .mov => do
      let p ← p.move a d.toNat
      return p.next
  | some .bulkmov => do
      let p ← bulkMove a b c 0 p
      return p.next
  | some .jump => .ok (p.jump d)
  | some .jumpf => p.branch isFalsy 1 a d
  | some .jumpt => p.branch isTruthy 2 a d
  | some .call => p.call prog a
  | some .ret => p.ret a
  | some .loop => .ok p
  | some .alloc => do
      let record ← orWild (prog.type d)
      let _ ← p.get a
      let p ← p.allocate prog record
      return p.next
  | some .setfield => do
      let obj ← p.get a
      let value ← p.get c
      let p ← p.setField obj.toNat b value
      return p.next
  | some .getfield => do
      let obj ← p.get b
      let word ← p.field prog obj.toNat c
      p.put a word
  | some .exit => .error (.exit 1 p.next [])
  | _ => .ok p.next

/-- A turn reads an instruction and executes it. -/
def step (prog : Program) (p : Ideal) : Outcome Ideal Ideal := do
  let inst ← orWild (prog.code p.pc)
  p.execute prog inst.op inst.a inst.b inst.c inst.d

/-- So many turns. -/
def run (prog : Program) : Nat → Ideal → Outcome Ideal Ideal :=
  LockStep.steps (step prog)

/-- The state a program starts in. -/
def init (prog : Program) : Ideal where
  pc := 0
  ip := 0
  base := 0
  words := []
  contexts := []
  globals := Function.update (fun _ => 0#64) printlnName (toBuiltin prog.println)
  objects := []
  reserves := 0
  out := []

end Ideal

end ClojitCvm
