import ClojitCvm.Machine.Printing

/-!
# Executing instructions

The instruction switch of {lit}`start`, one definition for each case, at debug level
zero.  An instruction ends with the next state, or the process ends.
-/

namespace ClojitCvm

open ByteMemory ChainedHash Slot

/-! ## Opcodes -/

/-- The opcodes of {lit}`execute.h`. -/
inductive Opcode where
  | cstr | ckey | cint | cfloat | ctype | cbool | cnil | cshort | setf | nsset | nsget
  | addvv | subvv | mulvv | divvv | powvv | modvv
  | islt | isge | isle | isgt | iseq | isneq
  | mov | not | neg | jump | jumpf | jumpt
  | call | ret | apply | fnew | vfnew | getfreevar | uclo | loop | bulkmov
  | newarray | getarray | setarray | funcf | funcv
  | alloc | setfield | getfield | break | exit | drop | tranc
deriving DecidableEq, Repr

/-- The opcodes in the order of their numbers. -/
def Opcode.all : List Opcode :=
  [.cstr, .ckey, .cint, .cfloat, .ctype, .cbool, .cnil, .cshort, .setf, .nsset, .nsget,
    .addvv, .subvv, .mulvv, .divvv, .powvv, .modvv,
    .islt, .isge, .isle, .isgt, .iseq, .isneq,
    .mov, .not, .neg, .jump, .jumpf, .jumpt,
    .call, .ret, .apply, .fnew, .vfnew, .getfreevar, .uclo, .loop, .bulkmov,
    .newarray, .getarray, .setarray, .funcf, .funcv,
    .alloc, .setfield, .getfield, .break, .exit, .drop, .tranc]

/-- The opcodes are numbered in the order of {lit}`execute.h`. -/
def Opcode.number (op : Opcode) : Byte :=
  .ofNat 8 (Opcode.all.idxOf op)

/-- The instruction with a number, if there is one. -/
def Opcode.ofByte? (op : Byte) : Option Opcode :=
  Opcode.all[op.toNat]?

/-! ## Constants and the symbol table -/

/-- The element {lit}`sec.cstr[d]`. -/
def cstrAt (sec : Sections) (vm : VM) (d : BitVec 16) : Outcome VM (VM × Nat) :=
  match sec.cstr[d.toNat]? with
  | some p => .ok (vm, p)
  | none => .error (.fault .wildRead)

/-- The name a pointer of the string table addresses. -/
def nameAt (host : Host) (vm : VM) (p : Nat) : Outcome VM (VM × List Byte) :=
  match host.cString p with
  | some name => .ok (vm, name)
  | none => .error (.fault .wildRead)

/-- The string itself is not used; the slot gets its number. -/
def execCstr (vm : VM) (a : Nat) (d : BitVec 16) : Outcome VM VM := do
  let vm ← vm.set a (toSmallInt (d.setWidth 32))
  return vm.next

/-- The slot gets the pointer to the characters, from the table of strings. -/
def execCkey (sec : Sections) (vm : VM) (a : Nat) (d : BitVec 16) : Outcome VM VM := do
  let (vm, p) ← cstrAt sec vm d
  let vm ← vm.set a (.ofNat 64 p)
  return vm.next

/-- The slot gets a type. -/
def execCtype (vm : VM) (a : Nat) (d : BitVec 16) : Outcome VM VM := do
  let vm ← vm.set a (toType d)
  return vm.next

/-- Every operand other than zero is true. -/
def execCbool (vm : VM) (a : Nat) (d : BitVec 16) : Outcome VM VM := do
  let vm ← vm.set a (toBool (d != 0#16))
  return vm.next

/-- The slot gets nil. -/
def execCnil (vm : VM) (a : Nat) : Outcome VM VM := do
  let vm ← vm.set a getNil
  return vm.next

/-- The operand is a C {lit}`uint16_t`, so the number is not negative. -/
def execCshort (vm : VM) (a : Nat) (d : BitVec 16) : Outcome VM VM := do
  let vm ← vm.set a (toSmallInt (d.setWidth 32))
  return vm.next

/-- The value is read in front of the name. -/
def execNsset (host : Host) (sec : Sections) (vm : VM) (a : Nat) (d : BitVec 16) :
    Outcome VM VM := do
  let (vm, value) ← vm.get a
  let (vm, p) ← cstrAt sec vm d
  let (vm, name) ← nameAt host vm p
  return (vm.addSymbolTablePair name value).next

/-- A name that was never bound gives what {lit}`g_hash_table_lookup` gives, the null
pointer. -/
def execNsget (host : Host) (sec : Sections) (vm : VM) (a : Nat) (d : BitVec 16) :
    Outcome VM VM := do
  let (vm, p) ← cstrAt sec vm d
  let (vm, name) ← nameAt host vm p
  let vm ← vm.set a (vm.getSymbolTable name)
  return vm.next

/-! ## Arithmetic -/

/-- An arithmetic operator: on 32-bit integers, where it can trap, and on doubles. -/
structure Arith where
  int : BitVec 32 → BitVec 32 → Option (BitVec 32)
  double : FloatOps → Double → Double → Double

/-- The C operators {lit}`/` and {lit}`%` trap on a zero divisor and on
{lit}`INT_MIN / -1`. -/
def divTraps (b c : BitVec 32) : Bool :=
  c == 0#32 || (b == 0x80000000#32 && c == 0xFFFFFFFF#32)

/-- The operators of the four arithmetic instructions; signed sums and products wrap. -/
def addvv : Arith := ⟨fun b c => some (b + c), FloatOps.add⟩
def subvv : Arith := ⟨fun b c => some (b - c), FloatOps.sub⟩
def mulvv : Arith := ⟨fun b c => some (b * c), FloatOps.mul⟩
def divvv : Arith :=
  ⟨fun b c => if divTraps b c then none else some (b.sdiv c), FloatOps.div⟩

/-- The integer case of an arithmetic instruction. -/
def setInt (vm : VM) (a : Nat) (result : Option (BitVec 32)) : Outcome VM VM :=
  match result with
  | some num => vm.set a (toSmallInt num)
  | none => .error (.fault .divisionTrap)

/-- The cases of an arithmetic instruction.  The four tests exclude each other; the
last one computes with the operands exchanged, as the source does. -/
def arithCases (op : Arith) (host : Host) (vm : VM) (a : Nat) (bslot cslot : Word) :
    Outcome VM VM :=
  if isSmallInt bslot && isSmallInt cslot then
    setInt vm a (op.int (getSmallInt bslot) (getSmallInt cslot))
  else if isDouble bslot && isDouble cslot then do
    let (vm, b) ← vm.getDouble host bslot
    let (vm, c) ← vm.getDouble host cslot
    vm.set a (toDouble (op.double host.float b c))
  else if isDouble bslot && isSmallInt cslot then do
    let (vm, b) ← vm.getDouble host bslot
    vm.set a (toDouble (op.double host.float b (host.float.ofInt (getSmallInt cslot))))
  else if isSmallInt bslot && isDouble cslot then do
    let (vm, c) ← vm.getDouble host cslot
    vm.set a (toDouble (op.double host.float c (host.float.ofInt (getSmallInt bslot))))
  else .ok vm

/-- The instructions {lit}`ADDVV`, {lit}`SUBVV`, {lit}`MULVV` and {lit}`DIVVV`. -/
def execArith (op : Arith) (host : Host) (vm : VM) (a b c : Nat) : Outcome VM VM := do
  let (vm, bslot) ← vm.get b
  let (vm, cslot) ← vm.get c
  let vm ← arithCases op host vm a bslot cslot
  return vm.next

/-- Operands other than integers end the process. -/
def execModvv (vm : VM) (a b c : Nat) : Outcome VM VM := do
  let (vm, bslot) ← vm.get b
  let (vm, cslot) ← vm.get c
  if isSmallInt bslot && isSmallInt cslot then
    let num := getSmallInt bslot
    let divisor := getSmallInt cslot
    let vm ← setInt vm a (if divTraps num divisor then none else some (num.srem divisor))
    return vm.next
  else .error (.exit 1 vm ["Type Error. Called Modulo with Float\n"])

/-- The counter steps on before the comparison, also in front of the error. -/
def execIseq (host : Host) (vm : VM) (a b c : Nat) : Outcome VM VM := do
  let (vm, bslot) ← vm.get b
  let (vm, cslot) ← vm.get c
  let vm := vm.next
  if isSmallInt bslot && isSmallInt cslot then
    vm.set a (toBool (getSmallInt bslot == getSmallInt cslot))
  else if isDouble bslot && isDouble cslot then do
    let (vm, b) ← vm.getDouble host bslot
    let (vm, c) ← vm.getDouble host cslot
    vm.set a (toBool (host.float.eq b c))
  else
    .error (.exit 1 vm ["Type Error ISEQ can only called with all Ints or all Double"])

/-! ## Moves and jumps -/

/-- The source is operand D, with 16 bits. -/
def execMov (vm : VM) (a : Nat) (d : BitVec 16) : Outcome VM VM := do
  let vm ← vm.move a d.toNat
  return vm.next

/-- The loop of {lit}`BULKMOV` from offset {lit}`i` on. -/
def bulkMove (a b : Nat) : (turns i : Nat) → VM → Outcome VM VM
  | 0, _, vm => .ok vm
  | turns + 1, i, vm => do
      let vm ← vm.move (a + i) (b + i)
      bulkMove a b turns (i + 1) vm

/-- The slots are moved one after the other, from the first one on. -/
def execBulkmov (vm : VM) (a b c : Nat) : Outcome VM VM := do
  let vm ← bulkMove a b c 0 vm
  return vm.next

/-- The assignment {lit}`vm.pc = vm.pc + offset`. -/
def VM.jump (vm : VM) (d : BitVec 16) : VM :=
  { vm with pc := vm.pc + d.signExtend 32 }

/-- What {lit}`is_falsy` prints. -/
def truthText : String := "is_truthy \n"

/-- The test {lit}`is_falsy` prints its line. -/
def execJumpf (vm : VM) (a : Nat) (d : BitVec 16) : Outcome VM VM := do
  let (vm, slot) ← vm.get a
  let vm := vm.print truthText
  return if isFalsy slot then vm.jump d else vm.next

/-- The test {lit}`is_truthy` prints its line and then calls {lit}`is_falsy`. -/
def execJumpt (vm : VM) (a : Nat) (d : BitVec 16) : Outcome VM VM := do
  let (vm, slot) ← vm.get a
  let vm := (vm.print truthText).print truthText
  return if isTruthy slot then vm.jump d else vm.next

/-! ## Calls -/

/-- The argument is in slot two of the callee, and the result nil goes to its slot zero. -/
def builtinPrintln (host : Host) (vm : VM) : Outcome VM VM := do
  let (vm, slot) ← vm.get 2
  let text ← printlnSlot host vm slot
  ((vm.print text).print "\n").set 0 getNil

/-- The code address a call goes to; a builtin counts as address zero.
{lean}`none` is a slot that cannot be called. -/
def calledFunc (fnSlot : Word) : Option (BitVec 16) :=
  if isFnew fnSlot then some (getFnew fnSlot)
  else if isBuiltin fnSlot then some 0#16
  else none

/-- The loop that sets the slots from {lit}`i` on to nil. -/
def clearSlots : (turns i : Nat) → VM → Outcome VM VM
  | 0, _, vm => .ok vm
  | turns + 1, i, vm => do
      let vm ← vm.set i getNil
      clearSlots turns (i + 1) vm

/-- The call of a builtin in its own context, which is left again.  Only the address
of {lit}`builtin_println` is a function. -/
def callBuiltin (host : Host) (vm : VM) (fnSlot : Word) (localbase : Nat) :
    Outcome VM VM :=
  if getBuiltin fnSlot = host.println then do
    let vm ← builtinPrintln host vm
    let vm ← clearSlots (localbase + 8) 2 vm
    let (vm, caller) ← vm.popContext
    return (vm.setContext caller).next
  else .error (.fault .badCall)

/-- The end of a call of something that is no function. -/
def callError (host : Host) (vm : VM) : Outcome VM VM := do
  let vm ← printSlots host vm vm.base
  .error (.exit 0 vm ["\nCALL ERROR NO FUNC\n\n"])

/-- The part of a call that enters the context of the callee. -/
def enterContext (vm : VM) (localbase : Nat) (func : BitVec 16) : Outcome VM VM := do
  let vm ← vm.pushContext vm.getContext
  return vm.setContext ⟨(vm.base + localbase) % 2 ^ 32, func.setWidth 32⟩

/-- The return address is stored in the first slot of the new frame, and the function is taken
from the next one. -/
def execCall (host : Host) (vm : VM) (localbase : Nat) : Outcome VM VM := do
  let vm ← vm.set localbase (toSmallInt vm.pc)
  let (vm, fnSlot) ← vm.get (localbase + 1)
  match calledFunc fnSlot with
  | none => callError host vm
  | some func => do
      let vm ← enterContext vm localbase func
      if func = 0#16 then callBuiltin host vm fnSlot localbase
      else return { vm with pc := func.setWidth 32 }

/-- The assignment {lit}`vm.slots.size = vm.base + a`. -/
def VM.truncate (vm : VM) (a : Nat) : VM :=
  { vm with slots := { vm.slots with size := (vm.base + a) % 2 ^ 32 } }

/-- The return address is read from slot zero before the result is moved there. -/
def execRet (vm : VM) (a : Nat) : Outcome VM VM := do
  let (vm, slot) ← vm.get 0
  let retAddr := getSmallInt slot
  let vm ← vm.move 0 a
  let (vm, caller) ← (vm.truncate a).popContext
  return { vm.setContext caller with pc := retAddr + 1 }

/-- The slot gets a function. -/
def execFnew (vm : VM) (a : Nat) (d : BitVec 16) : Outcome VM VM := do
  let vm ← vm.set a (toFnew d)
  return vm.next

/-! ## Objects -/

/-- The element {lit}`sec.types[d]`: the pointer is the first record of the hash
table, so only index zero is a record of the table. -/
def typesAt (host : Host) (sec : Sections) (d : Nat) : Option TypeRecord :=
  match sec.types with
  | none => none
  | some table => if d = 0 then table.items.head? else host.typesPast d

/-- The function {lit}`mps_alloc_obj`, with the address of the object if it
succeeds. -/
def VM.mpsAllocObj (vm : VM) (host : Host) (size : BitVec 32) (cljtype : BitVec 16)
    (mpstype : Byte) : Outcome VM (VM × Option Nat) :=
  if size.toNat > headerSize then
    let reply := host.reserve vm.reserves vm.blocks size
    let blocks := reply.object?.toList.map fun addr => ⟨addr, size.toNat⟩
    .ok ({ vm with
      heap := allocLoop size cljtype mpstype reply vm.heap
      blocks := blocks ++ vm.blocks
      reserves := vm.reserves + 1 }, reply.object?)
  else .error (.fault .assertion)

/-- The address of the object is stored in a local copy of the slot. -/
def execAlloc (host : Host) (sec : Sections) (vm : VM) (a : Nat) (d : BitVec 16) :
    Outcome VM VM :=
  match typesAt host sec d.toNat with
  | none => .error (.fault .wildRead)
  | some type => do
      let (vm, _) ← vm.get a
      let (vm, addr) ← vm.mpsAllocObj host type.typeSize (type.typeId.setWidth 16)
        objMpsTypeObject
      let vm := if addr.isSome then vm else vm.print "Could't not allocate obj\n"
      return vm.next

/-- Nothing checks that the slot holds an object, or that the object has the field. -/
def execSetfield (vm : VM) (a b c : Nat) : Outcome VM VM := do
  let (vm, headerPtr) ← vm.get a
  let (vm, value) ← vm.get c
  let vm ← vm.storeRef headerPtr.toNat b value
  return vm.next

/-- Nothing is checked here either. -/
def execGetfield (host : Host) (vm : VM) (a b c : Nat) : Outcome VM VM := do
  let (vm, headerPtr) ← vm.get b
  let word ← vm.loadRef host headerPtr.toNat c
  let vm ← vm.set a word
  return vm.next

/-! ## The switch -/

/-- One turn of the loop for an instruction, seen through both overlays. -/
def execute (host : Host) (sec : Sections) (vm : VM) (op : Option Opcode) (a b c : Nat)
    (d : BitVec 16) : Outcome VM VM :=
  match op with
  | some .cstr => execCstr vm a d
  | some .ckey => execCkey sec vm a d
  | some .ctype => execCtype vm a d
  | some .cbool => execCbool vm a d
  | some .cnil => execCnil vm a
  | some .cshort => execCshort vm a d
  | some .nsset => execNsset host sec vm a d
  | some .nsget => execNsget host sec vm a d
  | some .addvv => execArith addvv host vm a b c
  | some .subvv => execArith subvv host vm a b c
  | some .mulvv => execArith mulvv host vm a b c
  | some .divvv => execArith divvv host vm a b c
  | some .modvv => execModvv vm a b c
  | some .iseq => execIseq host vm a b c
  | some .mov => execMov vm a d
  | some .jump => .ok (vm.jump d)
  | some .jumpf => execJumpf vm a d
  | some .jumpt => execJumpt vm a d
  | some .call => execCall host vm a
  | some .ret => execRet vm a
  | some .fnew => execFnew vm a d
  | some .loop => .ok vm
  | some .bulkmov => execBulkmov vm a b c
  | some .alloc => execAlloc host sec vm a d
  | some .setfield => execSetfield vm a b c
  | some .getfield => execGetfield host vm a b c
  | some .exit => .error (.exit 1 vm.next [])
  -- the instructions that are not implemented, and every other number
  | _ => .ok vm.next

/-- An instruction word, decoded. -/
structure Decoded where
  op : Option Opcode
  a : Nat
  b : Nat
  c : Nat
  d : BitVec 16
deriving DecidableEq, Repr

/-- The instruction word seen through {lit}`struct OpABC` and {lit}`struct OpAD`. -/
def decode (inst : BitVec 32) : Decoded :=
  let abc := OpABC.ofInstr inst
  let ad := OpAD.ofInstr inst
  { op := Opcode.ofByte? abc.op
    a := abc.a.toNat
    b := abc.b.toNat
    c := abc.c.toNat
    d := ntohs ad.d }

/-- The instruction {lit}`sec.instr[pc]`, if it lies in the file. -/
def instrAt (host : Host) (sec : Sections) (pc : BitVec 32) : Option (BitVec 32) :=
  let a := sec.instr + 4 * pc.toNat
  if host.inFile a 4 then some (loadWord host.file a 4) else none

/-- The decoded instruction the machine executes next. -/
def current? (host : Host) (sec : Sections) (vm : VM) : Option Decoded :=
  (instrAt host sec vm.pc).map decode

/-- One turn of the loop of {lit}`start`. -/
def step (host : Host) (sec : Sections) (vm : VM) : Outcome VM VM :=
  match current? host sec vm with
  | none => .error (.fault .wildRead)
  | some inst => execute host sec vm inst.op inst.a inst.b inst.c inst.d

/-- So many turns of the loop. -/
def run (host : Host) (sec : Sections) : Nat → VM → Outcome VM VM
  | 0, vm => .ok vm
  | n + 1, vm => do
      let vm ← step host sec vm
      run host sec n vm

/-- A run of so many turns, and then so many more. -/
theorem run_add (host : Host) (sec : Sections) (n m : Nat) (vm : VM) :
    run host sec (n + m) vm = (run host sec n vm >>= run host sec m) := by
  induction n generalizing vm with
  | zero => simp [run, bind, Except.bind]
  | succ n ih =>
      rw [Nat.add_right_comm]
      simp only [run]
      cases step host sec vm with
      | error halt => rfl
      | ok next => exact ih next

/-- The sections of the mapped file, as {lit}`loadfile` leaves them. -/
def loadfile (host : Host) : Sections :=
  (parse 0 host.file host.fileBase .zero).2

/-- The states a program goes through. -/
inductive Reachable (host : Host) (sec : Sections) : VM → Prop where
  | init : Reachable host sec (vmInit host)
  | step {vm vm' : VM} :
      Reachable host sec vm → step host sec vm = .ok vm' → Reachable host sec vm'

/-- A run from a reachable state ends in a reachable state. -/
theorem Reachable.run {host : Host} {sec : Sections} {vm vm' : VM} {n : Nat}
    (h : Reachable host sec vm) (hrun : run host sec n vm = .ok vm') :
    Reachable host sec vm' := by
  induction n generalizing vm with
  | zero =>
      cases hrun
      exact h
  | succ n ih =>
      rcases bind_eq_ok.mp hrun with ⟨next, hstep, hrest⟩
      exact ih (h.step hstep) hrest

end ClojitCvm
