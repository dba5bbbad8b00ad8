import ClojitCvm.Lib.LockStep
import ClojitCvm.Machine.Execute

/-!
# Tracing

At a debug level above zero the machine prints a line for each instruction and the slots
behind it.  The definitions here are the instruction switch of {lit}`start` at an arbitrary
debug level.

Main results:

- Definitions {lit}`executeAt`, {lit}`stepAt` and {lit}`runAt`: the traced machine.
- Theorem {lit}`runAt_zero`: at level zero it is the machine of {lit}`run`.
-/

namespace ClojitCvm

open ByteMemory Slot

/-! ## Lines -/

/-- The statement {lit}`if(debug_level > 0) printf(..)`. -/
def VM.trace (level : Int) (vm : VM) (text : String) : VM :=
  if level > 0 then vm.print text else vm

/-- The characters of a C string, one for each byte. -/
def bytesText (bytes : List Byte) : String :=
  String.ofList (bytes.map fun byte => Char.ofNat byte.toNat)

/-- The format {lit}`NAME: %d %d\n`. -/
def adText (name : String) (a : Nat) (d : Int) : String :=
  name ++ ": " ++ toString a ++ " " ++ toString d ++ "\n"

/-- The format {lit}`NAME: %d %d %d\n`. -/
def abcText (name : String) (a b c : Nat) : String :=
  name ++ ": " ++ toString a ++ " " ++ toString b ++ " " ++ toString c ++ "\n"

def notImplemented (name : String) : String :=
  name ++ " // not implmented\n"

/-- A line with the string {lit}`sec.cstr[d]`, which is read for the line alone. -/
def VM.traceString (level : Int) (host : Host) (sec : Sections) (vm : VM) (name : String)
    (a : Nat) (d : BitVec 16) (tail : String) : Outcome VM VM :=
  if level > 0 then do
    let (vm, p) ← cstrAt sec vm d
    let (vm, bytes) ← nameAt host vm p
    return vm.print (name ++ ": " ++ toString a ++ " " ++ toString d.toNat ++ " -> " ++
      bytesText bytes ++ tail)
  else .ok vm

/-! ## Instructions with a line in the middle -/

/-- The line is printed behind the reads of the operands. -/
def execArithAt (level : Int) (name : String) (op : Arith) (host : Host) (vm : VM)
    (a b c : Nat) : Outcome VM VM := do
  let (vm, bslot) ← vm.get b
  let (vm, cslot) ← vm.get c
  let vm := vm.trace level (abcText name a b c)
  let vm ← arithCases op host vm a bslot cslot
  return vm.next

def execModvvAt (level : Int) (vm : VM) (a b c : Nat) : Outcome VM VM := do
  let (vm, bslot) ← vm.get b
  let (vm, cslot) ← vm.get c
  let vm := vm.trace level (abcText "MODVV" a b c)
  if isSmallInt bslot && isSmallInt cslot then
    let num := getSmallInt bslot
    let divisor := getSmallInt cslot
    let vm ← setInt vm a (if divTraps num divisor then none else some (num.srem divisor))
    return vm.next
  else .error (.exit 1 vm ["Type Error. Called Modulo with Float\n"])

/-- The line is printed behind the loop. -/
def execBulkmovAt (level : Int) (vm : VM) (a b c : Nat) : Outcome VM VM := do
  let vm ← bulkMove a b c 0 vm
  let vm := vm.trace level (abcText "BULKMOV" a b c)
  return vm.next

/-- The line of a call grows while the function is looked up. -/
def execCallAt (level : Int) (host : Host) (vm : VM) (localbase : Nat) (lit : BitVec 16) :
    Outcome VM VM := do
  let vm := vm.trace level ("CALL " ++ toString localbase ++ " " ++ toString lit.toNat)
  let vm ← vm.set localbase (toSmallInt vm.pc)
  let (vm, fnSlot) ← vm.get (localbase + 1)
  let vm := if isFnew fnSlot then vm.trace level " -> is func\n"
    else if isBuiltin fnSlot then vm.trace level " -> is builtin\n"
    else vm
  match calledFunc fnSlot with
  | none => callError host vm
  | some func => do
      let vm ← enterContext vm localbase func
      if func = 0#16 then callBuiltin host vm fnSlot localbase
      else
        let vm := vm.trace level ("func " ++ toString func.toNat ++ "\n\n")
        return { vm with pc := func.setWidth 32 }

/-! ## The switch -/

/-- The line of an instruction that prints it before it does anything else.  {lit}`number`
is the number of the opcode. -/
def frontText (op : Option Opcode) (number : Byte) (a b c : Nat) (d : BitVec 16) : String :=
  match op with
  | some .ckey => adText "CKEY" a d.toNat
  | some .ctype => adText "CTYPE" a d.toNat
  | some .cbool => adText "CBOOL" a d.toNat
  | some .cnil => "CNIL: " ++ toString a ++ "\n"
  | some .cshort => adText "CSHORT" a d.toNat
  | some .nsset => adText "NSSET" a d.toNat
  | some .divvv => abcText "DIVVV" a b c
  | some .iseq => abcText "ISEQ" a b c
  | some .mov => adText "MOV" a d.toNat
  | some .not => notImplemented "NOT"
  | some .jump => "JUMP: " ++ toString d.toNat ++ "\n"
  | some .jumpf => adText "JUMPF" a d.toInt
  | some .jumpt => adText "JUMPT" a d.toInt
  | some .ret => "RET " ++ toString a ++ "\n"
  | some .apply => notImplemented "APPLY"
  | some .fnew => "FNEW " ++ toString a ++ " " ++ toString d.toInt ++ "\n"
  | some .vfnew => notImplemented "VFNEW"
  | some .getfreevar => notImplemented "GETFREEVAR"
  | some .uclo => notImplemented "UCLO"
  | some .loop => "LOOP\n"
  | some .newarray => notImplemented "NEWARRAY"
  | some .getarray => notImplemented "GETARRAY"
  | some .setarray => notImplemented "SETARRAY"
  | some .funcf => "FUNCF\n"
  | some .funcv => "FUNCV\n"
  | some .alloc => adText "ALLOC" a d.toNat
  | some .setfield => abcText "SETFIELD" a b c
  | some .getfield => abcText "GETFIELD" a b c
  | some .break => notImplemented "BREAK"
  | some .exit => "Valid End Reached\n"
  | some .drop => notImplemented "DROP"
  | some .tranc => notImplemented "TRANC"
  | _ => "skipping instruction: " ++ toString number.toNat ++ "\n\n"

/-- The switch at a debug level. -/
def executeAt (level : Int) (host : Host) (sec : Sections) (vm : VM) (op : Option Opcode)
    (number : Byte) (a b c : Nat) (d : BitVec 16) : Outcome VM VM :=
  match op with
  | some .cstr => do
      let vm ← vm.traceString level host sec "CSTR" a d "\n"
      execCstr vm a d
  | some .nsget => do
      let vm ← vm.traceString level host sec "NSGET" a d "\n "
      execNsget host sec vm a d
  | some .addvv => execArithAt level "ADDVV" addvv host vm a b c
  | some .subvv => execArithAt level "SUBVV" subvv host vm a b c
  | some .mulvv => execArithAt level "MULVV" mulvv host vm a b c
  | some .modvv => execModvvAt level vm a b c
  | some .bulkmov => execBulkmovAt level vm a b c
  | some .call => execCallAt level host vm a d
  | op => execute host sec (vm.trace level (frontText op number a b c d)) op a b c d

/-- One turn of the loop of {lit}`start` at a debug level.  An instruction that comes to its
end is followed by a dump of the slots. -/
def stepAt (level : Int) (host : Host) (sec : Sections) (vm : VM) : Outcome VM VM :=
  match instrAt host sec vm.pc with
  | none => .error (.fault .wildRead)
  | some word => do
      let inst := decode word
      let number := (OpABC.ofInstr word).op
      let vm ← executeAt level host sec vm inst.op number inst.a inst.b inst.c inst.d
      if level > 0 then printSlots host vm vm.base else return vm

def runAt (level : Int) (host : Host) (sec : Sections) : Nat → VM → Outcome VM VM :=
  LockStep.steps (stepAt level host sec)

/-! ## Initialization -/

/-- What {lit}`add_builtin_function` and {lit}`start` print before the first instruction. -/
def VM.traceStart (level : Int) (host : Host) (vm : VM) : VM :=
  (((vm.trace level "------ BUILT IN FUNCTION: -------\n").trace level
    ("bfn" ++ formatPointer (getBuiltin (toBuiltin host.println)))).trace level
    "\n------ BUILT IN FUNCTION: -------\n").trace level
    "------------SLOT--------------\n"

/-! ## Level zero -/

section Zero

variable {host : Host} {sec : Sections} {vm : VM} {op : Option Opcode} {number : Byte}
    {a b c : Nat} {d : BitVec 16}

@[simp]
theorem VM.trace_zero (text : String) : vm.trace 0 text = vm :=
  if_neg (by decide)

theorem execCallAt_zero (localbase : Nat) (lit : BitVec 16) :
    execCallAt 0 host vm localbase lit = execCall host vm localbase := by
  simp only [execCallAt, VM.trace_zero, ite_self]
  rfl

theorem executeAt_zero :
    executeAt 0 host sec vm op number a b c d = execute host sec vm op a b c d := by
  unfold executeAt
  split
  · rfl
  · rfl
  · simp only [execArithAt, VM.trace_zero]
    rfl
  · simp only [execArithAt, VM.trace_zero]
    rfl
  · simp only [execArithAt, VM.trace_zero]
    rfl
  · simp only [execModvvAt, VM.trace_zero]
    rfl
  · simp only [execBulkmovAt, VM.trace_zero]
    rfl
  · exact execCallAt_zero a d
  · rw [VM.trace_zero]

theorem stepAt_zero : stepAt 0 host sec vm = step host sec vm := by
  unfold stepAt step current?
  cases instrAt host sec vm.pc with
  | none => rfl
  | some word =>
      simp only [executeAt_zero, Option.map_some]
      cases execute host sec vm (decode word).op (decode word).a (decode word).b (decode word).c
        (decode word).d <;> rfl

/-- A run is so many steps. -/
theorem run_eq_steps (n : Nat) : run host sec n vm = LockStep.steps (step host sec) n vm := by
  induction n generalizing vm with
  | zero => rfl
  | succ n ih =>
      rw [run, LockStep.steps]
      cases step host sec vm with
      | error halt => rfl
      | ok next => exact ih

/-- At level zero the traced machine is the machine. -/
theorem runAt_zero (n : Nat) : runAt 0 host sec n vm = run host sec n vm := by
  have hsteps : (fun vm => stepAt 0 host sec vm) = step host sec := funext fun _ => stepAt_zero
  rw [run_eq_steps, ← hsteps]
  rfl

end Zero

end ClojitCvm
