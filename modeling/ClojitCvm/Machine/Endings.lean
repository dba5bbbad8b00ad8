import ClojitCvm.Machine.Effects
import ClojitCvm.Machine.Start

/-!
# How an instruction ends

The process ends with a status at an {lit}`EXIT`, at an error of an instruction, at an
index behind the slots and at an empty context stack.  This file follows the status and
the output of every operation through the instructions.

Main results:

- Theorems {lit}`execute_ends` and {lit}`execCall_ends`: what an instruction prints if it
  returns, and its status if the process exits.
- Theorem {lit}`step_ends`: the same for a step of the machine.
-/

namespace ClojitCvm

open ByteMemory Slot

/-- The process exits with status 1. -/
def ErrorStop {σ : Type} (status : Nat) (_ : σ) (_ : List String) : Prop :=
  status = 1

/-! ## Slots and contexts

An operation that never exits ends with any property of exits. -/

section Arrays

variable {stop : Nat → Slots → List String → Prop}

/-- Moving the array keeps its size; it overruns the new block or returns. -/
theorem moveTo_ends (slots : Slots) (capacity : Nat) (call : RootCall) :
    Ends (moveTo slots capacity call) (fun moved => moved.size = slots.size) stop := by
  unfold moveTo
  split
  · exact trivial
  · exact rfl

/-- Halving the array in front of a read keeps its size. -/
theorem halveIfSparse_ends (slots : Slots) :
    Ends (halveIfSparse slots) (fun halved => halved.size = slots.size) stop := by
  unfold halveIfSparse
  split
  · exact moveTo_ends slots _ _
  · exact rfl

/-- A read exits exactly behind the last slot. -/
theorem slotsGet_ends (slots : Slots) (index : Nat) :
    Ends (slotsGet slots index) (fun read => read.1.size = slots.size)
      (fun status _ _ => status = 1 ∧ slots.size ≤ index) := by
  refine (halveIfSparse_ends slots).bind fun halved hsize => ?_
  split
  · next hge => exact ⟨rfl, hsize ▸ hge⟩
  · split
    · exact trivial
    · exact hsize

/-- An append never exits. -/
theorem slotsAppend_ends (slots : Slots) (value : Word) :
    Ends (slotsAppend slots value) (fun _ => True) stop := by
  have hdouble : Ends (slotsDoubleCapacityIfFull slots) (fun _ => True) stop := by
    unfold slotsDoubleCapacityIfFull
    split
    · exact (moveTo_ends slots _ _).mono (fun _ _ => trivial) (fun _ _ _ h => h)
    · exact trivial
  refine hdouble.bind fun doubled _ => ?_
  split <;> exact trivial

/-- The appends that fill a gap never exit. -/
theorem appendUntil_ends (index turns : Nat) (slots : Slots) :
    Ends (appendUntil index turns slots) (fun _ => True) stop := by
  induction turns generalizing slots with
  | zero => exact trivial
  | succ turns ih =>
      unfold appendUntil
      split
      · exact (slotsAppend_ends slots _).bind fun appended _ => ih appended
      · exact trivial

/-- A write never exits, for it makes room for itself. -/
theorem slotsSet_ends (slots : Slots) (index : Nat) (value : Word) :
    Ends (slotsSet slots index value) (fun _ => True) stop := by
  refine (appendUntil_ends index _ slots).bind fun appended _ => ?_
  split <;> exact trivial

end Arrays

/-- A push never exits. -/
theorem push_ends {stop : Nat → Stack → List String → Prop} (stack : Stack) (ctx : Context) :
    Ends (push stack ctx) (fun _ => True) stop := by
  have hdouble : Ends (stackDoubleCapacityIfFull stack) (fun _ => True) stop := by
    unfold stackDoubleCapacityIfFull
    split
    · split <;> exact trivial
    · exact trivial
  refine hdouble.bind fun doubled _ => ?_
  split <;> exact trivial

/-- A pop exits from an empty stack only. -/
theorem pop_ends (stack : Stack) : Ends (pop stack) (fun _ => True) ErrorStop := by
  unfold pop
  dsimp only
  split
  · exact rfl
  · split <;> exact trivial

/-! ## Operations of the machine -/

namespace VM

variable {vm : VM} {out : List String} {stop : Nat → VM → List String → Prop}

/-- An operation on the slots ends in the machine as it ends on the array. -/
theorem onSlots_ends {α : Type} {x : Outcome Slots α} {post : α → Prop}
    {stop : Nat → Slots → List String → Prop} (h : Ends x post stop) :
    Ends (vm.onSlots x) post (fun status _ printed => ∃ slots, stop status slots printed) := by
  rcases x with (⟨status, slots, printed⟩ | why) | a
  · exact ⟨slots, h⟩
  · exact h
  · exact h

/-- An operation on the context stack ends in the machine as it ends on the stack. -/
theorem onStack_ends {α : Type} {x : Outcome Stack α} {post : α → Prop}
    {stop : Nat → Stack → List String → Prop} (h : Ends x post stop) :
    Ends (vm.onStack x) post (fun status _ printed => ∃ stack, stop status stack printed) := by
  rcases x with (⟨status, stack, printed⟩ | why) | a
  · exact ⟨stack, h⟩
  · exact h
  · exact h

/-- A read can change the slots and nothing else. -/
theorem get_ends_slots (vm : VM) (i : Nat) :
    Ends (vm.get i) (fun read => ∃ slots, read.1 = { vm with slots := slots }) ErrorStop := by
  refine ((onSlots_ends (slotsGet_ends vm.slots _)).mono (fun _ h => h) ?_).bind
    fun read _ => ⟨read.1, rfl⟩
  rintro status _ _ ⟨_, hstatus, _⟩
  exact hstatus

/-- A read of a slot prints nothing when it returns. -/
theorem get_ends (h : vm.out = out) (i : Nat) :
    Ends (vm.get i) (fun read => read.1.out = out) ErrorStop := by
  refine (get_ends_slots vm i).mono ?_ (fun _ _ _ h => h)
  rintro _ ⟨slots, heq⟩
  rw [heq]
  exact h

/-- A write prints nothing and never exits. -/
theorem set_ends (h : vm.out = out) (i : Nat) (value : Word) :
    Ends (vm.set i value) (fun vm' => vm'.out = out) stop := by
  have hslots : Ends (slotsSet vm.slots ((vm.base + i) % 2 ^ 32) value) (fun _ => True)
      (fun _ _ _ => False) := slotsSet_ends ..
  refine ((onSlots_ends hslots).mono (fun _ h => h) ?_).bind fun _ _ => h
  rintro _ _ _ ⟨_, hfalse⟩
  exact hfalse.elim

/-- A move exits where its read does. -/
theorem move_ends (h : vm.out = out) (target source : Nat) :
    Ends (vm.move target source) (fun vm' => vm'.out = out) ErrorStop :=
  (get_ends h source).bind fun _ hread => set_ends hread _ _

/-- Saving a context never exits. -/
theorem pushContext_ends (h : vm.out = out) (ctx : Context) :
    Ends (vm.pushContext ctx) (fun vm' => vm'.out = out) stop := by
  have hstack : Ends (push vm.stack ctx) (fun _ => True) (fun _ _ _ => False) := push_ends ..
  refine ((onStack_ends hstack).mono (fun _ h => h) ?_).bind fun _ _ => h
  rintro _ _ _ ⟨_, hfalse⟩
  exact hfalse.elim

/-- Restoring one exits if none was saved. -/
theorem popContext_ends (h : vm.out = out) :
    Ends vm.popContext (fun popped => popped.1.out = out) ErrorStop := by
  refine ((onStack_ends (pop_ends vm.stack)).mono (fun _ h => h) ?_).bind fun _ _ => h
  rintro status _ _ ⟨_, hstatus⟩
  exact hstatus

/-- A load through a pointer returns or is a fault. -/
theorem loadThrough_ends (host : Host) (obj a n : Nat) :
    Ends (vm.loadThrough host obj a n) (fun _ => True) stop := by
  unfold loadThrough
  split
  · split <;> exact trivial
  · split <;> exact trivial

/-- A load of a field returns or is a fault. -/
theorem loadRef_ends (host : Host) (obj offset : Nat) :
    Ends (vm.loadRef host obj offset) (fun _ => True) stop :=
  (loadThrough_ends host obj _ 8).bind fun _ _ => trivial

/-- A store of a field returns or is a fault, and prints nothing. -/
theorem storeRef_ends (h : vm.out = out) (obj offset : Nat) (value : Word) :
    Ends (vm.storeRef obj offset value) (fun vm' => vm'.out = out) stop := by
  unfold storeRef
  split
  · split
    · exact h
    · exact trivial
  · exact trivial

/-- A double is read without a message. -/
theorem getDouble_ends (h : vm.out = out) (host : Host) {slot : Word}
    (hdouble : isDouble slot = true) :
    Ends (vm.getDouble host slot) (fun read => read.1.out = out) stop := by
  rw [getDouble, if_pos hdouble]
  exact (loadThrough_ends host _ _ 8).bind fun _ _ => h

end VM

/-! ## Printing -/

section Printing

variable {host : Host} {vm : VM} {stop : Nat → VM → List String → Prop}

/-- Printing an object never exits if printing its fields never does. -/
theorem printObject_ends {printField : Word → Outcome VM String}
    (hfield : ∀ word, Ends (printField word) (fun _ => True) stop) (slot : Word) :
    Ends (printObject host vm printField slot) (fun _ => True) stop := by
  unfold printObject
  dsimp only
  apply Ends.bind (VM.loadThrough_ends host _ _ _)
  intro cljtype _
  apply Ends.bind (VM.loadThrough_ends host _ _ _)
  intro size _
  -- the number of fields does not matter
  generalize List.range (fieldTurns size) = indices
  refine Ends.bind (Ends.mapM ?_) ?_
  · intro i _
    exact (VM.loadRef_ends host _ _).bind fun word _ => hfield word
  · intro fields _
    exact trivial

/-- Printing a slot never exits, however deep the objects are nested. -/
theorem printSlot_ends (depth : Nat) (slot : Word) :
    Ends (printSlot host vm depth slot) (fun _ => True) stop := by
  induction depth generalizing slot with
  | zero => exact trivial
  | succ depth ih =>
      unfold printSlot
      split
      · exact trivial
      · split
        · exact trivial
        · split
          · exact trivial
          · split
            · exact printObject_ends ih slot
            · split
              · next hdouble => exact (VM.getDouble_ends rfl host hdouble).bind fun _ _ => trivial
              · exact trivial

/-- The text of a {lit}`println` never exits. -/
theorem printlnSlot_ends (slot : Word) :
    Ends (printlnSlot host vm slot) (fun _ => True) stop := by
  unfold printlnSlot
  split
  · exact trivial
  · split
    · exact trivial
    · split
      · exact trivial
      · split
        · exact printObject_ends (printSlot_ends _) slot
        · split
          · next hdouble => exact (VM.getDouble_ends rfl host hdouble).bind fun _ _ => trivial
          · exact trivial

/-- The loop of {lit}`print_slots` reads no slot behind the last one. -/
theorem printSlotsFrom_ends (base turns index : Nat) :
    Ends (printSlotsFrom host base turns index vm) (fun _ => True) stop := by
  induction turns generalizing index vm with
  | zero => exact trivial
  | succ turns ih =>
      unfold printSlotsFrom
      generalize (if base = index then vm.print "| " else vm) = vm
      dsimp only
      split
      · next hlt =>
        refine ((VM.onSlots_ends (slotsGet_ends vm.slots index)).mono (fun _ h => h) ?_).bind
          fun read _ => ?_
        · rintro _ _ _ ⟨_, _, hge⟩
          omega
        · refine (printSlot_ends _ _).bind fun text _ => ?_
          split
          · exact trivial
          · exact ih _
      · exact ih _

/-- A call of something that is no function exits with status 0. -/
theorem callError_ends :
    Ends (callError host vm) (fun _ => False) (fun status _ _ => status = 0) :=
  (printSlotsFrom_ends _ _ _).bind fun _ _ => rfl

end Printing

/-! ## Instructions that are no calls -/

/-- The object of an {lit}`ALLOC` is refused. -/
def refused (host : Host) (sec : Sections) (vm : VM) (d : BitVec 16) : Bool :=
  match typesAt host sec d.toNat with
  | some type => (host.reserve vm.reserves vm.blocks type.typeSize).object?.isNone
  | none => false

/-- What an instruction prints that is no call: a test prints lines of its own, and an
allocation can fail. -/
def instructionText (host : Host) (sec : Sections) (vm : VM) (op : Option Opcode)
    (d : BitVec 16) : List String :=
  match op with
  | some .jumpf => [truthText]
  | some .jumpt => [truthText, truthText]
  | some .alloc => if refused host sec vm d then ["Could't not allocate obj\n"] else []
  | _ => []

section Instructions

variable {host : Host} {sec : Sections} {vm : VM} {out : List String} {a b c : Nat}
    {d : BitVec 16}

/-- Most instructions write a slot last and step on. -/
theorem set_next_ends (h : vm.out = out) (i : Nat) (value : Word) :
    Ends (do let vm ← vm.set i value; return vm.next) (fun vm' => vm'.out = out) ErrorStop :=
  (VM.set_ends h i value).bind fun _ hset => hset

/-- Reading the string table prints nothing. -/
theorem cstrAt_ends (h : vm.out = out) :
    Ends (cstrAt sec vm d) (fun read => read.1.out = out) ErrorStop := by
  unfold cstrAt
  split
  · exact h
  · exact trivial

/-- Reading a name prints nothing. -/
theorem nameAt_ends (h : vm.out = out) (p : Nat) :
    Ends (nameAt host vm p) (fun read => read.1.out = out) ErrorStop := by
  unfold nameAt
  split
  · exact h
  · exact trivial

/-- Storing the result of an operation prints nothing; a missing result is a fault. -/
theorem setInt_ends {stop : Nat → VM → List String → Prop} (h : vm.out = out)
    (result : Option (BitVec 32)) :
    Ends (setInt vm a result) (fun vm' => vm'.out = out) stop := by
  unfold setInt
  split
  · exact VM.set_ends h _ _
  · exact trivial

/-- The cases of an arithmetic instruction print nothing and never exit once both operands are
read. -/
theorem arithCases_ends {stop : Nat → VM → List String → Prop} (h : vm.out = out) (op : Arith)
    (x y : Word) : Ends (arithCases op host vm a x y) (fun vm' => vm'.out = out) stop := by
  unfold arithCases
  split
  · exact setInt_ends h _
  · split
    · next hdouble =>
      simp only [Bool.and_eq_true] at hdouble
      refine (VM.getDouble_ends h host hdouble.1).bind fun first hfirst => ?_
      refine (VM.getDouble_ends hfirst host hdouble.2).bind fun second hsecond => ?_
      exact VM.set_ends hsecond _ _
    · split
      · next hdouble =>
        simp only [Bool.and_eq_true] at hdouble
        refine (VM.getDouble_ends h host hdouble.1).bind fun first hfirst => ?_
        exact VM.set_ends hfirst _ _
      · split
        · next hdouble =>
          simp only [Bool.and_eq_true] at hdouble
          refine (VM.getDouble_ends h host hdouble.2).bind fun first hfirst => ?_
          exact VM.set_ends hfirst _ _
        · exact h

/-- An arithmetic instruction exits only where it reads its operands. -/
theorem execArith_ends (h : vm.out = out) (op : Arith) :
    Ends (execArith op host vm a b c) (fun vm' => vm'.out = out) ErrorStop := by
  refine (VM.get_ends h b).bind fun first hfirst => ?_
  refine (VM.get_ends hfirst c).bind fun second hsecond => ?_
  exact (arithCases_ends hsecond op _ _).bind fun _ hlast => hlast

/-- A remainder exits where it reads its operands, and with operands that are no integers. -/
theorem execModvv_ends (h : vm.out = out) :
    Ends (execModvv vm a b c) (fun vm' => vm'.out = out) ErrorStop := by
  refine (VM.get_ends h b).bind fun first hfirst => ?_
  refine (VM.get_ends hfirst c).bind fun second hsecond => ?_
  dsimp only
  split
  · exact (setInt_ends hsecond _).bind fun _ hlast => hlast
  · exact rfl

/-- A comparison exits where it reads its operands, and with operands it does not compare. -/
theorem execIseq_ends (h : vm.out = out) :
    Ends (execIseq host vm a b c) (fun vm' => vm'.out = out) ErrorStop := by
  refine (VM.get_ends h b).bind fun first hfirst => ?_
  refine (VM.get_ends hfirst c).bind fun second hsecond => ?_
  have hnext : second.1.next.out = out := hsecond
  dsimp only
  split
  · exact VM.set_ends hnext _ _
  · split
    · next hdouble =>
      simp only [Bool.and_eq_true] at hdouble
      refine (VM.getDouble_ends hnext host hdouble.1).bind fun third hthird => ?_
      refine (VM.getDouble_ends hthird host hdouble.2).bind fun fourth hfourth => ?_
      exact VM.set_ends hfourth _ _
    · exact rfl

/-- The loop of {lit}`BULKMOV` prints nothing, whichever turn it stops in. -/
theorem bulkMove_ends (turns i : Nat) (h : vm.out = out) :
    Ends (bulkMove a b turns i vm) (fun vm' => vm'.out = out) ErrorStop := by
  induction turns generalizing i vm with
  | zero => exact h
  | succ turns ih => exact (VM.move_ends h _ _).bind fun _ hmoved => ih _ hmoved

/-- A return prints nothing, and exits at an index behind the slots or with no call open. -/
theorem execRet_ends (h : vm.out = out) :
    Ends (execRet vm a) (fun vm' => vm'.out = out) ErrorStop := by
  refine (VM.get_ends h 0).bind fun first hfirst => ?_
  refine (VM.move_ends hfirst 0 a).bind fun moved hmoved => ?_
  have htruncated : (moved.truncate a).out = out := hmoved
  exact (VM.popContext_ends htruncated).bind fun _ hpopped => hpopped

/-- An allocation prints its own line if the pool refuses, and nothing else. -/
theorem execAlloc_ends :
    Ends (execAlloc host sec vm a d)
      (fun vm' => vm'.out = vm.out ++ instructionText host sec vm (some .alloc) d)
      ErrorStop := by
  unfold execAlloc instructionText refused
  cases typesAt host sec d.toNat with
  | none => exact trivial
  | some type =>
      refine (VM.get_ends_slots vm a).bind ?_
      rintro ⟨read, slot⟩ ⟨slots, hread⟩
      cases hread
      unfold VM.mpsAllocObj
      dsimp only
      split
      · change (if (host.reserve vm.reserves vm.blocks type.typeSize).object?.isSome then _
          else VM.print _ _).next.out = _
        by_cases hobject : (host.reserve vm.reserves vm.blocks type.typeSize).object?.isSome
        · rw [if_pos hobject, if_neg (by simpa [Option.isSome_iff_ne_none] using hobject),
            List.append_nil]
          rfl
        · rw [if_neg hobject, if_pos (by simpa using hobject)]
          rfl
      · exact trivial

/-- Every instruction but a call prints its own text, and exits with status 1 if it
exits. -/
theorem execute_ends {op : Option Opcode} (hop : op ≠ some .call) :
    Ends (execute host sec vm op a b c d)
      (fun vm' => vm'.out = vm.out ++ instructionText host sec vm op d) ErrorStop := by
  have hquiet {x : Outcome VM VM} (hnone : instructionText host sec vm op d = [])
      (hx : Ends x (fun vm' => vm'.out = vm.out) ErrorStop) :
      Ends x (fun vm' => vm'.out = vm.out ++ instructionText host sec vm op d) ErrorStop := by
    rwa [hnone, List.append_nil]
  cases op with
  | none => exact hquiet rfl rfl
  | some op =>
      cases op with
      | call => exact absurd rfl hop
      | cstr | ctype | cbool | cnil | cshort | fnew => exact hquiet rfl (set_next_ends rfl _ _)
      | ckey =>
          exact hquiet rfl ((cstrAt_ends rfl).bind fun _ hread => set_next_ends hread _ _)
      | nsset =>
          refine hquiet rfl ((VM.get_ends rfl a).bind fun _ hget => ?_)
          refine (cstrAt_ends hget).bind fun _ hread => ?_
          exact (nameAt_ends hread _).bind fun _ hname => hname
      | nsget =>
          refine hquiet rfl ((cstrAt_ends rfl).bind fun _ hread => ?_)
          exact (nameAt_ends hread _).bind fun _ hname => set_next_ends hname _ _
      | addvv | subvv | mulvv | divvv => exact hquiet rfl (execArith_ends rfl _)
      | modvv => exact hquiet rfl (execModvv_ends rfl)
      | iseq => exact hquiet rfl (execIseq_ends rfl)
      | mov => exact hquiet rfl ((VM.move_ends rfl _ _).bind fun _ hmoved => hmoved)
      | bulkmov => exact hquiet rfl ((bulkMove_ends _ _ rfl).bind fun _ hmoved => hmoved)
      | jumpf =>
          refine (VM.get_ends rfl a).bind fun read hread => ?_
          change (if _ then (read.1.print truthText).jump d else (read.1.print truthText).next).out
            = vm.out ++ [truthText]
          split <;> exact congrArg (· ++ [truthText]) hread
      | jumpt =>
          refine (VM.get_ends rfl a).bind fun read hread => ?_
          have hprint : ((read.1.print truthText).print truthText).out =
              vm.out ++ [truthText, truthText] := by
            simp [VM.print, hread]
          change (if _ then VM.jump _ d else VM.next _).out = _
          split <;> exact hprint
      | ret => exact hquiet rfl (execRet_ends rfl)
      | alloc => exact execAlloc_ends
      | setfield =>
          refine hquiet rfl ((VM.get_ends rfl a).bind fun _ hobj => ?_)
          refine (VM.get_ends hobj c).bind fun _ hvalue => ?_
          exact (VM.storeRef_ends hvalue _ _ _).bind fun _ hstored => hstored
      | getfield =>
          refine hquiet rfl ((VM.get_ends rfl b).bind fun _ hobj => ?_)
          exact (VM.loadRef_ends host _ _).bind fun _ _ => set_next_ends hobj _ _
      | exit => exact rfl
      | jump | loop | cint | cfloat | setf | powvv | islt | isge | isle | isgt | isneq | not
      | neg | apply | vfnew | getfreevar | uclo | newarray | getarray | setarray | funcf
      | funcv | «break» | drop | tranc => exact hquiet rfl rfl

end Instructions

/-! ## Calls -/

section Congruence

variable {host : Host} {u v : VM}

/-! What is printed depends on the objects only. -/

/-- A load through a pointer looks at the heap and its blocks only. -/
theorem loadThrough_congr (hheap : u.heap = v.heap) (hblocks : u.blocks = v.blocks)
    (obj a n : Nat) : u.loadThrough host obj a n = v.loadThrough host obj a n := by
  unfold VM.loadThrough VM.block?
  rw [hheap, hblocks]

/-- Reading a double looks at the heap only, as long as nothing but its value is used. -/
theorem getDouble_bind_congr (hheap : u.heap = v.heap) (hblocks : u.blocks = v.blocks)
    (slot : Word) {β : Type} (f : Double → Outcome VM β) :
    (u.getDouble host slot >>= fun read => f read.2) =
      (v.getDouble host slot >>= fun read => f read.2) := by
  unfold VM.getDouble
  split
  · dsimp only
    rw [loadThrough_congr hheap hblocks]
    cases v.loadThrough host _ _ 8 <;> rfl
  · rfl

/-- Printing an object looks at the heap and its blocks only, if printing its fields does. -/
theorem printObject_congr (hheap : u.heap = v.heap) (hblocks : u.blocks = v.blocks)
    {printField printField' : Word → Outcome VM String}
    (hfield : ∀ word, printField word = printField' word) (slot : Word) :
    printObject host u printField slot = printObject host v printField' slot := by
  have hrefs (obj i : Nat) : u.loadRef host obj i = v.loadRef host obj i := by
    unfold VM.loadRef
    rw [loadThrough_congr hheap hblocks]
  unfold printObject
  simp only [loadThrough_congr hheap hblocks, hrefs, hfield]

/-- Printing a slot looks at the heap and its blocks only, by induction on the depth. -/
theorem printSlot_congr (hheap : u.heap = v.heap) (hblocks : u.blocks = v.blocks)
    (depth : Nat) (slot : Word) : printSlot host u depth slot = printSlot host v depth slot := by
  induction depth generalizing slot with
  | zero => rfl
  | succ depth ih =>
      unfold printSlot
      rw [printObject_congr hheap hblocks ih, getDouble_bind_congr hheap hblocks slot
        fun num => pure ("f" ++ host.float.format num)]

/-- The text of a {lit}`println` depends on the heap and its blocks only. -/
theorem printlnSlot_congr (hheap : u.heap = v.heap) (hblocks : u.blocks = v.blocks)
    (slot : Word) : printlnSlot host u slot = printlnSlot host v slot := by
  unfold printlnSlot
  rw [printObject_congr hheap hblocks (printSlot_congr hheap hblocks _),
    getDouble_bind_congr hheap hblocks slot fun _ => pure "f%"]

end Congruence

/-- The call is one of something that is no function. -/
def callsNoFunction (vm : VM) (a : Nat) : Bool :=
  match vm.words[vm.base + (a + 1)]? with
  | some fnSlot => (calledFunc fnSlot).isNone
  | none => false

/-- The slot that a call prints, if it is one of {lit}`builtin_println`. -/
def printedSlot? (host : Host) (vm : VM) (a : Nat) : Option Word :=
  match vm.words[vm.base + (a + 1)]? with
  | some fnSlot =>
      if calledFunc fnSlot = some 0#16 ∧ getBuiltin fnSlot = host.println then
        vm.words[vm.base + (a + 2)]?
      else none
  | none => none

/-- The text of a call: the rendering of the slot and a newline. -/
def callText (host : Host) (vm : VM) (a : Nat) : List String :=
  match printedSlot? host vm a with
  | some slot =>
      match printlnSlot host vm slot with
      | .ok text => [text, "\n"]
      | .error _ => []
  | none => []

section Calls

variable {host : Host} {vm : VM} {out : List String} {a : Nat}

/-- A read returns the word of the frame, and exits only if there is none. -/
theorem VM.WellFramed.get_ends (h : vm.WellFramed) {i : Nat} (hi : i < 2 ^ 20) :
    Ends (vm.get i)
      (fun read => vm.words[vm.base + i]? = some read.2 ∧ VM.Acts vm [] read.1 ∧
        read.1.out = vm.out)
      (fun status _ _ => status = 1 ∧ vm.words[vm.base + i]? = none) := by
  have hout := VM.get_ends (rfl : vm.out = vm.out) i
  rcases h.get_spec hi with ⟨vm', hacts, hread⟩
  split at hread
  · next word hword =>
    rw [hread] at hout ⊢
    exact ⟨hword, hacts, hout⟩
  · next hword =>
    rcases hread with ⟨printed, hread⟩
    rw [hread]
    exact ⟨rfl, hword⟩

/-- Clearing the slots of a call prints nothing. -/
theorem clearSlots_ends {stop : Nat → VM → List String → Prop} (turns i : Nat)
    (h : vm.out = out) :
    Ends (clearSlots turns i vm) (fun vm' => vm'.out = out) stop := by
  induction turns generalizing i vm with
  | zero => exact h
  | succ turns ih => exact (VM.set_ends h _ _).bind fun _ hset => ih _ hset

/-- The builtin prints slot 2 of its frame and a newline. -/
theorem builtinPrintln_ends (h : vm.WellFramed) :
    Ends (builtinPrintln host vm)
      (fun vm' => ∃ slot text, vm.words[vm.base + 2]? = some slot ∧
        printlnSlot host vm slot = .ok text ∧ vm'.out = vm.out ++ [text, "\n"])
      ErrorStop := by
  refine ((h.get_ends (by decide)).mono (fun _ hread => hread)
    (fun _ _ _ hstop => hstop.1)).bind ?_
  rintro ⟨read, slot⟩ ⟨hslot, hacts, hout⟩
  have hheap : read.heap = vm.heap := congrArg Rest.heap hacts.rest
  have hblocks : read.blocks = vm.blocks := congrArg Rest.blocks hacts.rest
  refine (printlnSlot_ends slot).eq_ok.bind ?_
  rintro text ⟨htext, _⟩
  rw [printlnSlot_congr hheap hblocks] at htext
  have hprint : ((read.print text).print "\n").out = vm.out ++ [text, "\n"] := by
    rw [← hout]
    exact List.append_assoc ..
  exact (VM.set_ends hprint 0 getNil).mono
    (fun _ hset => ⟨slot, text, hslot, htext, hset⟩) (fun _ _ _ hstop => hstop)

/-- A call of a builtin that returns was a {lit}`println`, and printed slot two of its frame
and a newline. -/
theorem callBuiltin_ends (h : vm.WellFramed) (fnSlot : Word) :
    Ends (callBuiltin host vm fnSlot a)
      (fun vm' => getBuiltin fnSlot = host.println ∧ ∃ slot text,
        vm.words[vm.base + 2]? = some slot ∧ printlnSlot host vm slot = .ok text ∧
          vm'.out = vm.out ++ [text, "\n"])
      ErrorStop := by
  unfold callBuiltin
  split
  · next hprintln =>
    refine (builtinPrintln_ends h).bind ?_
    rintro printed ⟨slot, text, hslot, htext, hout⟩
    refine (clearSlots_ends _ _ hout).bind fun cleared hcleared => ?_
    refine (VM.popContext_ends hcleared).bind fun popped hpopped => ?_
    exact ⟨hprintln, slot, text, hslot, htext, hpopped⟩
  · exact trivial

/-- Entering a function prints nothing. -/
theorem enterContext_ends {stop : Nat → VM → List String → Prop} (h : vm.out = out)
    (func : BitVec 16) :
    Ends (enterContext vm a func) (fun vm' => vm'.out = out) stop :=
  (VM.pushContext_ends h _).bind fun _ hpush => hpush

/-- The slots of a callee are those of its caller from the base of the call on. -/
theorem entered_word {mid entered : VM} {link : BitVec 32} {i : Nat}
    (hentered : VM.Acts mid [.enter a link] entered) :
    entered.words[entered.base + i]? = mid.words[mid.base + (a + i)]? := by
  have hrun := hentered.run
  rw [FrameStack.Frames.run_singleton, FrameStack.Frames.act_enter_eq_some] at hrun
  have hbase : entered.base = mid.base + a := congrArg (fun f => f.current.base) hrun.2
  have hwords : entered.words = mid.words := congrArg FrameStack.Frames.cells hrun.2
  rw [hbase, hwords, Nat.add_assoc]

/-- The callee of a call is entered without a message, and the builtin prints its text. -/
theorem callee_ends {mid : VM} {fnSlot : Word} {func : BitVec 16} (h : vm.WellFramed)
    (ha : a < 256) (hacts : VM.Acts vm [.assign a (toSmallInt vm.pc)] mid)
    (hout : mid.out = vm.out) (hfn : vm.words[vm.base + (a + 1)]? = some fnSlot)
    (hfunc : calledFunc fnSlot = some func) :
    Ends (do
        let entered ← enterContext mid a func
        if func = 0#16 then callBuiltin host entered fnSlot a
        else return { entered with pc := func.setWidth 32 })
      (fun vm' => vm'.out = vm.out ++ callText host vm a) ErrorStop := by
  have hmid := hacts.wellFramed h
  rcases hacts.of_assign with ⟨hwords, hbase⟩
  have hle : mid.base + a ≤ mid.words.length := by
    rw [hbase, hwords, CellArray.length_assign]
    omega
  refine (enterContext_ends hout func).eq_ok.bind ?_
  rintro entered ⟨henter, henteredOut⟩
  have hentered := VM.enterContext_acts hmid (by omega) hle henter
  split
  · next hzero =>
    refine (callBuiltin_ends (hentered.wellFramed hmid) fnSlot).mono ?_
      (fun _ _ _ hstop => hstop)
    rintro vm' ⟨hprintln, slot, text, hslot, htext, hout'⟩
    -- the printed slot lies behind the one that holds the return address
    have hslot' : vm.words[vm.base + (a + 2)]? = some slot := by
      rw [entered_word hentered, hwords, hbase,
        CellArray.getElem?_assign_of_lt _ _ _ (by omega)] at hslot
      exact hslot
    have hrest := (hacts.trans hentered).rest
    rw [printlnSlot_congr (congrArg Rest.heap hrest) (congrArg Rest.blocks hrest)] at htext
    rw [hout', henteredOut]
    simp [callText, printedSlot?, hfn, hfunc, hzero, hprintln, hslot', htext]
  · next hne =>
    change entered.out = _
    simp [henteredOut, callText, printedSlot?, hfn, hfunc, hne]

/-- A call prints the text of {lit}`println` and nothing else.  It exits with status 0 if
there is no function to call, and with status 1 otherwise. -/
theorem execCall_ends (h : vm.WellFramed) (ha : a < 256) :
    Ends (execCall host vm a) (fun vm' => vm'.out = vm.out ++ callText host vm a)
      (fun status _ _ => status = if callsNoFunction vm a then 0 else 1) := by
  refine (VM.set_ends rfl a (toSmallInt vm.pc)).eq_ok.bind ?_
  rintro stored ⟨hset, hstoredOut⟩
  have hstored := VM.set_acts h (by omega) hset
  rcases hstored.of_assign with ⟨hwords, hbase⟩
  have hread : stored.words[stored.base + (a + 1)]? = vm.words[vm.base + (a + 1)]? := by
    rw [hwords, hbase]
    exact CellArray.getElem?_assign_of_lt _ _ _ (by omega)
  refine (((hstored.wellFramed h).get_ends (by omega)).mono (fun _ hread => hread) ?_).bind ?_
  · rintro status _ _ ⟨hstatus, hnone⟩
    rw [hread] at hnone
    simp [hstatus, callsNoFunction, hnone]
  · rintro ⟨mid, fnSlot⟩ ⟨hfn, hmid, hmidOut⟩
    dsimp only at hfn hmid hmidOut ⊢
    rw [hread] at hfn
    cases hfunc : calledFunc fnSlot with
    | none =>
        refine callError_ends.mono (fun _ hfalse => hfalse.elim) ?_
        rintro status _ _ hstatus
        simp [hstatus, callsNoFunction, hfn, hfunc]
    | some func =>
        have hcalls : callsNoFunction vm a = false := by
          simp [callsNoFunction, hfn, hfunc]
        simp only [hcalls]
        exact callee_ends h ha (hstored.trans hmid) (hmidOut.trans hstoredOut) hfn hfunc

end Calls

/-! ## Steps -/

/-- The text of a call of {lit}`println`, if the next instruction is one. -/
def printlnText (host : Host) (sec : Sections) (vm : VM) : List String :=
  match current? host sec vm with
  | some inst => if inst.op = some .call then callText host vm inst.a else []
  | none => []

/-- The text that the next instruction prints without being a call. -/
def ownText (host : Host) (sec : Sections) (vm : VM) : List String :=
  match current? host sec vm with
  | some inst => instructionText host sec vm inst.op inst.d
  | none => []

/-- The next instruction calls something that is no function. -/
def CallsNoFunction (host : Host) (sec : Sections) (vm : VM) : Prop :=
  ∃ inst, current? host sec vm = some inst ∧ inst.op = some .call ∧
    callsNoFunction vm inst.a = true

/-- The next instruction is {lit}`EXIT`. -/
def AtExit (host : Host) (sec : Sections) (vm : VM) : Prop :=
  ∃ inst, current? host sec vm = some inst ∧ inst.op = some .exit

section Steps

variable {host : Host} {sec : Sections} {vm : VM}

/-- A step that returns prints the text of its instruction.  A step that exits has status
0 if it calls something that is no function, and status 1 otherwise. -/
theorem step_ends (h : vm.WellFramed) :
    Ends (step host sec vm)
      (fun vm' => vm'.out = vm.out ++ (printlnText host sec vm ++ ownText host sec vm))
      (fun status _ _ => CallsNoFunction host sec vm ∧ status = 0 ∨
        ¬ CallsNoFunction host sec vm ∧ status = 1) := by
  unfold step printlnText ownText CallsNoFunction
  cases hinst : current? host sec vm with
  | none => exact trivial
  | some inst =>
      by_cases hop : inst.op = some .call
      · simp only [hop, execute]
        refine (execCall_ends h (VM.current?_lt hinst).1).mono ?_ ?_
        · intro vm' hout
          simpa [instructionText] using hout
        · intro status _ _ hstatus
          cases hcalls : callsNoFunction vm inst.a <;> simp_all
      · refine (execute_ends hop).mono ?_ ?_
        · intro vm' hout
          simpa [hop] using hout
        · intro status _ _ hstatus
          exact .inr ⟨by simp [hop], hstatus⟩

/-- A step at an {lit}`EXIT` exits with status 1 and prints nothing. -/
theorem step_of_atExit (h : AtExit host sec vm) :
    step host sec vm = .error (.exit 1 vm.next []) := by
  rcases h with ⟨inst, hinst, hop⟩
  simp only [step, hinst, hop, execute]

end Steps

/-! ## Runs of the process -/

/-- The process is the machine running from the state that the loader's code leaves it in. -/
theorem start_eq_run {calls : SysCalls} {host : Host} {sec : Sections} {code : Nat}
    (hload : loadfileWith calls host .zero = .ok (code, sec)) (turns : Nat) :
    start calls host turns = run host sec turns (entryState host code) := by
  unfold start
  rw [hload]
  rfl

/-- This state is well formed, also when the file was not loaded. -/
theorem entryState_wellFormed (host : Host) (code : Nat) :
    (entryState host code).WellFormed host := by
  have hinit : (vmInit host).WellFormed host := ⟨VM.vmInit_wellFramed host, host.fits_nil⟩
  unfold entryState
  split
  · exact ⟨⟨hinit.slots, hinit.stack, hinit.ordered⟩, hinit.fits⟩
  · exact hinit

end ClojitCvm
