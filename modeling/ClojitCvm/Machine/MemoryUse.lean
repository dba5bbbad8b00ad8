import ClojitCvm.Machine.Endings
import ClojitCvm.Machine.FrameInvariant
import ClojitCvm.Machine.ProgramCounter
import ClojitCvm.Machine.Tracing

/-!
# Memory of a run

A call needs at most so many slots more than its caller as an operand can count, and both
growing arrays double only when they are full.  So loops and calls that have returned cost
no memory.

Main results:

- Theorem {lit}`memory_linear_in_depth`: the slots in use are linear in the depth of the
  calls, and the capacities of both arrays are linear in the greatest depth so far.
-/

namespace ClojitCvm

open CellArray FrameStack LockStep Slot

/-- The indices an instruction can write are less than this behind the base. -/
def frameReach : Nat := 520

/-! ## The slot array -/

/-- The used slots and the capacity keep below two bounds. -/
structure Slots.Fits (size capacity : Nat) (slots : Slots) : Prop where
  size_le : slots.size ≤ size
  capacity_le : slots.capacity ≤ capacity

section Slots

variable {size capacity : Nat} {slots : Slots} {index : Nat} {value : Word}

/-- A move to another block keeps below the bounds if the block does. -/
theorem moveTo_fits (h : slots.Fits size capacity) {room : Nat} (hroom : room ≤ capacity)
    (call : RootCall) :
    Ends (moveTo slots room call) (Slots.Fits size capacity) fun _ _ _ => True := by
  unfold moveTo
  split
  · exact trivial
  · exact ⟨h.size_le, hroom⟩

/-- Half of the capacity, or the capacity as it was. -/
theorem halveIfSparse_fits (h : slots.Fits size capacity) :
    Ends (halveIfSparse slots) (Slots.Fits size capacity) fun _ _ _ => True := by
  unfold halveIfSparse
  split
  · exact moveTo_fits h (Nat.le_trans (Nat.div_le_self _ _) h.capacity_le) _
  · exact h

/-- A read can only give room back. -/
theorem slotsGet_fits (h : slots.Fits size capacity) (index : Nat) :
    Ends (slotsGet slots index) (fun r => r.1.Fits size capacity) fun _ _ _ => True := by
  refine (halveIfSparse_fits h).bind fun halved hhalved => ?_
  split
  · exact trivial
  · split
    · exact trivial
    · exact hhalved

/-- An array is doubled when it is full, and so to less than twice the bound of its
size. -/
theorem slotsAppend_fits (h : slots.Fits size capacity) (hroom : 2 * size ≤ capacity)
    (hlt : slots.size < size) (value : Word) :
    Ends (slotsAppend slots value) (Slots.Fits size capacity) fun _ _ _ => True := by
  have hdoubled : Ends (slotsDoubleCapacityIfFull slots)
      (fun doubled => doubled.Fits size capacity ∧ doubled.size < size)
      fun _ _ _ => True := by
    unfold slotsDoubleCapacityIfFull
    split
    · unfold moveTo
      split
      · exact trivial
      · have hwrap := Nat.mod_le (slots.capacity * 2) (2 ^ 32)
        exact ⟨⟨h.size_le, by dsimp only; omega⟩, hlt⟩
    · exact ⟨h, hlt⟩
  refine hdoubled.bind fun doubled hdoubled => ?_
  split
  · exact trivial
  · have hwrap := Nat.mod_le (doubled.size + 1) (2 ^ 32)
    exact ⟨by dsimp only; omega, hdoubled.1.capacity_le⟩

/-- Filling a gap in front of the bound doubles an array only while it is below the bound,
so that it stays below twice the bound. -/
theorem appendUntil_fits (h : slots.Fits size capacity) (hroom : 2 * size ≤ capacity)
    (hindex : index < size) (turns : Nat) :
    Ends (appendUntil index turns slots) (Slots.Fits size capacity) fun _ _ _ => True := by
  induction turns generalizing slots with
  | zero => exact h
  | succ turns ih =>
      unfold appendUntil
      split
      · exact (slotsAppend_fits h hroom (by omega) _).bind fun _ h => ih h
      · exact h

/-- A write in front of the bound needs no more than twice the bound. -/
theorem slotsSet_fits (h : slots.Fits size capacity) (hroom : 2 * size ≤ capacity)
    (hindex : index < size) (value : Word) :
    Ends (slotsSet slots index value) (Slots.Fits size capacity) fun _ _ _ => True := by
  refine (appendUntil_fits h hroom hindex _).bind fun grown hgrown => ?_
  split
  · exact trivial
  · exact ⟨hgrown.size_le, hgrown.capacity_le⟩

end Slots

/-! ## Work in a frame -/

/-- The machine worked on its slots, and its arrays fit. -/
structure Working (size capacity : Nat) (vm vm' : VM) : Prop where
  base_eq : vm'.base = vm.base
  stack_eq : vm'.stack = vm.stack
  fits : vm'.slots.Fits size capacity

section Working

variable {size capacity : Nat} {host : Host} {sec : Sections} {origin vm vm' : VM}
  {a b c i : Nat} {d : BitVec 16}

/-- What holds of the result of a call, if there is one. -/
def Yields {α : Type} (x : Outcome VM α) (post : α → Prop) : Prop :=
  Ends x post fun _ _ _ => True

/-- A machine that has done nothing yet. -/
theorem Working.refl (h : vm.slots.Fits size capacity) : Working size capacity vm vm :=
  ⟨rfl, rfl, h⟩

/-- What holds of the slots after an operation holds of the machine. -/
theorem yields_of_fits {α : Type} {x : Outcome Slots α} {post : α → Prop}
    (h : Ends x post fun _ _ _ => True) : Yields (vm.onSlots x) post := by
  rcases x with (⟨status, slots, printed⟩ | why) | r
  · exact trivial
  · exact trivial
  · exact h

/-- A read of a slot is work in the frame. -/
theorem get_working (h : Working size capacity origin vm) (i : Nat) :
    Yields (vm.get i) fun r => Working size capacity origin r.1 :=
  (yields_of_fits (slotsGet_fits h.fits _)).bind fun _ hfits => ⟨h.base_eq, h.stack_eq, hfits⟩

/-- A write to a slot below the bound is work in the frame. -/
theorem set_working (h : Working size capacity origin vm) (hroom : 2 * size ≤ capacity)
    (hi : origin.base + i < size) (value : Word) :
    Yields (vm.set i value) (Working size capacity origin) := by
  have hwrap := Nat.mod_le (vm.base + i) (2 ^ 32)
  have hbase := h.base_eq
  exact (yields_of_fits (slotsSet_fits h.fits hroom (by omega) value)).bind
    fun _ hfits => ⟨h.base_eq, h.stack_eq, hfits⟩

/-- A move to a slot below the bound is work in the frame, wherever it reads. -/
theorem move_working (h : Working size capacity origin vm) (hroom : 2 * size ≤ capacity)
    (hi : origin.base + i < size) (source : Nat) :
    Yields (vm.move i source) (Working size capacity origin) :=
  (get_working h source).bind fun r hr => set_working hr hroom hi r.2

/-- Output and the program counter are no part of the arrays. -/
theorem Working.next (h : Working size capacity origin vm) : Working size capacity origin vm.next :=
  ⟨h.base_eq, h.stack_eq, h.fits⟩

/-- The output is no part of the bounds. -/
theorem Working.print (h : Working size capacity origin vm) (text : String) :
    Working size capacity origin (vm.print text) :=
  ⟨h.base_eq, h.stack_eq, h.fits⟩

/-- The loop of {lit}`BULKMOV` works below the bound if its last target is there. -/
theorem bulkMove_working (h : Working size capacity origin vm) (hroom : 2 * size ≤ capacity)
    (b turns i : Nat) (hi : origin.base + (a + i + turns) ≤ size) :
    Yields (bulkMove a b turns i vm) (Working size capacity origin) := by
  induction turns generalizing vm i with
  | zero => exact h
  | succ turns ih =>
      exact (move_working h hroom (by omega) _).bind fun _ h => ih h (i + 1) (by omega)

/-- The loop that clears slots works below the bound if its last slot is there. -/
theorem clearSlots_working (h : Working size capacity origin vm) (hroom : 2 * size ≤ capacity)
    (turns i : Nat) (hi : origin.base + (i + turns) ≤ size) :
    Yields (clearSlots turns i vm) (Working size capacity origin) := by
  induction turns generalizing vm i with
  | zero => exact h
  | succ turns ih =>
      exact (set_working h hroom (by omega) _).bind fun _ h => ih h (i + 1) (by omega)

/-- Reading a double changes no array. -/
theorem getDouble_working (h : Working size capacity origin vm) (host : Host) (slot : Word) :
    Yields (vm.getDouble host slot) fun r => Working size capacity origin r.1 := by
  unfold VM.getDouble
  split
  · exact (VM.loadThrough_ends host _ _ 8).bind fun _ _ => h
  · exact h.print _

/-- Reading the string table changes no array. -/
theorem cstrAt_working (h : Working size capacity origin vm) (sec : Sections) (d : BitVec 16) :
    Yields (cstrAt sec vm d) fun r => Working size capacity origin r.1 := by
  unfold cstrAt
  split
  · exact h
  · exact trivial

/-- Reading a name changes no array. -/
theorem nameAt_working (h : Working size capacity origin vm) (host : Host) (p : Nat) :
    Yields (nameAt host vm p) fun r => Working size capacity origin r.1 := by
  unfold nameAt
  split
  · exact h
  · exact trivial

/-- A store into an object changes the heap only. -/
theorem storeRef_working (h : Working size capacity origin vm) (obj i : Nat) (value : Word) :
    Yields (vm.storeRef obj i value) (Working size capacity origin) := by
  unfold VM.storeRef
  split
  · split
    · exact ⟨h.base_eq, h.stack_eq, h.fits⟩
    · exact trivial
  · exact trivial

/-- An allocation reads its slot, and never writes it. -/
theorem execAlloc_working (h : Working size capacity origin vm) :
    Yields (execAlloc host sec vm a d) (Working size capacity origin) := by
  unfold execAlloc
  split
  · exact trivial
  · refine (get_working h a).bind fun ⟨mid, slot⟩ h => ?_
    simp only [VM.mpsAllocObj]
    split
    · dsimp only [bind, Except.bind]
      split
      · exact ⟨h.base_eq, h.stack_eq, h.fits⟩
      · exact ⟨h.base_eq, h.stack_eq, h.fits⟩
    · exact trivial

/-! ## Instructions -/

variable (hroom : 2 * size ≤ capacity) (hreach : origin.base + frameReach ≤ size)

include hroom hreach

/-- The result of an operation goes to a slot that an operand can name. -/
theorem setInt_working (h : Working size capacity origin vm) (ha : a < 256)
    (result : Option (BitVec 32)) :
    Yields (setInt vm a result) (Working size capacity origin) := by
  unfold frameReach at hreach
  cases result with
  | none => exact trivial
  | some num => exact set_working h hroom (by omega) _

/-- Every case of an arithmetic instruction writes at most one such slot. -/
theorem arithCases_working (h : Working size capacity origin vm) (ha : a < 256) (op : Arith)
    (x y : Word) :
    Yields (arithCases op host vm a x y) (Working size capacity origin) := by
  have hfits : origin.base + a < size := by
    unfold frameReach at hreach
    omega
  unfold arithCases
  split
  · exact setInt_working hroom hreach h ha _
  · split
    · exact (getDouble_working h host x).bind fun _ h =>
        (getDouble_working h host y).bind fun _ h => set_working h hroom hfits _
    · split
      · exact (getDouble_working h host x).bind fun _ h => set_working h hroom hfits _
      · split
        · exact (getDouble_working h host y).bind fun _ h => set_working h hroom hfits _
        · exact h

/-- An arithmetic instruction is two reads and at most one write. -/
theorem execArith_working (h : Working size capacity origin vm) (ha : a < 256) (op : Arith) :
    Yields (execArith op host vm a b c) (Working size capacity origin) :=
  (get_working h b).bind fun _ h => (get_working h c).bind fun _ h =>
    (arithCases_working hroom hreach h ha op _ _).bind fun _ h => h.next

/-- The remainder is two reads and one write. -/
theorem execModvv_working (h : Working size capacity origin vm) (ha : a < 256) :
    Yields (execModvv vm a b c) (Working size capacity origin) := by
  refine (get_working h b).bind fun _ h => (get_working h c).bind fun ⟨mid, y⟩ h => ?_
  dsimp only
  split
  · exact (setInt_working hroom hreach h ha _).bind fun _ h => h.next
  · exact trivial

/-- The comparison is two reads and one write. -/
theorem execIseq_working (h : Working size capacity origin vm) (ha : a < 256) :
    Yields (execIseq host vm a b c) (Working size capacity origin) := by
  have hfits : origin.base + a < size := by
    unfold frameReach at hreach
    omega
  refine (get_working h b).bind fun _ h => (get_working h c).bind fun ⟨mid, y⟩ h => ?_
  dsimp only
  split
  · exact set_working h.next hroom hfits _
  · split
    · exact (getDouble_working h.next host _).bind fun _ h =>
        (getDouble_working h host _).bind fun _ h => set_working h hroom hfits _
    · exact trivial

/-- Every instruction works in its frame, apart from calls and returns. -/
theorem execute_working (h : origin.slots.Fits size capacity) {op : Option Opcode}
    (hcall : op ≠ some .call) (hret : op ≠ some .ret) (ha : a < 256) (hc : c < 256) :
    Yields (execute host sec origin op a b c d) (Working size capacity origin) := by
  have hstart := Working.refl h
  have hfits : origin.base + a < size := by
    unfold frameReach at hreach
    omega
  have hput (value : Word) : Yields (do let vm ← origin.set a value; return vm.next)
      (Working size capacity origin) :=
    (set_working hstart hroom hfits value).bind fun _ h => h.next
  cases op with
  | none => exact hstart.next
  | some op =>
      cases op with
      | cstr | ctype | cbool | cnil | cshort | fnew => exact hput _
      | ckey =>
          simp only [execute, execCkey, cstrAt]
          split
          · exact hput _
          · exact trivial
      | nsset =>
          refine (get_working hstart a).bind fun _ h => (cstrAt_working h sec d).bind fun _ h => ?_
          exact (nameAt_working h host _).bind fun _ h => ⟨h.base_eq, h.stack_eq, h.fits⟩
      | nsget =>
          refine (cstrAt_working hstart sec d).bind fun _ h => ?_
          exact (nameAt_working h host _).bind fun _ h =>
            (set_working h hroom hfits _).bind fun _ h => h.next
      | addvv => exact execArith_working hroom hreach hstart ha _
      | subvv => exact execArith_working hroom hreach hstart ha _
      | mulvv => exact execArith_working hroom hreach hstart ha _
      | divvv => exact execArith_working hroom hreach hstart ha _
      | modvv => exact execModvv_working hroom hreach hstart ha
      | iseq => exact execIseq_working hroom hreach hstart ha
      | mov => exact (move_working hstart hroom hfits _).bind fun _ h => h.next
      | bulkmov =>
          refine (bulkMove_working hstart hroom b c 0 ?_).bind fun _ h => h.next
          unfold frameReach at hreach
          omega
      | jump => exact ⟨rfl, rfl, h⟩
      | jumpf =>
          refine (get_working hstart a).bind fun r h => ?_
          rcases r with ⟨mid, slot⟩
          dsimp only
          split
          · exact ⟨h.base_eq, h.stack_eq, h.fits⟩
          · exact (h.print _).next
      | jumpt =>
          refine (get_working hstart a).bind fun r h => ?_
          rcases r with ⟨mid, slot⟩
          dsimp only
          split
          · exact ⟨h.base_eq, h.stack_eq, h.fits⟩
          · exact ((h.print _).print _).next
      | call => exact absurd rfl hcall
      | ret => exact absurd rfl hret
      | loop => exact hstart
      | alloc => exact execAlloc_working hstart
      | setfield =>
          exact (get_working hstart a).bind fun _ h => (get_working h c).bind fun _ h =>
            (storeRef_working h _ _ _).bind fun _ h => h.next
      | getfield =>
          refine (get_working hstart b).bind fun _ h => ?_
          exact (VM.loadRef_ends host _ _).bind fun word _ =>
            (set_working h hroom hfits word).bind fun _ h => h.next
      | exit => exact trivial
      | _ => exact hstart.next

end Working

/-! ## The context stack -/

/-- A push doubles a full array only. -/
theorem push_ends_room (stack : Stack) (ctx : Context) :
    Ends (push stack ctx)
      (fun pushed => pushed.capacity = stack.capacity ∨
        pushed.capacity = stack.capacity * 2 ∧ stack.capacity ≤ stack.top)
      fun _ _ _ => True := by
  unfold push stackDoubleCapacityIfFull
  split
  · next hfull =>
    split
    · exact trivial
    · dsimp only [bind, Except.bind]
      split
      · exact trivial
      · exact .inr ⟨rfl, hfull⟩
  · dsimp only [bind, Except.bind]
    split
    · exact trivial
    · exact .inl rfl

/-- A pop keeps its room. -/
theorem pop_ends_room (stack : Stack) :
    Ends (pop stack) (fun r => r.1.capacity = stack.capacity) fun _ _ _ => True := by
  unfold pop
  dsimp only
  split
  · exact trivial
  · split
    · exact trivial
    · exact rfl

/-- What holds of the context stack after an operation holds of the machine. -/
theorem yields_of_stack {α : Type} {vm : VM} {x : Outcome Stack α} {post : α → Prop}
    (h : Ends x post fun _ _ _ => True) : Yields (vm.onStack x) post := by
  rcases x with (⟨status, stack, printed⟩ | why) | r
  · exact trivial
  · exact trivial
  · exact h

/-! ## Calls and returns -/

/-- The slots fit, and the context stack has no more room than this. -/
structure Roomy (size capacity : Nat) (room : Int) (vm : VM) : Prop where
  fits : vm.slots.Fits size capacity
  room_le : vm.stack.capacity ≤ room

section Roomy

variable {size capacity : Nat} {room : Int} {host : Host} {vm mid : VM} {a : Nat}

/-- Work in a frame keeps the room of the context stack. -/
theorem Working.roomy {origin : VM} (h : Working size capacity origin vm)
    (horigin : origin.stack.capacity ≤ room) : Roomy size capacity room vm :=
  ⟨h.fits, h.stack_eq ▸ horigin⟩

/-- Restoring a context keeps the room of the context stack. -/
theorem popContext_roomy (h : Roomy size capacity room vm) :
    Yields vm.popContext fun r => Roomy size capacity room r.1 := by
  refine (yields_of_stack (pop_ends_room vm.stack)).bind fun r hcapacity => ?_
  exact ⟨h.fits, hcapacity ▸ h.room_le⟩

/-- The context stack gets more room only for more contexts than it ever had. -/
theorem enterContext_roomy (h : Roomy size capacity room mid) (htop : mid.stack.top * 2 ≤ room)
    (func : BitVec 16) :
    Yields (enterContext mid a func) fun vm =>
      Roomy size capacity room vm ∧ vm.base ≤ mid.base + a := by
  have hroom := h.room_le
  have hpush : Yields (mid.pushContext mid.getContext) fun vm =>
      Roomy size capacity room vm ∧ vm.base = mid.base := by
    refine (yields_of_stack (push_ends_room mid.stack mid.getContext)).bind fun stack hstack => ?_
    refine ⟨⟨h.fits, ?_⟩, rfl⟩
    change stack.capacity ≤ room
    rcases hstack with hsame | ⟨hdouble, hfull⟩
    · omega
    · omega
  refine hpush.bind fun vm hvm => ?_
  rw [← hvm.2]
  exact ⟨⟨hvm.1.fits, hvm.1.room_le⟩, Nat.mod_le _ _⟩

/-- A builtin clears slots of its frame, up to ten more than its operand counts, and returns. -/
theorem callBuiltin_roomy (h : Roomy size capacity room vm) (hroom : 2 * size ≤ capacity)
    (hbase : vm.base + a + 10 ≤ size) (fnSlot : Word) :
    Yields (callBuiltin host vm fnSlot a) (Roomy size capacity room) := by
  unfold callBuiltin
  split
  · have hprintln : Yields (builtinPrintln host vm) (Working size capacity vm) := by
      refine (get_working (Working.refl h.fits) 2).bind fun r hr => ?_
      refine (printlnSlot_ends r.2).bind fun text _ => ?_
      exact set_working ((hr.print text).print _) hroom (by omega) getNil
    refine hprintln.bind fun printed hprinted => ?_
    refine (clearSlots_working hprinted hroom (a + 8) 2 (by omega)).bind fun cleared hcleared => ?_
    exact (popContext_roomy (hcleared.roomy h.room_le)).bind fun r hr => ⟨hr.fits, hr.room_le⟩
  · exact trivial

/-- A call stays below the bounds if its frame begins below them and the stack may have twice
the room of its contexts. -/
theorem execCall_roomy (h : Roomy size capacity room vm) (hroom : 2 * size ≤ capacity)
    (hreach : vm.base + frameReach ≤ size) (htop : vm.stack.top * 2 ≤ room) (ha : a < 256) :
    Yields (execCall host vm a) (Roomy size capacity room) := by
  unfold frameReach at hreach
  refine (set_working (Working.refl h.fits) hroom (by omega) _).bind fun stored hstored => ?_
  refine (get_working hstored (a + 1)).bind fun r hr => ?_
  rcases r with ⟨mid, fnSlot⟩
  dsimp only at hr ⊢
  cases calledFunc fnSlot with
  | none => exact callError_ends.mono (fun _ hfalse => hfalse.elim) fun _ _ _ _ => trivial
  | some func =>
      have hmid : mid.stack.top * 2 ≤ room := by rwa [hr.stack_eq]
      have hbase := hr.base_eq
      refine (enterContext_roomy (hr.roomy h.room_le) hmid func).bind fun entered hentered => ?_
      have hentry := hentered.2
      split
      · exact callBuiltin_roomy hentered.1 hroom (by omega) fnSlot
      · exact ⟨hentered.1.fits, hentered.1.room_le⟩

/-- Behind a return the slots end at the result. -/
theorem execRet_roomy (h : Roomy size capacity room vm) (hroom : 2 * size ≤ capacity)
    (hreach : vm.base + frameReach ≤ size) (a : Nat) :
    Yields (execRet vm a) fun vm' =>
      vm'.slots.size ≤ vm.base + a ∧ Roomy (vm.base + a) capacity room vm' := by
  unfold frameReach at hreach
  refine (get_working (Working.refl h.fits) 0).bind fun r hr => ?_
  refine (move_working hr hroom (by omega) a).bind fun moved hmoved => ?_
  have hcut : Roomy (vm.base + a) capacity room (moved.truncate a) := by
    refine ⟨⟨?_, hmoved.fits.capacity_le⟩, (hmoved.roomy h.room_le).room_le⟩
    rw [← hmoved.base_eq]
    exact Nat.mod_le _ _
  exact (popContext_roomy hcut).bind fun r hr => ⟨hr.fits.size_le, hr.fits, hr.room_le⟩

end Roomy

/-! ## Bounds of a run -/

/-- The greatest depth so far. -/
def deepestBehind (_ vm' : VM) (deepest : Nat) : Nat :=
  max deepest vm'.contexts.length

/-- A turn of the machine with the greatest depth of its calls kept beside it. -/
def stepDeepest (host : Host) (sec : Sections) : VM × Nat → Outcome VM (VM × Nat) :=
  recorded (step host sec) deepestBehind

/-- The arrays are as small as the calls allow. -/
structure Frugal (vm : VM) (deepest : Nat) : Prop where
  spaced : vm.frames.Spaced 255
  size_le : vm.slots.size ≤ 255 * vm.contexts.length + frameReach
  capacity_le : vm.slots.capacity ≤ 2 * (255 * deepest + frameReach)
  room_le : vm.stack.capacity ≤ 2 * deepest + stackInitialCapacity
  depth_le : vm.contexts.length ≤ deepest

namespace Frugal

variable {host : Host} {sec : Sections} {vm vm' : VM} {deepest : Nat}

/-- The bounds hold before the first turn, with no call open. -/
theorem init (host : Host) : Frugal (vmInit host) 0 where
  spaced := ⟨Nat.zero_le _, fun _ _ hcaller => by cases hcaller⟩
  size_le := Nat.zero_le _
  capacity_le := Nat.le_of_ble_eq_true rfl
  room_le := Int.le_refl _
  depth_le := Nat.le_refl _

/-- No instruction enters a frame farther away than its operand says. -/
theorem entersWithin {op : Option Opcode} {a b c : Nat} {d : BitVec 16}
    {actions : List SlotAction} {rest : Rest} (ha : a < 256)
    (heffect : Effect host sec vm a b c d op actions rest) :
    Frames.EntersWithin 255 actions := by
  intro offset link hmem
  cases heffect with
  | call | builtin =>
      have hoffset : offset = a := by
        simp [builtinCall, clears] at hmem
        exact hmem.1
      omega
  | bulkmov hmoves =>
      rcases hmoves _ hmem with ⟨_, _, heq, _⟩
      cases heq
  | _ => simp at hmem

/-- The base is at most one operand behind that of the caller, for every open call. -/
theorem base_le (h : Frugal vm deepest) : vm.base ≤ 255 * vm.contexts.length := by
  have hbase := h.spaced.base_le
  rwa [VM.length_callers] at hbase

/-- A turn that leaves no frame keeps the bounds of its frame. -/
theorem of_roomy (hspaced : vm'.frames.Spaced 255)
    (hdepth : vm.contexts.length ≤ vm'.contexts.length)
    (hroomy : Roomy (255 * vm.contexts.length + frameReach) (2 * (255 * deepest + frameReach))
      (2 * deepest + stackInitialCapacity) vm') :
    Frugal vm' (deepestBehind vm vm' deepest) where
  spaced := hspaced
  size_le := Nat.le_trans hroomy.fits.size_le (by omega)
  capacity_le := Nat.le_trans hroomy.fits.capacity_le (by unfold deepestBehind; omega)
  room_le := Int.le_trans hroomy.room_le (by unfold deepestBehind; omega)
  depth_le := Nat.le_max_right _ _

/-- A turn keeps the bounds. -/
theorem step (h : Frugal vm deepest) (hwf : vm.WellFormed host)
    (hok : ClojitCvm.step host sec vm = .ok vm') :
    Frugal vm' (deepestBehind vm vm' deepest) := by
  rcases VM.step_effect hwf.toWellFramed hwf.fits hok with
    ⟨⟨op, a, b, c, d⟩, hinst, ha, hb, hc, actions, heffect, hmoves⟩
  dsimp only at ha hc heffect
  have hspaced := Frames.run_spaced h.spaced (entersWithin ha heffect) hmoves.run
  have hroomy : Roomy (255 * vm.contexts.length + frameReach) (2 * (255 * deepest + frameReach))
      (2 * deepest + stackInitialCapacity) vm :=
    ⟨⟨h.size_le, h.capacity_le⟩, h.room_le⟩
  have hdepth := h.depth_le
  have hroom : 2 * (255 * vm.contexts.length + frameReach) ≤ 2 * (255 * deepest + frameReach) := by
    omega
  have hbase := h.base_le
  have hreach : vm.base + frameReach ≤ 255 * vm.contexts.length + frameReach := by omega
  have hexec := VM.step_eq_execute hinst ▸ hok
  dsimp only at hexec
  by_cases hret : op = some .ret
  · subst hret
    have hdone := (execRet_roomy hroomy hroom hreach a).ok hexec
    have hcontexts := VM.Effected.contexts_of_ret ⟨actions, heffect, hmoves⟩
    have hsize := hdone.1
    refine ⟨hspaced, ?_, hdone.2.fits.capacity_le.trans ?_, hdone.2.room_le.trans ?_,
      Nat.le_max_right _ _⟩
    · unfold frameReach
      omega
    · unfold deepestBehind
      omega
    · unfold deepestBehind
      omega
  · have hgrows := (VM.Effect.advances hret heffect hmoves.run).callers_le
    rw [VM.length_callers, VM.length_callers] at hgrows
    refine of_roomy hspaced hgrows ?_
    by_cases hcall : op = some .call
    · subst hcall
      have htop : vm.stack.top * 2 ≤ 2 * deepest + stackInitialCapacity := by
        rw [hwf.stack.top_eq]
        omega
      exact (execCall_roomy hroomy hroom hreach htop ha).ok hexec
    · exact ((execute_working hroom hreach hroomy.fits hcall hret ha hc).ok hexec).roomy h.room_le

end Frugal

/-- In every run the slots in use are linear in the depth of the calls that have not returned,
and the room of both arrays is linear in the greatest depth so far, however long the run is. -/
theorem memory_linear_in_depth {host : Host} {sec : Sections} {vm : VM} {n deepest : Nat}
    (hrun : steps (stepDeepest host sec) n (vmInit host, 0) = .ok (vm, deepest)) :
    vm.slots.size ≤ 255 * vm.contexts.length + 520 ∧
      vm.slots.capacity ≤ 510 * deepest + 1040 ∧ vm.stack.capacity ≤ 2 * deepest + 10 := by
  have hkept : Reachable host sec vm ∧ Frugal vm deepest := by
    refine steps_induction (P := fun s => Reachable host sec s.1 ∧ Frugal s.1 s.2)
      (fun s s' h hok => ?_) ⟨.init, .init host⟩ hrun
    rcases recorded_eq_ok.mp hok with ⟨next, hstep, rfl⟩
    exact ⟨h.1.step hstep, h.2.step h.1.wellFormed hstep⟩
  rcases hkept with ⟨_, hfrugal⟩
  have hsize := hfrugal.size_le
  have hcapacity := hfrugal.capacity_le
  unfold frameReach at hsize hcapacity
  rw [Nat.mul_add, ← Nat.mul_assoc] at hcapacity
  exact ⟨hsize, hcapacity, hfrugal.room_le⟩

/-- The program with nested calls, inside both of its functions. -/
theorem nestedCalls_memory :
    ∃ deepest, steps (stepDeepest nestedHost (loadfile nestedHost)) 5 (vmInit nestedHost, 0) =
        .ok (nestedState 5, deepest) ∧
      (nestedState 5).slots.size ≤ 255 * (nestedState 5).contexts.length + 520 ∧
      (nestedState 5).slots.capacity ≤ 510 * deepest + 1040 ∧
      (nestedState 5).stack.capacity ≤ 2 * deepest + 10 := by
  have hrun : run nestedHost (loadfile nestedHost) 5 (vmInit nestedHost) = .ok (nestedState 5) :=
    run_stateAfter (by decide)
  rw [run_eq_steps] at hrun
  rcases exists_recorded hrun deepestBehind 0 with ⟨deepest, hdeepest⟩
  exact ⟨deepest, hdeepest, memory_linear_in_depth hdeepest⟩

end ClojitCvm
