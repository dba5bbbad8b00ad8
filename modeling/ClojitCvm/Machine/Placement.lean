import ClojitCvm.Machine.Ideal
import ClojitCvm.Machine.PointerSafety

/-!
# Words that are no addresses

Apart from {lit}`CKEY` no instruction makes a word out of an address: integers, types,
functions and booleans have a tag, and {lit}`ALLOC` forgets the address of the object.  A run
without {lit}`CKEY` therefore never finds an object or a byte of the file through a slot, and
where they are cannot matter to it.

Main results:

- Definition {lit}`Beside`: ideal states that differ only in where the objects are, with no
  address in a slot or in a global.
- Theorem {lit}`Beside.step`: a turn of the ideal machine keeps such states together, whatever
  the addresses of the file and of new objects, unless it is a {lit}`CKEY`.
-/

namespace ClojitCvm

open ByteMemory CellArray LockStep Slot

/-! ## Words with a tag -/

/-- Nil and the words with a tag in the high bits. -/
def Plain (word : Word) : Prop :=
  word = 0#64 ∨ 2 ^ 48 ≤ word.toNat

/-- The addresses of the lower half of the address space above the first page. -/
def Addressable (a : Nat) : Prop :=
  4096 ≤ a ∧ a ≤ 2 ^ 47

/-- A word with a tag other than zero is no address. -/
theorem plain_packed (t : BitVec 16) (payload : BitVec 48) (ht : t ≠ 0#16) :
    Plain (packed t payload) := by
  refine .inr ?_
  have hne : t.toNat ≠ 0 := fun hzero => ht (BitVec.eq_of_toNat_eq hzero)
  rw [packed, TaggedWord.pack, BitVec.toNat_append, Nat.shiftLeft_eq]
  have hor := Nat.left_le_or (n := t.toNat * 2 ^ 48) (m := payload.toNat)
  have hmul : 1 * 2 ^ 48 ≤ t.toNat * 2 ^ 48 := Nat.mul_le_mul_right _ (by omega)
  omega

/-- Nil is plain by definition. -/
theorem plain_getNil : Plain getNil :=
  .inl rfl

/-- Integers are plain, also the negative ones, whose sign runs over the tag. -/
theorem plain_toSmallInt (num : BitVec 32) : Plain (toSmallInt num) := by
  rw [toSmallInt_eq_packed]
  apply plain_packed
  split <;> decide

/-- Functions are plain, also those from 32768 on, whose sign runs over the tag. -/
theorem plain_toFnew (type : BitVec 16) : Plain (toFnew type) := by
  rw [toFnew_eq_packed]
  apply plain_packed
  split <;> decide

/-- Types are plain. -/
theorem plain_toType (type : BitVec 16) : Plain (toType type) := by
  rw [toType_eq_packed]
  exact plain_packed _ _ (by decide)

/-- Truth values are plain. -/
theorem plain_toBool (value : Bool) : Plain (toBool value) := by
  rw [toBool_eq_packed]
  exact plain_packed _ _ (by decide)

/-- A builtin is plain as long as its address leaves the tag alone. -/
theorem plain_toBuiltin {fn : Word} (hfn : fn.toNat < 2 ^ 48) : Plain (toBuiltin fn) := by
  have hwidth : (fn.setWidth 48).setWidth 64 = fn := by
    apply BitVec.eq_of_toNat_eq
    have := fn.isLt
    simp only [BitVec.toNat_setWidth]
    omega
  rw [← hwidth, toBuiltin_eq_packed]
  exact plain_packed _ _ (by decide)

/-! ## Programs and states elsewhere -/

/-- An object without its address. -/
def Object.unplaced (obj : Object) : Object :=
  { obj with addr := 0 }

/-- The state without the addresses of its objects. -/
def Ideal.unplaced (p : Ideal) : Ideal :=
  { p with objects := p.objects.map Object.unplaced }

/-- The file and all objects are in the lower half. -/
structure Program.Low (prog : Program) : Prop where
  bytes : ∀ a n, (prog.bytes a n).isSome = true → Addressable a
  reserve : ∀ n blocks size, ∀ addr ∈ prog.reserve n blocks size, Addressable addr

/-- Programs that differ, apart from their code, only in the addresses of strings, of the
file and of new objects. -/
structure Program.Beside (prog prog' : Program) : Prop where
  name : prog.name = prog'.name
  type : prog.type = prog'.type
  println : prog.println = prog'.println
  nativeLimit : prog.nativeLimit = prog'.nativeLimit
  /-- Whether there is memory for an object depends on the sizes alone. -/
  reserve : ∀ n (blocks blocks' : List Block) size,
    blocks.map Block.size = blocks'.map Block.size →
      (prog.reserve n blocks size).isSome = (prog'.reserve n blocks' size).isSome
  low : prog.Low
  low' : prog'.Low

/-- No slot and no global has an address. -/
structure Ideal.Tagged (p : Ideal) : Prop where
  words : ∀ word ∈ p.words, Plain word
  globals : ∀ name, Plain (p.globals name)
  objects : ∀ obj ∈ p.objects, Addressable obj.addr

/-- States that differ only in where the objects are, and have no addresses. -/
structure Beside (p p' : Ideal) : Prop where
  unplaced : p.unplaced = p'.unplaced
  tagged : p.Tagged
  tagged' : p'.Tagged

/-- Two processes end in the same way, up to where the objects are. -/
def SameEnd : Halt Ideal → Halt Ideal → Prop
  | .exit status p printed, .exit status' p' printed' =>
      status = status' ∧ printed = printed' ∧ p.unplaced = p'.unplaced
  | .fault why, .fault why' => why = why'
  | _, _ => False

/-- Two computations end in the same way or have related results. -/
def Agree {α β : Type} (R : α → β → Prop) (x : Outcome Ideal α) (y : Outcome Ideal β) : Prop :=
  Follows never SameEnd R x y

/-! ## Nothing is found through a word -/

/-- No object starts at a plain word: objects are in the lower half, and nil is no address. -/
theorem Ideal.Tagged.object?_eq_none {p : Ideal} (h : p.Tagged) {word : Word}
    (hword : Plain word) : p.object? word.toNat = none := by
  refine List.find?_eq_none.mpr fun obj hobj => ?_
  have hlow := h.objects obj hobj
  rw [decide_eq_true_iff]
  rintro heq
  unfold Addressable at hlow
  rcases hword with rfl | hword
  · rw [BitVec.toNat_ofNat] at heq
    omega
  · omega

/-- No byte of the file is at a plain word or shortly behind it. -/
theorem Program.Low.bytes_eq_none {prog : Program} (h : prog.Low) {word : Word}
    (hword : Plain word) {k : Nat} (hk : k < 4096) (n : Nat) :
    prog.bytes (word.toNat + k) n = none := by
  rw [← Option.not_isSome_iff_eq_none]
  intro hsome
  have hlow := h.bytes _ n hsome
  unfold Addressable at hlow
  rcases hword with rfl | hword
  · rw [BitVec.toNat_ofNat] at hlow
    omega
  · omega

section Nothing

variable {prog : Program} {p : Ideal} {word : Word} (h : p.Tagged) (hprog : prog.Low)
  (hword : Plain word)
include h hprog hword

/-- Reading a header through a plain word is a fault. -/
theorem header_of_plain : p.header prog word.toNat = .error (.fault .wildRead) := by
  unfold Ideal.header
  rw [h.object?_eq_none hword, hprog.bytes_eq_none hword (by decide)]
  rfl

/-- Reading a field through a plain word is a fault, for every index that an operand can
give. -/
theorem field_of_plain {i : Nat} (hi : i < 256) :
    p.field prog word.toNat i = .error (.fault .wildRead) := by
  unfold Ideal.field
  rw [h.object?_eq_none hword]
  dsimp only
  rw [show refAt word.toNat i = word.toNat + (refAt word.toNat i - word.toNat) by
    unfold refAt; omega, hprog.bytes_eq_none hword (by unfold refAt headerSize; omega)]
  rfl

/-- Printing a plain word as an object is the same fault, before any text. -/
theorem printObject_of_plain (printField : Word → Outcome Ideal String) :
    p.printObject prog printField word = .error (.fault .wildRead) := by
  unfold Ideal.printObject
  rw [header_of_plain h hprog hword]
  rfl

end Nothing

/-! ## The operations -/

namespace Beside

variable {p p' : Ideal} {prog prog' : Program} {a b c i : Nat} {d : BitVec 16}

/-- The second state is the first one with other objects. -/
theorem elim (h : Beside p p') : ∃ objects, p' = { p with objects := objects } := by
  have heq := h.unplaced
  rcases p with ⟨pc, ip, base, words, contexts, globals, objects, reserves, out⟩
  rcases p' with ⟨pc', ip', base', words', contexts', globals', objects', reserves', out'⟩
  simp only [Ideal.unplaced, Ideal.mk.injEq] at heq
  rcases heq with ⟨rfl, rfl, rfl, rfl, rfl, rfl, -, rfl, rfl⟩
  exact ⟨objects', rfl⟩

/-- States beside each other have the same objects in the same order, up to the addresses. -/
theorem objects_eq (h : Beside p p') :
    p.objects.map Object.unplaced = p'.objects.map Object.unplaced :=
  congrArg Ideal.objects h.unplaced

/-- Everything but the objects can change in both states. -/
theorem update (h : Beside p p') {pc ip : BitVec 32} {base : Nat} {words : List Word}
    {contexts : List Context} {globals : List Byte → Word} {reserves : Nat}
    {out : List String} (hwords : ∀ word ∈ words, Plain word)
    (hglobals : ∀ name, Plain (globals name)) :
    Beside ⟨pc, ip, base, words, contexts, globals, p.objects, reserves, out⟩
      ⟨pc, ip, base, words, contexts, globals, p'.objects, reserves, out⟩ where
  unplaced := by
    simp only [Ideal.unplaced, h.objects_eq]
  tagged := ⟨hwords, hglobals, h.tagged.objects⟩
  tagged' := ⟨hwords, hglobals, h.tagged'.objects⟩

/-- The program counter can be set on both sides. -/
theorem setPc (h : Beside p p') (pc : BitVec 32) :
    Beside { p with pc := pc } { p' with pc := pc } := by
  rcases h.elim with ⟨objects, rfl⟩
  exact h.update h.tagged.words h.tagged.globals

/-- Both states step on. -/
theorem next (h : Beside p p') : Beside p.next p'.next := by
  rcases h.elim with ⟨objects, rfl⟩
  exact h.update h.tagged.words h.tagged.globals

/-- Both states jump. -/
theorem jump (h : Beside p p') (d : BitVec 16) : Beside (p.jump d) (p'.jump d) := by
  rcases h.elim with ⟨objects, rfl⟩
  exact h.update h.tagged.words h.tagged.globals

/-- Both states print the same text. -/
theorem print (h : Beside p p') (text : String) : Beside (p.print text) (p'.print text) := by
  rcases h.elim with ⟨objects, rfl⟩
  exact h.update h.tagged.words h.tagged.globals

/-- Both states cut their slots off behind an index. -/
theorem truncate (h : Beside p p') (a : Nat) : Beside (p.truncate a) (p'.truncate a) := by
  rcases h.elim with ⟨objects, rfl⟩
  exact h.update (fun word hword => h.tagged.words word (List.mem_of_mem_take hword))
    h.tagged.globals

/-! ## Slots and contexts -/

/-- Reading a slot gives the same plain word on both sides, or the same exit. -/
theorem get (h : Beside p p') (i : Nat) :
    Agree (fun word word' => word = word' ∧ Plain word) (p.get i) (p'.get i) := by
  rcases h.elim with ⟨objects, rfl⟩
  unfold Ideal.get
  dsimp only
  cases hword : p.words[p.base + i]? with
  | none => exact .error ⟨rfl, rfl, h.unplaced⟩
  | some word => exact .ok ⟨rfl, h.tagged.words word (List.mem_of_getElem? hword)⟩

/-- A plain word put into plain words leaves them plain, with the gap of zeros in between. -/
theorem plain_assign {words : List Word} {i : Nat} {word : Word}
    (h : ∀ word ∈ words, Plain word) (hword : Plain word) :
    ∀ word' ∈ assign 0#64 words i word, Plain word' := by
  intro word' hmem
  rcases List.mem_iff_getElem?.mp hmem with ⟨j, hj⟩
  rw [getElem?_assign] at hj
  split at hj
  · cases hj
    exact hword
  · split at hj
    · exact h word' (List.mem_of_getElem? hj)
    · split at hj
      · cases hj
        exact plain_getNil
      · cases hj

/-- Both states set a slot to a plain word. -/
theorem set (h : Beside p p') (i : Nat) {word : Word} (hword : Plain word) :
    Agree Beside (p.set i word) (p'.set i word) := by
  rcases h.elim with ⟨objects, rfl⟩
  refine Follows.ite Iff.rfl (fun _ => .ok ?_) fun _ => .error rfl
  exact h.update (plain_assign h.tagged.words hword) h.tagged.globals

/-- Both states move a slot. -/
theorem move (h : Beside p p') (target source : Nat) :
    Agree Beside (p.move target source) (p'.move target source) := by
  refine (h.get source).bind ?_
  rintro word _ ⟨rfl, hword⟩
  exact h.set target hword

/-- Stepping on behind two operations that agree. -/
theorem andNext {x y : Outcome Ideal Ideal} (h : Agree Beside x y) :
    Agree Beside (do let p ← x; return p.next) (do let p ← y; return p.next) :=
  h.bind fun _ _ hp => .ok hp.next

/-- Both states set a slot to a plain word and step on. -/
theorem put (h : Beside p p') (i : Nat) {word : Word} (hword : Plain word) :
    Agree Beside (p.put i word) (p'.put i word) :=
  andNext (h.set i hword)

/-- Both states make the same turns of the loop of {lit}`BULKMOV`. -/
theorem bulkMove (h : Beside p p') (a b turns i : Nat) :
    Agree Beside (Ideal.bulkMove a b turns i p) (Ideal.bulkMove a b turns i p') := by
  induction turns generalizing p p' i with
  | zero => exact .ok h
  | succ turns ih => exact (h.move (a + i) (b + i)).bind fun _ _ hmoved => ih hmoved (i + 1)

/-- Both states make the same turns of a loop that clears slots. -/
theorem clear (h : Beside p p') (turns i : Nat) :
    Agree Beside (Ideal.clear turns i p) (Ideal.clear turns i p') := by
  induction turns generalizing p p' i with
  | zero => exact .ok h
  | succ turns ih => exact (h.set i plain_getNil).bind fun _ _ hset => ih hset (i + 1)

/-- Both states enter a function, with the same context on top. -/
theorem enter (h : Beside p p') (localbase : Nat) (func : BitVec 16) :
    Agree Beside (p.enter localbase func) (p'.enter localbase func) := by
  rcases h.elim with ⟨objects, rfl⟩
  refine Follows.ite Iff.rfl (fun _ => .ok ?_) fun _ => .error rfl
  exact h.update h.tagged.words h.tagged.globals

/-- Both states go back to the same context, or find none and exit with the same text. -/
theorem leave (h : Beside p p') : Agree Beside p.leave p'.leave := by
  rcases h.elim with ⟨objects, rfl⟩
  unfold Ideal.leave
  dsimp only
  cases p.contexts.getLast? with
  | none => exact .error ⟨rfl, rfl, h.unplaced⟩
  | some caller => exact .ok (h.update h.tagged.words h.tagged.globals)

/-! ## Printing -/

/-- Printing a plain slot gives the same text on both sides, or the same fault, to every
depth. -/
theorem printSlot (h : Beside p p') (hprog : prog.Beside prog') (depth : Nat) {slot : Word}
    (hslot : Plain slot) :
    Agree (· = ·) (p.printSlot prog depth slot) (p'.printSlot prog' depth slot) := by
  cases depth with
  | zero => exact .error rfl
  | succ depth =>
      unfold Ideal.printSlot
      refine Follows.ite Iff.rfl (fun _ => .ok rfl) fun _ => ?_
      refine Follows.ite Iff.rfl (fun _ => .ok rfl) fun _ => ?_
      cases immediateText slot with
      | some text => exact .ok rfl
      | none =>
          refine Follows.ite Iff.rfl (fun _ => ?_) fun _ => ?_
          · rw [printObject_of_plain h.tagged hprog.low hslot,
              printObject_of_plain h.tagged' hprog.low' hslot]
            exact .error rfl
          · exact Follows.ite Iff.rfl (fun _ => .error rfl) fun _ => .ok rfl

/-- The text of a {lit}`println` with a plain slot is the same on both sides, or the same
fault. -/
theorem printlnSlot (h : Beside p p') (hprog : prog.Beside prog') {slot : Word}
    (hslot : Plain slot) :
    Agree (· = ·) (p.printlnSlot prog slot) (p'.printlnSlot prog' slot) := by
  unfold Ideal.printlnSlot
  refine Follows.ite Iff.rfl (fun _ => .ok rfl) fun _ => ?_
  refine Follows.ite Iff.rfl (fun _ => .ok rfl) fun _ => ?_
  cases immediateText slot with
  | some text => exact .ok rfl
  | none =>
      refine Follows.ite Iff.rfl (fun _ => ?_) fun _ => ?_
      · rw [printObject_of_plain h.tagged hprog.low hslot,
          printObject_of_plain h.tagged' hprog.low' hslot]
        exact .error rfl
      · exact Follows.ite Iff.rfl (fun _ => .error rfl) fun _ => .ok rfl

/-- The loop over the slots prints the same on both sides. -/
theorem printSlotsFrom (h : Beside p p') (hprog : prog.Beside prog') (turns index : Nat) :
    Agree Beside (Ideal.printSlotsFrom prog turns index p)
      (Ideal.printSlotsFrom prog' turns index p') := by
  induction turns generalizing p p' index with
  | zero => exact .error rfl
  | succ turns ih =>
      have hbar : Beside (if p.base = index then p.print "| " else p)
          (if p'.base = index then p'.print "| " else p') := by
        rcases h.elim with ⟨objects, rfl⟩
        by_cases hbase : p.base = index
        · rw [if_pos hbase, if_pos hbase]
          exact h.print "| "
        · rw [if_neg hbase, if_neg hbase]
          exact h
      unfold Ideal.printSlotsFrom
      dsimp only
      generalize (if p.base = index then p.print "| " else p) = q at hbar ⊢
      generalize (if p'.base = index then p'.print "| " else p') = q' at hbar ⊢
      have hwords : q'.words = q.words := by
        rcases hbar.elim with ⟨objects, rfl⟩
        rfl
      rw [hwords, hprog.nativeLimit]
      cases hword : q.words[index]? with
      | none => exact ih hbar (index + 1)
      | some word =>
          refine (hbar.printSlot hprog _
            (hbar.tagged.words word (List.mem_of_getElem? hword))).bind ?_
          rintro text _ rfl
          have hprinted := (hbar.print text).print " "
          refine Follows.ite (iff_of_eq ?_) (fun _ => .ok (hprinted.print "\n")) fun _ =>
            ih hprinted (index + 1)
          exact congrArg (fun words : List Word => index + 1 = words.length) hwords.symm

/-! ## Arithmetic and jumps -/

/-- Both states set a slot to the result of an operation, or exit with the same text. -/
theorem setInt (h : Beside p p') (a : Nat) (result : Option (BitVec 32)) :
    Agree Beside (p.setInt a result) (p'.setInt a result) := by
  cases result with
  | none => exact .error rfl
  | some num => exact h.set a (plain_toSmallInt num)

/-- Both states compute the same result from two slots. -/
theorem arith (h : Beside p p') (int : BitVec 32 → BitVec 32 → Option (BitVec 32))
    (a b c : Nat) : Agree Beside (p.arith int a b c) (p'.arith int a b c) := by
  refine (h.get b).bind ?_
  rintro x _ ⟨rfl, _⟩
  refine (h.get c).bind ?_
  rintro y _ ⟨rfl, _⟩
  refine Follows.ite Iff.rfl (fun _ => andNext (h.setInt a _)) fun _ => ?_
  exact Follows.ite Iff.rfl (fun _ => .error rfl) fun _ => .ok h.next

/-- Both states compute the same remainder. -/
theorem modulo (h : Beside p p') (a b c : Nat) :
    Agree Beside (p.modulo a b c) (p'.modulo a b c) := by
  refine (h.get b).bind ?_
  rintro x _ ⟨rfl, _⟩
  refine (h.get c).bind ?_
  rintro y _ ⟨rfl, _⟩
  refine Follows.ite Iff.rfl (fun _ => andNext (h.setInt a _)) fun _ => ?_
  exact .error ⟨rfl, rfl, h.unplaced⟩

/-- Both states compare two slots with the same result. -/
theorem isEqual (h : Beside p p') (a b c : Nat) :
    Agree Beside (p.isEqual a b c) (p'.isEqual a b c) := by
  refine (h.get b).bind ?_
  rintro x _ ⟨rfl, _⟩
  refine (h.get c).bind ?_
  rintro y _ ⟨rfl, _⟩
  refine Follows.ite Iff.rfl (fun _ => h.next.set a (plain_toBool _)) fun _ => ?_
  refine Follows.ite Iff.rfl (fun _ => .error rfl) fun _ => ?_
  exact .error ⟨rfl, rfl, h.next.unplaced⟩

/-- Both states take the same side of a conditional jump. -/
theorem branch (h : Beside p p') (test : Word → Bool) (lines a : Nat) (d : BitVec 16) :
    Agree Beside (p.branch test lines a d) (p'.branch test lines a d) := by
  refine (h.get a).bind ?_
  rintro slot _ ⟨rfl, _⟩
  refine .ok ?_
  have hprinted : Beside { p with out := p.out ++ List.replicate lines truthText }
      { p' with out := p'.out ++ List.replicate lines truthText } := by
    rcases h.elim with ⟨objects, rfl⟩
    exact h.update h.tagged.words h.tagged.globals
  split
  · exact hprinted.jump d
  · exact hprinted.next

/-! ## Calls -/

/-- Both states call {lit}`println`, or an address at which there is nothing to call. -/
theorem callBuiltin (h : Beside p p') (hprog : prog.Beside prog') (fn : Word)
    (localbase : Nat) :
    Agree Beside (p.callBuiltin prog fn localbase) (p'.callBuiltin prog' fn localbase) := by
  unfold Ideal.callBuiltin
  rw [hprog.println]
  refine Follows.ite Iff.rfl (fun _ => ?_) fun _ => .error rfl
  refine (h.get 2).bind ?_
  rintro slot _ ⟨rfl, hslot⟩
  refine (h.printlnSlot hprog hslot).bind ?_
  rintro text _ rfl
  refine (((h.print text).print "\n").set 0 plain_getNil).bind fun _ _ hset => ?_
  refine (hset.clear (localbase + 8) 2).bind fun _ _ hcleared => ?_
  exact andNext hcleared.leave

/-- Both states enter the same function or builtin, or exit at the same error. -/
theorem call (h : Beside p p') (hprog : prog.Beside prog') (localbase : Nat) :
    Agree Beside (p.call prog localbase) (p'.call prog' localbase) := by
  unfold Ideal.call
  have hpc : p'.pc = p.pc := by
    rcases h.elim with ⟨objects, rfl⟩
    rfl
  rw [hpc]
  refine (h.set localbase (plain_toSmallInt p.pc)).bind fun stored stored' hstored => ?_
  refine (hstored.get (localbase + 1)).bind ?_
  rintro fn _ ⟨rfl, _⟩
  cases calledFunc fn with
  | none =>
      refine (hstored.printSlotsFrom hprog _ 0).bind fun _ _ hprinted => ?_
      exact .error ⟨rfl, rfl, hprinted.unplaced⟩
  | some func =>
      refine (hstored.enter localbase func).bind fun _ _ hentered => ?_
      refine Follows.ite Iff.rfl (fun _ => hentered.callBuiltin hprog fn localbase) fun _ => ?_
      exact .ok (hentered.setPc _)

/-- Both states return to the same context. -/
theorem ret (h : Beside p p') (a : Nat) : Agree Beside (p.ret a) (p'.ret a) := by
  refine (h.get 0).bind ?_
  rintro slot _ ⟨rfl, _⟩
  refine (h.move 0 a).bind fun _ _ hmoved => ?_
  refine (hmoved.truncate a).leave.bind fun _ _ hleft => ?_
  exact .ok (hleft.setPc _)

/-! ## Objects -/

/-- The pool has been asked for the same sizes on both sides. -/
theorem sizes_eq (h : Beside p p') :
    p.blocks.map Block.size = p'.blocks.map Block.size := by
  have hsizes := congrArg (List.map Object.size) h.objects_eq
  simp only [List.map_map] at hsizes
  simp only [Ideal.blocks, List.map_map]
  exact hsizes

/-- A new object goes to its own place, in both programs or in none. -/
theorem allocate (h : Beside p p') (hprog : prog.Beside prog') (record : TypeRecord) :
    Agree Beside (p.allocate prog record) (p'.allocate prog' record) := by
  have hreserve := hprog.reserve p.reserves _ _ record.typeSize h.sizes_eq
  have hlow := hprog.low.reserve p.reserves p.blocks record.typeSize
  have hlow' := hprog.low'.reserve p.reserves p'.blocks record.typeSize
  rcases h.elim with ⟨objects, rfl⟩
  refine Follows.ite Iff.rfl (fun _ => .ok ?_) fun _ => .error rfl
  dsimp only at hreserve hlow hlow' ⊢
  generalize prog.reserve p.reserves p.blocks record.typeSize = addr at hreserve hlow ⊢
  generalize prog'.reserve p.reserves _ record.typeSize = addr' at hreserve hlow' ⊢
  cases addr with
  | none =>
      cases addr' with
      | some => cases hreserve
      | none => exact (h.update h.tagged.words h.tagged.globals).print Ideal.refusedText
  | some a =>
      cases addr' with
      | none => cases hreserve
      | some a' =>
          refine ⟨?_, ⟨h.tagged.words, h.tagged.globals, ?_⟩,
            ⟨h.tagged.words, h.tagged.globals, ?_⟩⟩
          · have hobjects := h.objects_eq
            simp only [Ideal.unplaced, Option.toList, List.map_cons, List.map_nil,
              List.cons_append, List.nil_append, Option.isSome, if_true] at hobjects ⊢
            rw [hobjects]
            rfl
          · exact List.forall_mem_cons.mpr ⟨hlow a rfl, h.tagged.objects⟩
          · exact List.forall_mem_cons.mpr ⟨hlow' a' rfl, h.tagged'.objects⟩

/-- Both programs find the same, or nothing. -/
theorem orWild_bind {α β : Type} {R : β → β → Prop} {x x' : Option α} (hx : x = x')
    {f g : α → Outcome Ideal β} (hfg : ∀ a, x = some a → Agree R (f a) (g a)) :
    Agree R (orWild x >>= f) (orWild x' >>= g) := by
  subst hx
  cases x with
  | none => exact .error rfl
  | some a => exact hfg a rfl

/-- Both states find no object through their slot, and meet the same fault. -/
theorem getfield (h : Beside p p') (hprog : prog.Beside prog') (a b : Nat) {c : Nat}
    (hc : c < 256) :
    Agree Beside (p.execute prog (some .getfield) a b c d)
      (p'.execute prog' (some .getfield) a b c d) := by
  refine (h.get b).bind ?_
  rintro obj _ ⟨rfl, hobj⟩
  rw [field_of_plain h.tagged hprog.low hobj hc, field_of_plain h.tagged' hprog.low' hobj hc]
  exact .error rfl

/-- Both states find no object to store into, and meet the same fault. -/
theorem setfield (h : Beside p p') (a b c : Nat) :
    Agree Beside (p.execute prog (some .setfield) a b c d)
      (p'.execute prog' (some .setfield) a b c d) := by
  refine (h.get a).bind ?_
  rintro obj _ ⟨rfl, hobj⟩
  refine (h.get c).bind ?_
  rintro value _ ⟨rfl, _⟩
  unfold Ideal.setField
  rw [h.tagged.object?_eq_none hobj, h.tagged'.object?_eq_none hobj]
  exact .error rfl

/-- Both states get an object of the same size or are both refused, and neither keeps its
address. -/
theorem alloc (h : Beside p p') (hprog : prog.Beside prog') (a b c : Nat) :
    Agree Beside (p.execute prog (some .alloc) a b c d)
      (p'.execute prog' (some .alloc) a b c d) := by
  refine orWild_bind (congrFun hprog.type d) fun record _ => ?_
  refine (h.get a).bind ?_
  rintro slot _ ⟨rfl, _⟩
  exact andNext (h.allocate hprog record)

/-! ## Names -/

/-- Both states bind the same name to the same plain word. -/
theorem nsset (h : Beside p p') (hprog : prog.Beside prog') (a b c : Nat) :
    Agree Beside (p.execute prog (some .nsset) a b c d)
      (p'.execute prog' (some .nsset) a b c d) := by
  refine (h.get a).bind ?_
  rintro value _ ⟨rfl, hvalue⟩
  refine orWild_bind (congrFun hprog.name d) fun name _ => ?_
  rcases h.elim with ⟨objects, rfl⟩
  refine .ok (h.update h.tagged.words fun key => ?_)
  by_cases hkey : key = name
  · rw [hkey, Function.update_self]
    exact hvalue
  · rw [Function.update_of_ne hkey]
    exact h.tagged.globals key

/-- Both states read the same plain word for a name. -/
theorem nsget (h : Beside p p') (hprog : prog.Beside prog') (a b c : Nat) :
    Agree Beside (p.execute prog (some .nsget) a b c d)
      (p'.execute prog' (some .nsget) a b c d) := by
  refine orWild_bind (congrFun hprog.name d) fun name _ => ?_
  rcases h.elim with ⟨objects, rfl⟩
  exact h.put a (h.tagged.globals name)

/-! ## Turns and runs -/

/-- One turn of the switch. -/
theorem execute (h : Beside p p') (hprog : prog.Beside prog') {op : Option Opcode}
    (hop : op ≠ some .ckey) (a b : Nat) {c : Nat} (hc : c < 256) (d : BitVec 16) :
    Agree Beside (p.execute prog op a b c d) (p'.execute prog' op a b c d) := by
  cases op with
  | none => exact .ok h.next
  | some op =>
      cases op with
      | ckey => exact absurd rfl hop
      | cstr | cshort => exact h.put a (plain_toSmallInt _)
      | ctype => exact h.put a (plain_toType d)
      | cbool => exact h.put a (plain_toBool _)
      | cnil => exact h.put a plain_getNil
      | fnew => exact h.put a (plain_toFnew d)
      | nsset => exact h.nsset hprog a b c
      | nsget => exact h.nsget hprog a b c
      | addvv | subvv | mulvv | divvv => exact h.arith _ a b c
      | modvv => exact h.modulo a b c
      | iseq => exact h.isEqual a b c
      | mov => exact andNext (h.move a d.toNat)
      | bulkmov => exact andNext (h.bulkMove a b c 0)
      | jump => exact .ok (h.jump d)
      | jumpf => exact h.branch isFalsy 1 a d
      | jumpt => exact h.branch isTruthy 2 a d
      | call => exact h.call hprog a
      | ret => exact h.ret a
      | loop => exact .ok h
      | alloc => exact h.alloc hprog a b c
      | setfield => exact h.setfield a b c
      | getfield => exact h.getfield hprog a b hc
      | exit => exact .error ⟨rfl, rfl, h.next.unplaced⟩
      | cint | cfloat | setf | powvv | islt | isge | isle | isgt | isneq | not | neg | apply
      | vfnew | getfreevar | uclo | newarray | getarray | setarray | funcf | funcv | «break»
      | drop | tranc => exact .ok h.next

end Beside

/-- The programs have the same next instruction.  It is no {lit}`CKEY`, and its operands are
bytes. -/
def Program.QuietAt (prog prog' : Program) (pc : BitVec 32) : Prop :=
  prog.code pc = prog'.code pc ∧ ∀ inst ∈ prog.code pc, inst.op ≠ some .ckey ∧ inst.c < 256

/-- A turn of two programs that differ only in where things are. -/
theorem Beside.step {p p' : Ideal} {prog prog' : Program} (h : Beside p p')
    (hprog : prog.Beside prog') (hquiet : prog.QuietAt prog' p.pc) :
    Agree Beside (p.step prog) (p'.step prog') := by
  have hpc : p'.pc = p.pc := by
    rcases h.elim with ⟨objects, rfl⟩
    rfl
  unfold Ideal.step
  rw [hpc]
  refine orWild_bind hquiet.1 fun inst hinst => ?_
  rcases hquiet.2 inst hinst with ⟨hop, hc⟩
  exact h.execute hprog hop inst.a inst.b hc inst.d

/-- A run of two programs that differ only in where things are. -/
theorem Beside.run {p p' : Ideal} {prog prog' : Program} (h : Beside p p')
    (hprog : prog.Beside prog') {n : Nat}
    (hquiet : ∀ m < n, ∀ q, p.run prog m = .ok q → prog.QuietAt prog' q.pc) :
    Agree Beside (p.run prog n) (p'.run prog' n) := by
  induction n generalizing p p' with
  | zero => exact .ok h
  | succ n ih =>
      have hturn := h.step hprog (hquiet 0 (Nat.succ_pos n) p rfl)
      refine (hturn.and_left fun q hq => hq).bind ?_
      rintro q q' ⟨hbeside, hq⟩
      refine ih hbeside fun m hm r hr => hquiet (m + 1) (Nat.succ_lt_succ hm) r ?_
      exact bind_eq_ok.mpr ⟨q, hq, hr⟩

/-- A machine starts without addresses in slots and globals. -/
theorem Beside.init {prog prog' : Program} (hprog : prog.Beside prog')
    (hprintln : prog.println.toNat < 2 ^ 48) : Beside (.init prog) (.init prog') := by
  have htagged : (Ideal.init prog).Tagged := by
    refine ⟨fun word hword => absurd hword List.not_mem_nil, fun name => ?_,
      fun obj hobj => absurd hobj List.not_mem_nil⟩
    by_cases hname : name = printlnName
    · subst hname
      simp only [Ideal.init, Function.update_self]
      exact plain_toBuiltin hprintln
    · simp only [Ideal.init, Function.update_of_ne hname]
      exact plain_getNil
  have hsame : Ideal.init prog' = Ideal.init prog := by
    unfold Ideal.init
    rw [hprog.println]
  rw [hsame]
  exact ⟨rfl, htagged, htagged⟩

/-- The outcome of a run without the addresses of the objects. -/
def unplacedOutcome : Outcome Ideal Ideal → Outcome Ideal Ideal
  | .ok p => .ok p.unplaced
  | .error (.exit status p printed) => .error (.exit status p.unplaced printed)
  | .error (.fault why) => .error (.fault why)

/-- Computations that agree end in the same way. -/
theorem Agree.unplacedOutcome_eq {x y : Outcome Ideal Ideal} (h : Agree Beside x y) :
    unplacedOutcome x = unplacedOutcome y := by
  rcases h with @⟨e, _, hexcused⟩ | @⟨e, e', hsame⟩ | @⟨p, p', hbeside⟩
  · exact hexcused.elim
  · cases e with
    | fault why =>
        cases e' with
        | fault why' =>
            have hwhy : why = why' := hsame
            rw [hwhy]
        | exit => exact hsame.elim
    | exit status p printed =>
        cases e' with
        | fault why' => exact hsame.elim
        | exit status' p' printed' =>
            rcases hsame with ⟨rfl, rfl, hstate⟩
            rw [unplacedOutcome, unplacedOutcome, hstate]
  · rw [unplacedOutcome, unplacedOutcome, hbeside.unplaced]

end ClojitCvm
