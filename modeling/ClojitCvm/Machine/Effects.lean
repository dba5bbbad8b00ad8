import ClojitCvm.Heap.Blocks
import ClojitCvm.Machine.Frames

/-!
# Effects of the instructions

What one turn of the loop can do, said once for all instructions: the actions on slots
and contexts, with the words they bring, and the change of everything else.

Main results:

- The predicate {lit}`Effect`: the effect of every instruction.
- Theorem {lit}`VM.step_effect`: a step has one of these effects.
-/

namespace ClojitCvm

open ByteMemory CellArray FrameStack Slot

/-! ## The effects -/

/-- The instructions that do nothing but step on: those that are not implemented, and
every number that is no opcode. -/
def skips : Option Opcode → Bool
  | some op => op ∈ [.cint, .cfloat, .setf, .powvv, .islt, .isge, .isle, .isgt, .isneq, .not,
      .neg, .apply, .vfnew, .getfreevar, .uclo, .newarray, .getarray, .setarray, .funcf,
      .funcv, .break, .drop, .tranc]
  | none => true

/-- The word of an instruction that loads a constant. -/
def constant? (sec : Sections) (op : Option Opcode) (d : BitVec 16) : Option Word :=
  match op with
  | some .cstr => some (toSmallInt (d.setWidth 32))
  | some .ckey => sec.cstr[d.toNat]?.map (.ofNat 64)
  | some .ctype => some (toType d)
  | some .cbool => some (toBool (d != 0#16))
  | some .cnil => some getNil
  | some .cshort => some (toSmallInt (d.setWidth 32))
  | some .fnew => some (toFnew d)
  | _ => none

/-- The operation of an arithmetic instruction on integers. -/
def integerOp? (op : Option Opcode) : Option (BitVec 32 → BitVec 32 → Option (BitVec 32)) :=
  match op with
  | some .addvv => some addvv.int
  | some .subvv => some subvv.int
  | some .mulvv => some mulvv.int
  | some .divvv => some divvv.int
  | some .modvv => some fun b c => if divTraps b c then none else some (b.srem c)
  | _ => none

/-- The assignments of the loop that sets slots to nil. -/
def clears (turns i : Nat) : List SlotAction :=
  (List.range' i turns).map fun k => .assign k getNil

/-- The call of a builtin: its context is entered and left again. -/
def builtinCall (pc : BitVec 32) (a : Nat) : List SlotAction :=
  [.assign a (toSmallInt pc)] ++
    ([.enter a 0#32] ++ (.assign 0 getNil :: clears (a + 8) 2) ++ [.leave])

/-- The name that operand D of {lit}`NSSET` and {lit}`NSGET` stands for. -/
def nameOf? (host : Host) (sec : Sections) (d : BitVec 16) : Option (List Byte) :=
  sec.cstr[d.toNat]?.bind host.cString

/-- Whether a conditional jump is taken. -/
def jumpTaken? (op : Option Opcode) (slot : Word) : Option Bool :=
  match op with
  | some .jumpf => some (isFalsy slot)
  | some .jumpt => some (isTruthy slot)
  | _ => none

/-- The actions of an instruction and the rest of the state behind it. -/
inductive Effect (host : Host) (sec : Sections) (vm : VM) (a b c : Nat) (d : BitVec 16) :
    Option Opcode → List SlotAction → Rest → Prop
  | skip {op} (hop : skips op = true) : Effect host sec vm a b c d op [] vm.rest.next
  | loop : Effect host sec vm a b c d (some .loop) [] vm.rest
  | jump : Effect host sec vm a b c d (some .jump) [] (vm.rest.jump d)
  | branch {op slot taken} (hslot : vm.words[vm.base + a]? = some slot)
      (htaken : jumpTaken? op slot = some taken) :
      Effect host sec vm a b c d op [] (if taken then vm.rest.jump d else vm.rest.next)
  | constant {op word} (hop : constant? sec op d = some word) :
      Effect host sec vm a b c d op [.assign a word] vm.rest.next
  | nsset {name value} (hvalue : vm.words[vm.base + a]? = some value) :
      Effect host sec vm a b c d (some .nsset) []
        { vm.rest.next with symbolTable := (vm.addSymbolTablePair name value).symbolTable }
  | nsget {name} : Effect host sec vm a b c d (some .nsget)
      [.assign a (vm.getSymbolTable name)] vm.rest.next
  | arith {op int x y num} (hop : integerOp? op = some int)
      (hx : vm.words[vm.base + b]? = some x) (hy : vm.words[vm.base + c]? = some y)
      (hintx : isSmallInt x = true) (hinty : isSmallInt y = true)
      (hnum : int (getSmallInt x) (getSmallInt y) = some num) :
      Effect host sec vm a b c d op [.assign a (toSmallInt num)] vm.rest.next
  | arithSkip {op x y} (hop : (integerOp? op).isSome)
      (hx : vm.words[vm.base + b]? = some x) (hy : vm.words[vm.base + c]? = some y)
      (hint : (isSmallInt x && isSmallInt y) = false) :
      Effect host sec vm a b c d op [] vm.rest.next
  | iseq {value : Bool} :
      Effect host sec vm a b c d (some .iseq) [.assign a (toBool value)] vm.rest.next
  | mov {word} (hword : vm.words[vm.base + d.toNat]? = some word) :
      Effect host sec vm a b c d (some .mov) [.assign a word] vm.rest.next
  | bulkmov {actions : List SlotAction}
      (hmoves : ∀ action ∈ actions, ∃ offset word, action = .assign offset word ∧
        (word ∈ vm.words ∨ word = 0#64)) :
      Effect host sec vm a b c d (some .bulkmov) actions vm.rest.next
  | call {fnSlot func} (hfn : vm.words[vm.base + (a + 1)]? = some fnSlot)
      (hfunc : calledFunc fnSlot = some func) (hne : func ≠ 0#16) :
      Effect host sec vm a b c d (some .call)
        [.assign a (toSmallInt vm.pc), .enter a (func.setWidth 32)]
        { vm.rest with pc := func.setWidth 32 }
  | builtin {fnSlot} (hfn : vm.words[vm.base + (a + 1)]? = some fnSlot)
      (hfunc : calledFunc fnSlot = some 0#16) (hprintln : getBuiltin fnSlot = host.println) :
      Effect host sec vm a b c d (some .call) (builtinCall vm.pc a) vm.rest.next
  | ret {slot value} (hslot : vm.words[vm.base]? = some slot)
      (hvalue : vm.words[vm.base + a]? = some value) :
      Effect host sec vm a b c d (some .ret) [.assign 0 value, .truncate a, .leave]
        { vm.rest with pc := getSmallInt slot + 1 }
  | alloc {record} (hrecord : typesAt host sec d.toNat = some record)
      (hsize : headerSize < record.typeSize.toNat) :
      Effect host sec vm a b c d (some .alloc) []
        { vm.rest.next with
          heap := allocLoop record.typeSize (record.typeId.setWidth 16) objMpsTypeObject
            (host.reserve vm.reserves vm.blocks record.typeSize) vm.heap
          blocks := (host.reserve vm.reserves vm.blocks record.typeSize).object?.toList.map
            (fun addr => ⟨addr, record.typeSize.toNat⟩) ++ vm.blocks
          reserves := vm.reserves + 1 }
  | setfield {obj value block} (hobj : vm.words[vm.base + a]? = some obj)
      (hvalue : vm.words[vm.base + c]? = some value)
      (hblock : vm.block? obj.toNat = some block)
      (hroom : refAt obj.toNat b + 8 ≤ obj.toNat + block.size) :
      Effect host sec vm a b c d (some .setfield) []
        { vm.rest.next with
          heap := setObjRef vm.heap obj.toNat b value
          fieldStores := ⟨obj.toNat, b, value⟩ :: vm.fieldStores }
  | getfield {obj word} (hobj : vm.words[vm.base + b]? = some obj)
      (hload : vm.loadRef host obj.toNat c = .ok word) :
      Effect host sec vm a b c d (some .getfield) [.assign a word] vm.rest.next

/-! ## The effect of each instruction -/

namespace VM

variable {host : Host} {sec : Sections} {vm vm' : VM} {a b c : Nat} {d : BitVec 16}

/-- What is known of a step of the machine. -/
def Effected (host : Host) (sec : Sections) (vm : VM) (op : Option Opcode) (a b c : Nat)
    (d : BitVec 16) (vm' : VM) : Prop :=
  ∃ actions, Effect host sec vm a b c d op actions vm'.rest ∧ Moves vm actions vm'

/-- Slot actions that leave the rest alone, as the effect of an instruction. -/
theorem Acts.effected {op : Option Opcode} {actions : List SlotAction}
    (hacts : Acts vm actions vm') (heffect : Effect host sec vm a b c d op actions vm.rest) :
    Effected host sec vm op a b c d vm' :=
  ⟨actions, hacts.rest ▸ heffect, hacts.toMoves⟩

/-- Most instructions end with a step on. -/
theorem Acts.next_effected {op : Option Opcode} {actions : List SlotAction}
    (hacts : Acts vm actions vm')
    (heffect : Effect host sec vm a b c d op actions vm.rest.next) :
    Effected host sec vm op a b c d vm'.next := by
  refine ⟨actions, ?_, hacts.toMoves.setPc _⟩
  change Effect host sec vm a b c d op actions vm'.rest.next
  rw [hacts.rest]
  exact heffect

/-- A write of a constant. -/
theorem constant_effect {op : Option Opcode} {word : Word} (h : vm.WellFramed) (ha : a < 256)
    (hword : constant? sec op d = some word)
    (hok : (do let vm ← vm.set a word; return vm.next) = .ok vm') :
    Effected host sec vm op a b c d vm' := by
  rcases bind_eq_ok.mp hok with ⟨mid, hset, hret⟩
  cases hret
  exact (set_acts h (by omega) hset).next_effected (.constant hword)

/-- A string that is found changes nothing. -/
theorem cstrAt_eq_ok {p : Nat} (h : cstrAt sec vm d = .ok (vm', p)) :
    vm' = vm ∧ sec.cstr[d.toNat]? = some p := by
  unfold cstrAt at h
  split at h
  · next q hq =>
    cases h
    exact ⟨rfl, hq⟩
  · cases h

/-- A name that is found changes nothing. -/
theorem nameAt_eq_ok {p : Nat} {name : List Byte} (h : nameAt host vm p = .ok (vm', name)) :
    vm' = vm ∧ host.cString p = some name := by
  unfold nameAt at h
  split at h
  · next bytes hbytes =>
    cases h
    exact ⟨rfl, hbytes⟩
  · cases h

/-- The two reads of a name. -/
theorem nameOf?_of_reads {mid last : VM} {p : Nat} {name : List Byte}
    (hcstr : cstrAt sec vm d = .ok (mid, p)) (hname : nameAt host mid p = .ok (last, name)) :
    last = vm ∧ nameOf? host sec d = some name := by
  rcases cstrAt_eq_ok hcstr with ⟨rfl, hp⟩
  rcases nameAt_eq_ok hname with ⟨rfl, hbytes⟩
  exact ⟨rfl, by rw [nameOf?, hp]; exact hbytes⟩

/-- The pointer of {lit}`CKEY` is a constant of the file. -/
theorem execCkey_effect (h : vm.WellFramed) (ha : a < 256)
    (hok : execCkey sec vm a d = .ok vm') :
    Effected host sec vm (some .ckey) a b c d vm' := by
  rcases bind_eq_ok.mp hok with ⟨⟨mid, p⟩, hcstr, hrest⟩
  rcases cstrAt_eq_ok hcstr with ⟨rfl, hp⟩
  exact constant_effect h ha (by simp [constant?, hp]) hrest

/-- The instruction {lit}`NSSET` binds a name to a slot in use. -/
theorem execNsset_effect (h : vm.WellFramed) (ha : a < 256)
    (hok : execNsset host sec vm a d = .ok vm') :
    Effected host sec vm (some .nsset) a b c d vm' := by
  rcases bind_eq_ok.mp hok with ⟨⟨mid, value⟩, hget, hrest⟩
  rcases bind_eq_ok.mp hrest with ⟨⟨mid₂, p⟩, hcstr, hrest⟩
  rcases bind_eq_ok.mp hrest with ⟨⟨last, name⟩, hname, hret⟩
  rcases nameOf?_of_reads hcstr hname with ⟨rfl, _⟩
  cases hret
  rcases get_acts h (by omega) hget with ⟨hvalue, hacts⟩
  refine ⟨[], ?_, ⟨hacts.slots, hacts.stack, hacts.run⟩⟩
  change Effect host sec vm a b c d _ _ { last.rest.next with
    symbolTable := symbolTableOps.insert last.rest.symbolTable name value }
  rw [hacts.rest]
  exact .nsset hvalue

/-- The instruction {lit}`NSGET` assigns what the symbol table answers. -/
theorem execNsget_effect (h : vm.WellFramed) (ha : a < 256)
    (hok : execNsget host sec vm a d = .ok vm') :
    Effected host sec vm (some .nsget) a b c d vm' := by
  rcases bind_eq_ok.mp hok with ⟨⟨mid, p⟩, hcstr, hrest⟩
  rcases bind_eq_ok.mp hrest with ⟨⟨mid₂, name⟩, hname, hrest⟩
  rcases bind_eq_ok.mp hrest with ⟨mid₃, hset, hret⟩
  rcases nameOf?_of_reads hcstr hname with ⟨rfl, _⟩
  cases hret
  exact (set_acts h (by omega) hset).next_effected .nsget

/-! ### Arithmetic -/

/-- The cases with a double never return. -/
theorem arithCases_acts {op : Arith} {x y : Word} (h : vm.WellFramed)
    (hfits : host.Fits vm.blocks) (ha : a < 256)
    (hok : arithCases op host vm a x y = .ok vm') :
    (isSmallInt x = true ∧ isSmallInt y = true ∧ ∃ num,
      op.int (getSmallInt x) (getSmallInt y) = some num ∧
        Acts vm [.assign a (toSmallInt num)] vm') ∨
    ((isSmallInt x && isSmallInt y) = false ∧ vm' = vm) := by
  unfold arithCases at hok
  split at hok
  · next hint =>
    simp only [Bool.and_eq_true] at hint
    unfold setInt at hok
    split at hok
    · next num hnum => exact .inl ⟨hint.1, hint.2, num, hnum, set_acts h (by omega) hok⟩
    · cases hok
  · next hint =>
    right
    refine ⟨by simpa using hint, ?_⟩
    split at hok
    · next hdouble =>
      rcases bind_eq_ok.mp hok with ⟨_, hget, _⟩
      simp only [Bool.and_eq_true] at hdouble
      exact absurd hget (getDouble_ne_ok hfits hdouble.1)
    · split at hok
      · next hdouble =>
        rcases bind_eq_ok.mp hok with ⟨_, hget, _⟩
        simp only [Bool.and_eq_true] at hdouble
        exact absurd hget (getDouble_ne_ok hfits hdouble.1)
      · split at hok
        · next hdouble =>
          rcases bind_eq_ok.mp hok with ⟨_, hget, _⟩
          simp only [Bool.and_eq_true] at hdouble
          exact absurd hget (getDouble_ne_ok hfits hdouble.2)
        · cases hok
          rfl

/-- Reading the two operands takes no action. -/
theorem operands_acts {first second : VM} {x y : Word} (h : vm.WellFramed) (hb : b < 256)
    (hc : c < 256) (hgetb : vm.get b = .ok (first, x)) (hgetc : first.get c = .ok (second, y)) :
    vm.words[vm.base + b]? = some x ∧ vm.words[vm.base + c]? = some y ∧ Acts vm [] second := by
  rcases get_acts h (by omega) hgetb with ⟨hx, hfirst⟩
  rcases get_acts (hfirst.wellFramed h) (by omega) hgetc with ⟨hy, hsecond⟩
  rw [hfirst.words_eq, hfirst.base_eq] at hy
  exact ⟨hx, hy, hfirst.trans hsecond⟩

/-- An arithmetic instruction that returns had two integers, or no two numbers and no
result. -/
theorem execArith_effect {op : Option Opcode} {arith : Arith} (h : vm.WellFramed)
    (hfits : host.Fits vm.blocks) (ha : a < 256) (hb : b < 256) (hc : c < 256)
    (hop : integerOp? op = some arith.int) (hok : execArith arith host vm a b c = .ok vm') :
    Effected host sec vm op a b c d vm' := by
  rcases bind_eq_ok.mp hok with ⟨⟨first, x⟩, hgetb, hrest⟩
  rcases bind_eq_ok.mp hrest with ⟨⟨mid, y⟩, hgetc, hrest⟩
  rcases bind_eq_ok.mp hrest with ⟨last, hcases, hret⟩
  cases hret
  rcases operands_acts h hb hc hgetb hgetc with ⟨hx, hy, hmid⟩
  have hblocks : mid.blocks = vm.blocks := congrArg Rest.blocks hmid.rest
  rcases arithCases_acts (hmid.wellFramed h) (hblocks ▸ hfits) ha hcases with
    ⟨hintx, hinty, num, hnum, hacts⟩ | ⟨hint, rfl⟩
  · exact (hmid.trans hacts).next_effected (.arith hop hx hy hintx hinty hnum)
  · exact hmid.next_effected (.arithSkip (by simp [hop]) hx hy hint)

/-- A remainder that returns had two integers and a divisor other than zero. -/
theorem execModvv_effect (h : vm.WellFramed) (ha : a < 256) (hb : b < 256) (hc : c < 256)
    (hok : execModvv vm a b c = .ok vm') :
    Effected host sec vm (some .modvv) a b c d vm' := by
  rcases bind_eq_ok.mp hok with ⟨⟨first, x⟩, hgetb, hrest⟩
  rcases bind_eq_ok.mp hrest with ⟨⟨mid, y⟩, hgetc, hrest⟩
  rcases operands_acts h hb hc hgetb hgetc with ⟨hx, hy, hmid⟩
  dsimp only at hrest
  split at hrest
  · next hint =>
    simp only [Bool.and_eq_true] at hint
    rcases bind_eq_ok.mp hrest with ⟨last, hset, hret⟩
    cases hret
    unfold setInt at hset
    split at hset
    · next num hnum =>
      exact (hmid.trans (set_acts (hmid.wellFramed h) (by omega) hset)).next_effected
        (.arith rfl hx hy hint.1 hint.2 hnum)
    · cases hset
  · cases hrest

/-- A comparison that returns assigns a truth value. -/
theorem execIseq_effect (h : vm.WellFramed) (hfits : host.Fits vm.blocks) (ha : a < 256)
    (hb : b < 256) (hc : c < 256) (hok : execIseq host vm a b c = .ok vm') :
    Effected host sec vm (some .iseq) a b c d vm' := by
  rcases bind_eq_ok.mp hok with ⟨⟨first, x⟩, hgetb, hrest⟩
  rcases bind_eq_ok.mp hrest with ⟨⟨mid, y⟩, hgetc, hrest⟩
  rcases operands_acts h hb hc hgetb hgetc with ⟨_, _, hmid⟩
  have hblocks : mid.next.blocks = vm.blocks := congrArg Rest.blocks hmid.rest
  dsimp only at hrest
  split at hrest
  · have hnext : Moves vm [] mid.next := hmid.toMoves.setPc _
    have hset := set_acts (hnext.wellFramed h) (by omega) hrest
    refine ⟨_, ?_, hnext.trans hset.toMoves⟩
    rw [hset.rest, show mid.next.rest = mid.rest.next from rfl, hmid.rest]
    exact .iseq
  · split at hrest
    · next hdouble =>
      rcases bind_eq_ok.mp hrest with ⟨_, hget, _⟩
      simp only [Bool.and_eq_true] at hdouble
      exact absurd hget (getDouble_ne_ok (hblocks ▸ hfits) hdouble.1)
    · cases hrest

/-! ### Moves and jumps -/

/-- The instruction {lit}`MOV` assigns a slot in use. -/
theorem execMov_effect (h : vm.WellFramed) (ha : a < 256) (hok : execMov vm a d = .ok vm') :
    Effected host sec vm (some .mov) a b c d vm' := by
  rcases bind_eq_ok.mp hok with ⟨mid, hmove, hret⟩
  cases hret
  have hd := d.isLt
  rcases move_acts h (by omega) (by omega) hmove with ⟨word, hword, hacts⟩
  exact hacts.next_effected (.mov hword)

/-- Every word the loop moves was in a slot before the loop, or is padding. -/
theorem bulkMove_acts {turns i : Nat} (h : vm.WellFramed) (hroom : a + i + turns < 2 ^ 20)
    (hroom' : b + i + turns < 2 ^ 20) (hok : bulkMove a b turns i vm = .ok vm') :
    ∃ actions, Acts vm actions vm' ∧ ∀ action ∈ actions, ∃ offset word,
      action = .assign offset word ∧ (word ∈ vm.words ∨ word = 0#64) := by
  induction turns generalizing vm i with
  | zero =>
      cases hok
      exact ⟨[], .refl h, by simp⟩
  | succ turns ih =>
      rcases bind_eq_ok.mp hok with ⟨mid, hmove, hrest⟩
      rcases move_acts h (by omega) (by omega) hmove with ⟨word, hword, hfirst⟩
      rcases ih (hfirst.wellFramed h) (by omega) (by omega) hrest with ⟨actions, hacts, hmoves⟩
      have hmem : word ∈ vm.words := List.mem_of_getElem? hword
      have hwords : ∀ w ∈ mid.words, w ∈ vm.words ∨ w = 0#64 :=
        Frames.run_forall (P := fun w => w ∈ vm.words ∨ w = 0#64) (.inr rfl)
          (by
            intro offset value hvalue
            simp only [List.mem_singleton, Action.assign.injEq] at hvalue
            rw [hvalue.2]
            exact .inl hmem)
          (fun w hw => .inl hw) hfirst.run
      refine ⟨_, hfirst.trans hacts, ?_⟩
      intro action haction
      rcases List.mem_append.mp haction with haction | haction
      · rw [List.mem_singleton.mp haction]
        exact ⟨_, _, rfl, .inl hmem⟩
      · rcases hmoves action haction with ⟨offset, w, heq, hw⟩
        refine ⟨offset, w, heq, ?_⟩
        rcases hw with hw | hw
        · exact hwords w hw
        · exact .inr hw

/-- The instruction {lit}`BULKMOV` assigns words that were there, or the nil of a gap. -/
theorem execBulkmov_effect (h : vm.WellFramed) (ha : a < 256) (hb : b < 256) (hc : c < 256)
    (hok : execBulkmov vm a b c = .ok vm') :
    Effected host sec vm (some .bulkmov) a b c d vm' := by
  rcases bind_eq_ok.mp hok with ⟨mid, hmove, hret⟩
  cases hret
  rcases bulkMove_acts h (by omega) (by omega) hmove with ⟨actions, hacts, hmoves⟩
  exact hacts.next_effected (.bulkmov hmoves)

/-- The end of a conditional jump. -/
theorem branch_effect {op : Option Opcode} {mid : VM} {slot : Word} {taken : Bool}
    (hslot : vm.words[vm.base + a]? = some slot) (htaken : jumpTaken? op slot = some taken)
    (hmid : Acts vm [] mid) :
    Effected host sec vm op a b c d (if taken then mid.jump d else mid.next) := by
  have heffect : Effect host sec vm a b c d op _ _ := .branch hslot htaken
  rw [← hmid.rest] at heffect
  cases taken with
  | false => exact ⟨[], heffect, hmid.toMoves.setPc _⟩
  | true => exact ⟨[], heffect, hmid.toMoves.setPc _⟩

/-- The jump on false goes one way or the other. -/
theorem execJumpf_effect (h : vm.WellFramed) (ha : a < 256)
    (hok : execJumpf vm a d = .ok vm') :
    Effected host sec vm (some .jumpf) a b c d vm' := by
  rcases bind_eq_ok.mp hok with ⟨⟨mid, slot⟩, hget, hret⟩
  cases hret
  rcases get_acts h (by omega) hget with ⟨hslot, hmid⟩
  exact branch_effect hslot rfl (hmid.print truthText)

/-- The jump on true goes one way or the other. -/
theorem execJumpt_effect (h : vm.WellFramed) (ha : a < 256)
    (hok : execJumpt vm a d = .ok vm') :
    Effected host sec vm (some .jumpt) a b c d vm' := by
  rcases bind_eq_ok.mp hok with ⟨⟨mid, slot⟩, hget, hret⟩
  cases hret
  rcases get_acts h (by omega) hget with ⟨hslot, hmid⟩
  exact branch_effect hslot rfl ((hmid.print truthText).print truthText)

/-! ### Calls -/

/-- The loop that clears slots is a list of assignments. -/
theorem clearSlots_acts {turns i : Nat} (h : vm.WellFramed) (hroom : i + turns < 2 ^ 20)
    (hok : clearSlots turns i vm = .ok vm') : Acts vm (clears turns i) vm' := by
  induction turns generalizing vm i with
  | zero =>
      cases hok
      exact .refl h
  | succ turns ih =>
      rcases bind_eq_ok.mp hok with ⟨mid, hset, hrest⟩
      have hfirst := set_acts h (by omega) hset
      exact hfirst.trans (ih (hfirst.wellFramed h) (by omega) hrest)

/-- The error of a call does not return. -/
theorem callError_ne_ok : callError host vm ≠ .ok vm' := by
  intro hok
  rcases bind_eq_ok.mp hok with ⟨_, _, hret⟩
  cases hret

/-- The builtin assigns nil to the first slot of its frame. -/
theorem builtinPrintln_acts (h : vm.WellFramed) (hok : builtinPrintln host vm = .ok vm') :
    Acts vm [.assign 0 getNil] vm' := by
  rcases bind_eq_ok.mp hok with ⟨⟨mid, slot⟩, hget, hrest⟩
  rcases bind_eq_ok.mp hrest with ⟨text, _, hset⟩
  have hmid := ((get_acts h (by omega) hget).2.print text).print "\n"
  exact hmid.trans (set_acts (hmid.wellFramed h) (by omega) hset)

/-- A builtin runs in its context and leaves it. -/
theorem callBuiltin_acts {fnSlot : Word} (h : vm.WellFramed) (ha : a < 256)
    (hok : callBuiltin host vm fnSlot a = .ok vm') :
    getBuiltin fnSlot = host.println ∧ ∃ last,
      Acts vm ((.assign 0 getNil :: clears (a + 8) 2) ++ [.leave]) last ∧ vm' = last.next := by
  unfold callBuiltin at hok
  split at hok
  · next hprintln =>
    rcases bind_eq_ok.mp hok with ⟨printed, hprint, hrest⟩
    rcases bind_eq_ok.mp hrest with ⟨cleared, hclear, hrest⟩
    rcases bind_eq_ok.mp hrest with ⟨⟨popped, caller⟩, hpop, hret⟩
    cases hret
    have hprinted := builtinPrintln_acts h hprint
    have hcleared := hprinted.trans (clearSlots_acts (hprinted.wellFramed h) (by omega) hclear)
    exact ⟨hprintln, _, hcleared.trans (popContext_acts (hcleared.wellFramed h) hpop), rfl⟩
  · cases hok

/-- A call that returns entered a function, or a builtin that has already returned. -/
theorem execCall_effect (h : vm.WellFramed) (ha : a < 256)
    (hok : execCall host vm a = .ok vm') :
    Effected host sec vm (some .call) a b c d vm' := by
  rcases bind_eq_ok.mp hok with ⟨stored, hset, hrest⟩
  rcases bind_eq_ok.mp hrest with ⟨⟨mid, fnSlot⟩, hget, hrest⟩
  have hstored := set_acts h (by omega) hset
  rcases get_acts (hstored.wellFramed h) (by omega) hget with ⟨hread, hmid⟩
  have hacts := hstored.trans hmid
  have hframes : mid.frames = _ := Option.some.inj hacts.run.symm
  have hwords : mid.words = assign 0#64 vm.words (vm.base + a) (toSmallInt vm.pc) :=
    congrArg Frames.cells hframes
  have hbase : mid.base = vm.base := congrArg (fun f => f.current.base) hframes
  -- the function is read behind the slot that was just written
  have hfn : vm.words[vm.base + (a + 1)]? = some fnSlot := by
    rw [hmid.base_eq.symm, hbase, ← hmid.words_eq, hwords, getElem?_assign,
      if_neg (by omega)] at hread
    split at hread
    · exact hread
    · rw [if_neg (by omega)] at hread
      cases hread
  dsimp only at hrest
  split at hrest
  · exact absurd hrest callError_ne_ok
  · next func hfunc =>
    rcases bind_eq_ok.mp hrest with ⟨entered, henter, hcallee⟩
    have hle : mid.base + a ≤ mid.words.length := by
      rw [hbase, hwords, length_assign]
      omega
    have hentered := hacts.trans
      (enterContext_acts (hacts.wellFramed h) (by omega) hle henter)
    split at hcallee
    · next hzero =>
      subst hzero
      rcases callBuiltin_acts (hentered.wellFramed h) ha hcallee with
        ⟨hprintln, last, hlast, rfl⟩
      exact (hentered.trans hlast).next_effected (.builtin hfn hfunc hprintln)
    · next hne =>
      cases hcallee
      refine ⟨_, ?_, hentered.toMoves.setPc _⟩
      change Effect host sec vm a b c d _ _ { entered.rest with pc := func.setWidth 32 }
      rw [hentered.rest]
      exact .call hfn hfunc hne

/-- A return is an assignment, a cut and a context less. -/
theorem execRet_effect (h : vm.WellFramed) (ha : a < 256) (hok : execRet vm a = .ok vm') :
    Effected host sec vm (some .ret) a b c d vm' := by
  rcases bind_eq_ok.mp hok with ⟨⟨first, slot⟩, hget, hrest⟩
  rcases bind_eq_ok.mp hrest with ⟨moved, hmove, hrest⟩
  rcases bind_eq_ok.mp hrest with ⟨⟨popped, caller⟩, hpop, hret⟩
  cases hret
  rcases get_acts h (by omega) hget with ⟨hslot, hfirst⟩
  rcases move_acts (hfirst.wellFramed h) (by omega) (by omega) hmove with ⟨value, hvalue, hmoved⟩
  have hacts := hfirst.trans hmoved
  rw [hfirst.words_eq, hfirst.base_eq] at hvalue
  have hframes : moved.frames = _ := Option.some.inj hacts.run.symm
  have hlength : moved.words.length = (assign 0#64 vm.words (vm.base + 0) value).length :=
    congrArg (fun f => f.cells.length) hframes
  have hbase : moved.base = vm.base := congrArg (fun f => f.current.base) hframes
  have hlt : vm.base + a < vm.words.length := (List.getElem?_eq_some_iff.mp hvalue).1
  have hle : moved.base + a ≤ moved.words.length := by
    rw [hbase, hlength, length_assign]
    omega
  have htruncated := hacts.trans (truncate_acts (hacts.wellFramed h) (by omega) hle)
  have hleft := htruncated.trans (popContext_acts (htruncated.wellFramed h) hpop)
  refine ⟨_, ?_, hleft.toMoves.setPc _⟩
  change Effect host sec vm a b c d _ _
    { (popped.setContext caller).rest with pc := getSmallInt slot + 1 }
  rw [hleft.rest]
  exact .ret hslot hvalue

/-! ### Objects -/

/-- An allocation that returns passed the assertion and asked the pool once. -/
theorem execAlloc_effect (h : vm.WellFramed) (ha : a < 256)
    (hok : execAlloc host sec vm a d = .ok vm') :
    Effected host sec vm (some .alloc) a b c d vm' := by
  unfold execAlloc at hok
  split at hok
  · cases hok
  · next record hrecord =>
    rcases bind_eq_ok.mp hok with ⟨⟨mid, _⟩, hget, hrest⟩
    rcases bind_eq_ok.mp hrest with ⟨⟨last, addr⟩, halloc, hret⟩
    rcases get_acts h (by omega) hget with ⟨_, hmid⟩
    rcases mpsAllocObj_eq_ok halloc with ⟨hsize, rfl, rfl⟩
    cases hret
    rcases hmid.rest_fields with ⟨hpc, htable, hheap, hblocks, hreserves, hfields⟩
    have heffect : Effect host sec vm a b c d _ _ _ := .alloc hrecord hsize
    refine ⟨[], ?_, ?_⟩
    · convert heffect using 1
      split <;>
        simp only [rest, next, print, Rest.next, hpc, htable, hheap, hblocks, hreserves, hfields]
    · split <;> exact ⟨hmid.slots, hmid.stack, hmid.run⟩

/-- The fields of an object are loaded from the rest of the state. -/
theorem loadRef_congr {mid : VM} {actions : List SlotAction} {obj offset : Nat} {word : Word}
    (hacts : Acts vm actions mid) :
    mid.loadRef host obj offset = .ok word ↔ vm.loadRef host obj offset = .ok word := by
  rcases hacts.rest_fields with ⟨_, _, hheap, hblocks, _, _⟩
  unfold loadRef loadThrough block?
  rw [hheap, hblocks]

/-- A store that returns went to a field of an object. -/
theorem execSetfield_effect (h : vm.WellFramed) (ha : a < 256) (hc : c < 256)
    (hok : execSetfield vm a b c = .ok vm') :
    Effected host sec vm (some .setfield) a b c d vm' := by
  rcases bind_eq_ok.mp hok with ⟨⟨first, obj⟩, hgeta, hrest⟩
  rcases bind_eq_ok.mp hrest with ⟨⟨mid, value⟩, hgetc, hrest⟩
  rcases bind_eq_ok.mp hrest with ⟨last, hstore, hret⟩
  cases hret
  rcases operands_acts h ha hc hgeta hgetc with ⟨hobj, hvalue, hmid⟩
  rcases hmid.rest_fields with ⟨hpc, htable, hheap, hblocks, hreserves, hfields⟩
  rcases storeRef_eq_ok hstore with ⟨block, hblock, hroom, rfl⟩
  rw [show mid.block? obj.toNat = vm.block? obj.toNat by unfold block?; rw [hblocks]] at hblock
  have heffect : Effect host sec vm a b c d _ _ _ := .setfield hobj hvalue hblock hroom
  refine ⟨[], ?_, ⟨hmid.slots, hmid.stack, hmid.run⟩⟩
  convert heffect using 1
  simp only [rest, next, Rest.next, hpc, htable, hheap, hblocks, hreserves, hfields]

/-- A load assigns the word of a field. -/
theorem execGetfield_effect (h : vm.WellFramed) (ha : a < 256) (hb : b < 256)
    (hok : execGetfield host vm a b c = .ok vm') :
    Effected host sec vm (some .getfield) a b c d vm' := by
  rcases bind_eq_ok.mp hok with ⟨⟨mid, obj⟩, hget, hrest⟩
  rcases bind_eq_ok.mp hrest with ⟨word, hload, hrest⟩
  rcases bind_eq_ok.mp hrest with ⟨last, hset, hret⟩
  cases hret
  rcases get_acts h (by omega) hget with ⟨hobj, hmid⟩
  exact (hmid.trans (set_acts (hmid.wellFramed h) (by omega) hset)).next_effected
    (.getfield hobj ((loadRef_congr hmid).mp hload))

/-! ## The effect of a step -/

/-- The operands of an instruction are bytes. -/
theorem decode_lt (inst : BitVec 32) :
    (decode inst).a < 256 ∧ (decode inst).b < 256 ∧ (decode inst).c < 256 :=
  ⟨BitVec.isLt _, BitVec.isLt _, BitVec.isLt _⟩

/-- The operands of the instruction that is executed next are bytes. -/
theorem current?_lt {inst : Decoded} (h : current? host sec vm = some inst) :
    inst.a < 256 ∧ inst.b < 256 ∧ inst.c < 256 := by
  rcases Option.map_eq_some_iff.mp h with ⟨word, _, rfl⟩
  exact decode_lt word

/-- A step executes the instruction that the program counter is on. -/
theorem step_eq_execute {inst : Decoded} (h : current? host sec vm = some inst) :
    step host sec vm = execute host sec vm inst.op inst.a inst.b inst.c inst.d := by
  simp only [step, h]

/-- The switch has one of the effects. -/
theorem execute_effect {op : Option Opcode} (h : vm.WellFramed) (hfits : host.Fits vm.blocks)
    (ha : a < 256) (hb : b < 256) (hc : c < 256)
    (hok : execute host sec vm op a b c d = .ok vm') : Effected host sec vm op a b c d vm' := by
  have hskip (hop : skips op = true) : Effected host sec vm op a b c d vm.next :=
    (Acts.refl h).next_effected (.skip hop)
  cases op with
  | none =>
      cases hok
      exact hskip rfl
  | some op =>
      cases op with
      | cstr | ctype | cbool | cnil | cshort | fnew => exact constant_effect h ha rfl hok
      | ckey => exact execCkey_effect h ha hok
      | nsset => exact execNsset_effect h ha hok
      | nsget => exact execNsget_effect h ha hok
      | addvv | subvv | mulvv | divvv => exact execArith_effect h hfits ha hb hc rfl hok
      | modvv => exact execModvv_effect h ha hb hc hok
      | iseq => exact execIseq_effect h hfits ha hb hc hok
      | mov => exact execMov_effect h ha hok
      | bulkmov => exact execBulkmov_effect h ha hb hc hok
      | jumpf => exact execJumpf_effect h ha hok
      | jumpt => exact execJumpt_effect h ha hok
      | call => exact execCall_effect h ha hok
      | ret => exact execRet_effect h ha hok
      | alloc => exact execAlloc_effect h ha hok
      | setfield => exact execSetfield_effect h ha hc hok
      | getfield => exact execGetfield_effect h ha hb hok
      | jump =>
          cases hok
          exact ⟨[], .jump, (Acts.refl h).toMoves.setPc _⟩
      | loop =>
          cases hok
          exact (Acts.refl h).effected .loop
      | exit => cases hok
      | cint | cfloat | setf | powvv | islt | isge | isle | isgt | isneq | not | neg | apply
      | vfnew | getfreevar | uclo | newarray | getarray | setarray | funcf | funcv | «break»
      | drop | tranc =>
          cases hok
          exact hskip rfl

/-- A step has one of the effects. -/
theorem step_effect (h : vm.WellFramed) (hfits : host.Fits vm.blocks)
    (hok : step host sec vm = .ok vm') :
    ∃ inst, current? host sec vm = some inst ∧
      inst.a < 256 ∧ inst.b < 256 ∧ inst.c < 256 ∧
      Effected host sec vm inst.op inst.a inst.b inst.c inst.d vm' := by
  unfold step at hok
  split at hok
  · cases hok
  · next inst hinst =>
    have hlt := current?_lt hinst
    exact ⟨inst, hinst, hlt.1, hlt.2.1, hlt.2.2,
      execute_effect h hfits hlt.1 hlt.2.1 hlt.2.2 hok⟩

/-! ## Reachable states -/

/-- The frames are in order and the blocks are apart. -/
structure WellFormed (host : Host) (vm : VM) : Prop extends WellFramed vm where
  fits : host.Fits vm.blocks

/-- The blocks behind an instruction are mapped and apart if those in front of it are. -/
theorem Effect.fits {op : Option Opcode} {actions : List SlotAction} {rest : Rest}
    (hfits : host.Fits vm.blocks) (heffect : Effect host sec vm a b c d op actions rest) :
    host.Fits rest.blocks := by
  cases heffect with
  | branch => split <;> exact hfits
  | alloc hrecord hsize =>
      simp only
      cases haddr : (host.reserve vm.reserves vm.blocks _).object? with
      | none => exact hfits
      | some addr => exact hfits.cons hsize haddr
  | _ => exact hfits

/-- The effect of a step whose instruction is known. -/
theorem WellFormed.effect {inst : Decoded} (h : vm.WellFormed host)
    (hinst : current? host sec vm = some inst) (hok : step host sec vm = .ok vm') :
    inst.a < 256 ∧ inst.b < 256 ∧ inst.c < 256 ∧
      Effected host sec vm inst.op inst.a inst.b inst.c inst.d vm' := by
  rcases step_effect h.toWellFramed h.fits hok with ⟨inst', hinst', heffect⟩
  rw [hinst, Option.some.injEq] at hinst'
  rwa [hinst']

/-- A step keeps the slots, the contexts and the blocks in order. -/
theorem WellFormed.step (h : vm.WellFormed host) (hok : step host sec vm = .ok vm') :
    vm'.WellFormed host := by
  rcases step_effect h.toWellFramed h.fits hok with ⟨inst, _, _, _, _, actions, heffect, hmoves⟩
  exact ⟨hmoves.wellFramed h.toWellFramed, Effect.fits h.fits heffect⟩

/-- A run keeps the slots, the contexts and the blocks in order. -/
theorem WellFormed.run {n : Nat} (h : vm.WellFormed host)
    (hok : run host sec n vm = .ok vm') : vm'.WellFormed host := by
  induction n generalizing vm with
  | zero =>
      cases hok
      exact h
  | succ n ih =>
      rcases bind_eq_ok.mp hok with ⟨next, hstep, hrest⟩
      exact ih (h.step hstep) hrest

end VM

/-- All reachable states are well formed. -/
theorem Reachable.wellFormed {host : Host} {sec : Sections} {vm : VM}
    (h : Reachable host sec vm) : vm.WellFormed host := by
  induction h with
  | init => exact ⟨VM.vmInit_wellFramed host, host.fits_nil⟩
  | step _ hok ih => exact ih.step hok

end ClojitCvm
