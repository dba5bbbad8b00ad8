import ClojitCvm.Machine.DoubleSlots

/-!
# The order of the operands

The arithmetic instructions have a block for every pair of operand kinds.  What a block
computes does not depend on how doubles are stored, so this file leaves their conversions
and operators open and asks which of its operands a block puts first.

Main results:

- Theorem {lit}`execArith_eq_with`: the instructions of the source are the instructions of
  this file with the conversions of the source.
- Theorem {lit}`DoubleCodec.Faithful.execArithWith_spec`: what an instruction stores if
  one of its operands is a double and the conversions are faithful.
- Theorem {lit}`receives_iff`: subtraction and division exchange an integer and a double.
-/

namespace ClojitCvm

open ByteMemory CellArray FrameStack Slot

/-! ## Instructions over open conversions -/

/-- The conversions between slots and doubles of any kind. -/
structure DoubleCodec (δ : Type) where
  getDouble : VM → Word → Outcome VM (VM × δ)
  toDouble : δ → Word
  ofInt : BitVec 32 → δ

/-- The conversions of the source. -/
def sourceCodec (host : Host) : DoubleCodec Double where
  getDouble vm slot := vm.getDouble host slot
  toDouble := toDouble
  ofInt := host.float.ofInt

section With

variable {δ : Type} (codec : DoubleCodec δ)
    (int : BitVec 32 → BitVec 32 → Option (BitVec 32)) (op : δ → δ → δ)

/-- The cases of an arithmetic instruction, with the conversions left open. -/
def arithCasesWith (vm : VM) (a : Nat) (bslot cslot : Word) : Outcome VM VM :=
  if isSmallInt bslot && isSmallInt cslot then
    setInt vm a (int (getSmallInt bslot) (getSmallInt cslot))
  else if isDouble bslot && isDouble cslot then do
    let (vm, b) ← codec.getDouble vm bslot
    let (vm, c) ← codec.getDouble vm cslot
    vm.set a (codec.toDouble (op b c))
  else if isDouble bslot && isSmallInt cslot then do
    let (vm, b) ← codec.getDouble vm bslot
    vm.set a (codec.toDouble (op b (codec.ofInt (getSmallInt cslot))))
  else if isSmallInt bslot && isDouble cslot then do
    let (vm, c) ← codec.getDouble vm cslot
    vm.set a (codec.toDouble (op c (codec.ofInt (getSmallInt bslot))))
  else .ok vm

def execArithWith (vm : VM) (a b c : Nat) : Outcome VM VM := do
  let (vm, bslot) ← vm.get b
  let (vm, cslot) ← vm.get c
  let vm ← arithCasesWith codec int op vm a bslot cslot
  return vm.next

end With

/-- The four instructions with double operands. -/
inductive ArithOp where
  | addvv | subvv | mulvv | divvv
deriving DecidableEq, Repr

namespace ArithOp

def opcode : ArithOp → Opcode
  | addvv => .addvv
  | subvv => .subvv
  | mulvv => .mulvv
  | divvv => .divvv

def arith : ArithOp → Arith
  | addvv => ClojitCvm.addvv
  | subvv => ClojitCvm.subvv
  | mulvv => ClojitCvm.mulvv
  | divvv => ClojitCvm.divvv

/-- Whether the order of the operands does not matter. -/
def commutes : ArithOp → Bool
  | addvv | mulvv => true
  | subvv | divvv => false

end ArithOp

/-- The instructions of the source are the open ones with its own conversions. -/
theorem execArith_eq_with (o : ArithOp) (host : Host) (sec : Sections) (vm : VM)
    (a b c : Nat) (d : BitVec 16) :
    execute host sec vm (some o.opcode) a b c d =
      execArithWith (sourceCodec host) o.arith.int (o.arith.double host.float) vm a b c := by
  cases o <;> rfl

/-! ## Faithful conversions -/

namespace DoubleCodec

variable {δ : Type} {codec : DoubleCodec δ} {value : Word → δ}

/-- Every double word has a value, which is read without an effect, and every value has
such a word. -/
structure Faithful (codec : DoubleCodec δ) (value : Word → δ) : Prop where
  getDouble : ∀ vm slot, isDouble slot = true → codec.getDouble vm slot = .ok (vm, value slot)
  isDouble_toDouble : ∀ num, isDouble (codec.toDouble num) = true
  value_toDouble : ∀ num, value (codec.toDouble num) = num

/-- The value of a slot with a number. -/
def number (codec : DoubleCodec δ) (value : Word → δ) (slot : Word) : δ :=
  if isDouble slot then value slot else codec.ofInt (getSmallInt slot)

/-- The result that an instruction stores: with an integer in front of a double the
operands are exchanged. -/
def computed (codec : DoubleCodec δ) (value : Word → δ) (op : δ → δ → δ) (x y : Word) : δ :=
  if isSmallInt x then op (codec.number value y) (codec.number value x)
  else op (codec.number value x) (codec.number value y)

end DoubleCodec

/-- Both words are numbers, and one of them is a double. -/
def Mixed (x y : Word) : Prop :=
  isSmallInt x = true ∧ isDouble y = true ∨ isDouble x = true ∧ isSmallInt y = true ∨
    isDouble x = true ∧ isDouble y = true

instance (x y : Word) : Decidable (Mixed x y) :=
  inferInstanceAs (Decidable (_ ∨ _))

/-- Each block stores its result. -/
theorem arithCasesWith_eq {δ : Type} {codec : DoubleCodec δ} {value : Word → δ}
    (hcodec : codec.Faithful value) (int : BitVec 32 → BitVec 32 → Option (BitVec 32))
    (op : δ → δ → δ) (vm : VM) (a : Nat) {x y : Word} (hmixed : Mixed x y) :
    arithCasesWith codec int op vm a x y =
      vm.set a (codec.toDouble (codec.computed value op x y)) := by
  rcases hmixed with ⟨hx, hy⟩ | ⟨hx, hy⟩ | ⟨hx, hy⟩
  · have hdouble := isDouble_eq_false_of_isSmallInt hx
    have hint := isSmallInt_eq_false_of_isDouble hy
    simp [arithCasesWith, DoubleCodec.computed, DoubleCodec.number, hx, hy, hdouble, hint,
      hcodec.getDouble vm y hy, bind, Except.bind]
  · have hint := isSmallInt_eq_false_of_isDouble hx
    have hdouble := isDouble_eq_false_of_isSmallInt hy
    simp [arithCasesWith, DoubleCodec.computed, DoubleCodec.number, hx, hy, hdouble, hint,
      hcodec.getDouble vm x hx, bind, Except.bind]
  · have hintx := isSmallInt_eq_false_of_isDouble hx
    have hinty := isSmallInt_eq_false_of_isDouble hy
    simp [arithCasesWith, DoubleCodec.computed, DoubleCodec.number, hx, hy, hintx, hinty,
      hcodec.getDouble vm x hx, hcodec.getDouble vm y hy, bind, Except.bind]

/-- An instruction on two numbers, one of them a double, assigns its result. -/
theorem DoubleCodec.Faithful.execArithWith_spec {δ : Type} {codec : DoubleCodec δ}
    {value : Word → δ} (hcodec : codec.Faithful value)
    (int : BitVec 32 → BitVec 32 → Option (BitVec 32)) (op : δ → δ → δ) {vm : VM}
    (h : vm.WellFramed) {a b c : Nat} (ha : a < 2 ^ 20) (hb : b < 2 ^ 20) (hc : c < 2 ^ 20)
    {x y : Word} (hx : vm.words[vm.base + b]? = some x) (hy : vm.words[vm.base + c]? = some y)
    (hmixed : Mixed x y) :
    VM.Stores vm a (codec.toDouble (codec.computed value op x y))
      (execArithWith codec int op vm a b c) := by
  rcases h.operands_spec hb hc (fun vm x y => do
    let vm ← arithCasesWith codec int op vm a x y
    return vm.next) with ⟨mid, hmid, heq⟩
  rw [hx, hy] at heq
  unfold execArithWith
  rw [heq, arithCasesWith_eq hcodec int op mid a hmixed]
  exact VM.stores_next (hmid.set_spec h ha _)

/-! ## The order of the operands -/

/-- The number is the result on the operands in their order, or in either order if the
order does not matter. -/
def ArithOp.Respects {δ : Type} (o : ArithOp) (op : δ → δ → δ) (x y num : δ) : Prop :=
  num = op x y ∨ o.commutes = true ∧ num = op y x

/-- The target of an instruction receives its result. -/
def Receives {δ : Type} (codec : DoubleCodec δ) (value : Word → δ) (o : ArithOp)
    (op : δ → δ → δ) (vm : VM) (a b c : Nat) (x y : Word) : Prop :=
  ∃ vm' slot, execArithWith codec o.arith.int op vm a b c = .ok vm' ∧
    vm'.words[vm.base + a]? = some slot ∧ isDouble slot = true ∧
    o.Respects op (codec.number value x) (codec.number value y) (value slot)

/-- The stored result respects the order unless it is exchanged and the order matters. -/
theorem respects_computed_iff {δ : Type} {codec : DoubleCodec δ} {value : Word → δ}
    (o : ArithOp) (op : δ → δ → δ) (x y : Word) :
    o.Respects op (codec.number value x) (codec.number value y)
        (codec.computed value op x y) ↔
      o.commutes = true ∨ isSmallInt x = false ∨
        op (codec.number value y) (codec.number value x) =
          op (codec.number value x) (codec.number value y) := by
  unfold ArithOp.Respects DoubleCodec.computed
  cases isSmallInt x <;> cases o.commutes <;> simp

/-- Whatever the operators and values, the target receives the result on the operands in
their order, exactly when the slots can grow up to the target and the instruction does
not exchange operands whose order matters: an integer in front of a double, which
{lit}`SUBVV` and {lit}`DIVVV` subtract from the double and divide it by. -/
theorem receives_iff {δ : Type} {codec : DoubleCodec δ} {value : Word → δ}
    (hcodec : codec.Faithful value) (op : δ → δ → δ) (o : ArithOp) {vm : VM}
    (h : vm.WellFramed) (a b c : Byte) {x y : Word}
    (hx : vm.words[vm.base + b.toNat]? = some x) (hy : vm.words[vm.base + c.toNat]? = some y)
    (hmixed : Mixed x y) :
    Receives codec value o op vm a.toNat b.toNat c.toNat x y ↔
      vm.base + a.toNat < maxCapacity ∧
        (o.commutes = true ∨ isSmallInt x = false ∨
          op (codec.number value y) (codec.number value x) =
            op (codec.number value x) (codec.number value y)) := by
  have hbyte (v : Byte) : v.toNat < 2 ^ 20 := Nat.lt_trans v.isLt (by decide)
  have hspec := hcodec.execArithWith_spec o.arith.int op h (hbyte a) (hbyte b) (hbyte c)
    hx hy hmixed
  rw [← respects_computed_iff]
  have htarget {vm' : VM}
      (hmoves : VM.Moves vm [.assign a.toNat (codec.toDouble (codec.computed value op x y))] vm') :
      vm'.words[vm.base + a.toNat]? =
        some (codec.toDouble (codec.computed value op x y)) := by
    rw [hmoves.of_assign.1]
    exact getElem?_assign_self ..
  constructor
  · rintro ⟨vm', slot, hok, hslot, _, hrespects⟩
    rcases of_eq_ok hspec hok with ⟨hlt, hmoves, _⟩
    rw [htarget hmoves] at hslot
    cases hslot
    rw [hcodec.value_toDouble] at hrespects
    exact ⟨hlt, hrespects⟩
  · rintro ⟨hlt, hrespects⟩
    rw [VM.Stores, if_pos hlt] at hspec
    rcases hspec with ⟨vm', hok, hmoves, _⟩
    refine ⟨vm', _, hok, htarget hmoves, hcodec.isDouble_toDouble _, ?_⟩
    rwa [hcodec.value_toDouble]

/-! ## The intended conversions -/

/-- The value of a word under the intended encoding. -/
def intendedValue (slot : Word) : { bits : Double // IsDoublePattern bits } :=
  if h : IsDoublePattern (flipNonNegative slot) then ⟨_, h⟩ else ⟨0#64, by decide⟩

/-- The patterns of doubles, moved as intended. -/
def intendedCodec (ofInt : BitVec 32 → Double) (hofInt : ∀ num, IsDoublePattern (ofInt num)) :
    DoubleCodec { bits : Double // IsDoublePattern bits } where
  getDouble vm slot := .ok (vm, intendedValue slot)
  toDouble num := flipNonNegative num
  ofInt num := ⟨ofInt num, hofInt num⟩

theorem intendedCodec_faithful {ofInt : BitVec 32 → Double}
    (hofInt : ∀ num, IsDoublePattern (ofInt num)) :
    (intendedCodec ofInt hofInt).Faithful intendedValue where
  getDouble _ _ _ := rfl
  isDouble_toDouble num := (flipNonNegative_holds_iff num.2 .double).mpr rfl
  value_toDouble num := by
    have hback : flipNonNegative (flipNonNegative num.1) = num.1 := flipNonNegative_involutive _
    apply Subtype.ext
    simp only [intendedCodec, intendedValue, hback, num.2, dite_true]

/-- A program that subtracts 2.0 from the integer 1.  The double is loaded from the
characters of a string, where it stands in the intended encoding. -/
def oneMinusTwo : CvmbFile where
  sections := [.instructions [.ad Opcode.cshort.number 0 1, .ad Opcode.ckey.number 1 0,
    .abc Opcode.getfield.number 1 1 0, .abc Opcode.subvv.number 2 0 1], .cint [],
    .cstr [[97, 98, 99, 100, 101, 102, 103, 104,
      0xFF, 0xFF, 0xFF, 0xFF, 0xFF, 0xFF, 0xFF, 0x3F]]]
  nodup := by decide
  wellFormed := by decide

def oneMinusTwoHost : Host :=
  bumpHost oneMinusTwo (by decide)

/-- The state in front of the subtraction. -/
def oneMinusTwoState : VM :=
  stateAfter oneMinusTwoHost (loadfile oneMinusTwoHost) 3

/-- Some conversions of integers and some differences of doubles. -/
def someOfInt (num : BitVec 32) : Double :=
  if num = 1#32 then onePattern else 0#64

def someSub (x y : { bits : Double // IsDoublePattern bits }) :
    { bits : Double // IsDoublePattern bits } :=
  if x.1 = onePattern ∧ y.1 = 0x4000000000000000#64 then ⟨0xBFF0000000000000#64, by decide⟩
  else if x.1 = 0x4000000000000000#64 ∧ y.1 = onePattern then ⟨onePattern, by decide⟩
  else ⟨0#64, by decide⟩

theorem isDoublePattern_someOfInt (num : BitVec 32) : IsDoublePattern (someOfInt num) := by
  unfold someOfInt
  split <;> decide

def someCodec : DoubleCodec { bits : Double // IsDoublePattern bits } :=
  intendedCodec someOfInt isDoublePattern_someOfInt

theorem oneMinusTwo_wellFramed : oneMinusTwoState.WellFramed := by
  have hreach : Reachable oneMinusTwoHost (loadfile oneMinusTwoHost) oneMinusTwoState :=
    reachable_stateAfter (by decide)
  exact hreach.wellFormed.toWellFramed

/-- The double minus the integer is computed in order. -/
theorem twoMinusOne_receives :
    Receives someCodec intendedValue .subvv someSub oneMinusTwoState (2#8).toNat (1#8).toNat
      (0#8).toNat 0x3FFFFFFFFFFFFFFF#64 (toSmallInt 1) :=
  (receives_iff (intendedCodec_faithful isDoublePattern_someOfInt) someSub .subvv
    oneMinusTwo_wellFramed 2#8 1#8 0#8 (by decide) (by decide) (by decide)).mpr
    ⟨by decide, .inr (.inl (by decide))⟩

/-- The integer minus the double is not: the target gets 1.0 and not -1.0. -/
theorem oneMinusTwo_not_receives :
    ¬ Receives someCodec intendedValue .subvv someSub oneMinusTwoState 2 0 1
        (toSmallInt 1) 0x3FFFFFFFFFFFFFFF#64 ∧
      (someSub (someCodec.number intendedValue (toSmallInt 1))
        (someCodec.number intendedValue 0x3FFFFFFFFFFFFFFF#64)).1 = 0xBFF0000000000000#64 ∧
      ∃ vm', execArithWith someCodec ArithOp.subvv.arith.int someSub oneMinusTwoState 2 0 1 =
        .ok vm' ∧ vm'.words[2]? = some (flipNonNegative onePattern) := by
  have hcodec := intendedCodec_faithful isDoublePattern_someOfInt
  have hstores := hcodec.execArithWith_spec ArithOp.subvv.arith.int someSub
    oneMinusTwo_wellFramed (a := 2) (b := 0) (c := 1) (by decide) (by decide) (by decide)
    (x := toSmallInt 1) (y := 0x3FFFFFFFFFFFFFFF#64) (by decide) (by decide) (by decide)
  rw [VM.Stores, if_pos (by decide)] at hstores
  rcases hstores with ⟨vm', hok, hmoves, _⟩
  have htarget : vm'.words[2]? = some (flipNonNegative onePattern) := by
    rw [hmoves.of_assign.1]
    decide
  refine ⟨?_, by decide, vm', hok, htarget⟩
  rintro ⟨last, slot, hok', hslot, _, hrespects⟩
  rw [show execArithWith someCodec _ _ _ _ _ _ = .ok vm' from hok] at hok'
  cases hok'
  rw [show oneMinusTwoState.base + 2 = 2 by decide, htarget] at hslot
  cases hslot
  rcases hrespects with heq | ⟨hcommutes, _⟩
  · exact absurd heq (by decide)
  · cases hcommutes

end ClojitCvm
