import ClojitCvm.Lib.TaggedWord
import Mathlib.Tactic.IntervalCases

/-!
# Slot words

A slot is one 64-bit word.  The high sixteen bits are a tag that tells doubles,
pointers, small integers, booleans, types, functions and builtins apart.  The
definitions here are the encoders, decoders and predicates of {lit}`slots.c`,
written with the same shifts, masks and integer conversions.

Main results:

- The lemmas {lit}`toType_eq_packed` to {lit}`toBuiltin_eq_packed` give every
  encoder as a tag and a payload; for signed payloads the tag survives only when
  the payload is not negative.
- The lemmas {lit}`getType_toType` to {lit}`getBuiltin_toBuiltin` read every payload
  back; a builtin keeps only the low half of its address.
-/

namespace ClojitCvm.Slot

open TaggedWord

/-- The machine word kept in a slot. -/
abbrev Word := BitVec 64

/-- A double, as its 64-bit pattern. -/
abbrev Double := BitVec 64

/-! ## Tags -/

/-- The numbers in the high 16 bits of a slot; a double has one between two bounds. -/
def tagDoubleMax : BitVec 16 := 0xFFF8#16
def tagDoubleMin : BitVec 16 := 0x0007#16
def tagPointerLo : BitVec 16 := 0x0000#16
def tagPointerHi : BitVec 16 := 0xFFFF#16
def tagSmallInteger : BitVec 16 := 0xFFFE#16
def tagBool : BitVec 16 := 0xFFFD#16
def tagType : BitVec 16 := 0xFFFC#16
def tagFnew : BitVec 16 := 0xFFFB#16
def tagBuiltin : BitVec 16 := 0xFFFA#16

/-- The C conversion {lit}`((uint64_t) TAG) << 48`. -/
def shiftedTag (tag : BitVec 16) : Word :=
  tag.setWidth 64 <<< 48

/-- The high 16 bits. -/
def tag (slot : Word) : BitVec 16 :=
  ((slot >>> 48) &&& 0xFFFF#64).setWidth 16

/-! ## Nil and pointers -/

def isNil (slot : Word) : Bool :=
  slot == 0#64

def getNil : Word :=
  0#64

/-- A pointer has the tag of an address of either half of the address space, and is not nil. -/
def isPointer (slot : Word) : Bool :=
  !isNil slot && (tag slot == tagPointerLo || tag slot == tagPointerHi)

/-! ## Doubles -/

/-- The C operator {lit}`!` on a 64-bit operand. -/
def logicalNot (x : Word) : Word :=
  if x = 0#64 then 1#64 else 0#64

/-- The mask is built with {lit}`!(1LU << 63)`, the logical and not the bitwise
complement, as in the source. -/
def invertNonNegative (slot : Word) : Word :=
  let mask := (~~~slot).sshiftRight 63 &&& logicalNot (1#64 <<< 63)
  slot ^^^ mask

/-- The comparison of the tags is unsigned. -/
def isDouble (slot : Word) : Bool :=
  decide (tagDoubleMin ≤ tag slot) && decide (tag slot ≤ tagDoubleMax)

/-- Nothing is added to the pattern of a double. -/
def toDouble (num : Double) : Word :=
  invertNonNegative num

/-! ## Types -/

/-- The argument is a C {lit}`uint16_t`. -/
def toType (type : BitVec 16) : Word :=
  shiftedTag tagType ||| type.setWidth 64

def isType (slot : Word) : Bool :=
  tag slot == tagType

/-- The low bits, whatever the tag is. -/
def getType (slot : Word) : BitVec 16 :=
  (slot &&& 0xFFFFFFFF#64).setWidth 16

/-! ## Builtins -/

/-- {lit}`fn` is the function's address. -/
def toBuiltin (fn : Word) : Word :=
  shiftedTag tagBuiltin ||| fn

/-- The tag alone decides, here and in the other tests. -/
def isBuiltin (slot : Word) : Bool :=
  tag slot == tagBuiltin

/-- The mask keeps the low half of the address. -/
def getBuiltin (slot : Word) : Word :=
  slot &&& 0xFFFFFFFF#64

/-! ## Function values -/

/-- The argument is a C {lit}`int16_t`, so the bitwise or sign-extends it. -/
def toFnew (type : BitVec 16) : Word :=
  shiftedTag tagFnew ||| type.signExtend 64

def isFnew (slot : Word) : Bool :=
  tag slot == tagFnew

/-- The result is read as a C {lit}`int16_t`. -/
def getFnew (slot : Word) : BitVec 16 :=
  (slot &&& 0xFFFFFFFF#64).setWidth 16

/-! ## Small integers -/

/-- The argument is a C {lit}`int32_t`, so the bitwise or sign-extends it. -/
def toSmallInt (num : BitVec 32) : Word :=
  shiftedTag tagSmallInteger ||| num.signExtend 64

def isSmallInt (slot : Word) : Bool :=
  tag slot == tagSmallInteger

/-- The result is read as a C {lit}`int32_t`. -/
def getSmallInt (slot : Word) : BitVec 32 :=
  (slot &&& 0xFFFFFFFF#64).setWidth 32

/-! ## Booleans -/

def isBool (slot : Word) : Bool :=
  tag slot == tagBool

/-- Any value has a low bit. -/
def getBool (slot : Word) : Bool :=
  (slot &&& 0x1#64) != 0#64

/-- The conversion of a C {lit}`bool` gives one or zero. -/
def toBool (value : Bool) : Word :=
  shiftedTag tagBool ||| (if value then 1#64 else 0#64)

/-! ## Truth values -/

/-- The value of {lit}`is_falsy`; the line it prints belongs to the machine. -/
def isFalsy (slot : Word) : Bool :=
  if isBool slot then getBool slot == false else isNil slot

/-- The value of {lit}`is_truthy`. -/
def isTruthy (slot : Word) : Bool :=
  !isFalsy slot

/-! ## Encoders as a tag and a payload -/

/-- The word with a given tag and 48-bit payload. -/
def packed (t : BitVec 16) (payload : BitVec 48) : Word :=
  TaggedWord.pack t payload

/-- The C mask {lit}`0xFFFFFFFF` does not change the lowest thirty-two bits. -/
theorem setWidth_and_mask (x : Word) {n : Nat} (hn : n ≤ 32) :
    (x &&& 0xFFFFFFFF#64).setWidth n = x.setWidth n :=
  TaggedWord.setWidth_and_allOnes (m := 32) x hn

/-- The source's shift and mask read the tag field of the word. -/
theorem tag_eq_tagOf (slot : Word) : tag slot = TaggedWord.tagOf (t := 16) (p := 48) slot := by
  unfold tag
  have hmask := TaggedWord.setWidth_and_allOnes (m := 16) (slot >>> 48) (Nat.le_refl 16)
  change (slot >>> 48 &&& (BitVec.allOnes 16).setWidth 64).setWidth 16 = _
  rw [hmask]
  ext i hi
  simp [TaggedWord.tagOf]

/-- The tag of a packed word can be read again. -/
@[simp]
theorem tag_packed (t : BitVec 16) (payload : BitVec 48) : tag (packed t payload) = t := by
  rw [tag_eq_tagOf]
  exact TaggedWord.tagOf_pack t payload

/-- Packed words are equal only if both parts are. -/
theorem packed_inj {t t' : BitVec 16} {payload payload' : BitVec 48} :
    packed t payload = packed t' payload' ↔ t = t' ∧ payload = payload' :=
  TaggedWord.pack_inj

/-- A word with a nonzero tag is not nil. -/
theorem isNil_eq_false_of_tag {slot : Word} (h : tag slot ≠ 0#16) : isNil slot = false := by
  unfold isNil
  rw [beq_eq_false_iff_ne]
  rintro rfl
  exact h (by decide)

/-- A type is packed with its number, which no sign runs over. -/
theorem toType_eq_packed (type : BitVec 16) :
    toType type = packed tagType (type.setWidth 48) :=
  TaggedWord.shiftedTag_or_setWidth (t := 16) (p := 48) tagType type (by decide)

/-- The tag of a function value is lost when its code address is negative. -/
theorem toFnew_eq_packed (type : BitVec 16) :
    toFnew type =
      packed (if type.msb then BitVec.allOnes 16 else tagFnew) (type.signExtend 48) :=
  TaggedWord.shiftedTag_or_signExtend (t := 16) (p := 48) tagFnew type (by decide)

/-- The tag of a small integer is lost when the integer is negative. -/
theorem toSmallInt_eq_packed (num : BitVec 32) :
    toSmallInt num =
      packed (if num.msb then BitVec.allOnes 16 else tagSmallInteger) (num.signExtend 48) :=
  TaggedWord.shiftedTag_or_signExtend (t := 16) (p := 48) tagSmallInteger num (by decide)

/-- A truth value is packed with one bit. -/
theorem toBool_eq_packed (value : Bool) :
    toBool value = packed tagBool (if value then 1#48 else 0#48) := by
  cases value <;> decide

/-- A builtin's word is its tag above its address, for a 48-bit address. -/
theorem toBuiltin_eq_packed (fn : BitVec 48) :
    toBuiltin (fn.setWidth 64) = packed tagBuiltin fn := by
  have h := TaggedWord.shiftedTag_or_setWidth (t := 16) (p := 48) tagBuiltin fn (by decide)
  rwa [BitVec.setWidth_eq] at h

/-! ## Decoders -/

/-- Narrow reads see only the payload. -/
theorem setWidth_packed (t : BitVec 16) (payload : BitVec 48) {n : Nat} (hn : n ≤ 48) :
    (packed t payload).setWidth n = payload.setWidth n := by
  have h := congrArg (BitVec.setWidth n) (TaggedWord.payloadOf_pack t payload)
  rwa [TaggedWord.payloadOf, BitVec.setWidth_setWidth_of_le _ hn] at h

/-- Every type can be read again. -/
@[simp]
theorem getType_toType (type : BitVec 16) : getType (toType type) = type := by
  rw [getType, setWidth_and_mask _ (by decide), toType_eq_packed,
    setWidth_packed _ _ (by decide), BitVec.setWidth_setWidth_of_le _ (by decide),
    BitVec.setWidth_eq]

/-- The low half of a function value is its code address, negative or not. -/
@[simp]
theorem getFnew_toFnew (type : BitVec 16) : getFnew (toFnew type) = type := by
  rw [getFnew, setWidth_and_mask _ (by decide), toFnew_eq_packed,
    setWidth_packed _ _ (by decide), TaggedWord.setWidth_signExtend _ (by decide)]

/-- The low half of a small integer is the integer, negative or not. -/
@[simp]
theorem getSmallInt_toSmallInt (num : BitVec 32) : getSmallInt (toSmallInt num) = num := by
  rw [getSmallInt, setWidth_and_mask _ (by decide), toSmallInt_eq_packed,
    setWidth_packed _ _ (by decide), TaggedWord.setWidth_signExtend _ (by decide)]

/-- Every truth value can be read again. -/
@[simp]
theorem getBool_toBool (value : Bool) : getBool (toBool value) = value := by
  cases value <;> decide

/-- A builtin's address is read back through a 32-bit mask. -/
theorem getBuiltin_toBuiltin (fn : BitVec 48) :
    getBuiltin (toBuiltin (fn.setWidth 64)) = (fn.setWidth 32).setWidth 64 := by
  rw [getBuiltin, toBuiltin_eq_packed]
  change packed tagBuiltin fn &&& (BitVec.allOnes 32).setWidth 64 = _
  rw [TaggedWord.and_allOnes_setWidth, setWidth_packed _ _ (by decide)]

end ClojitCvm.Slot
