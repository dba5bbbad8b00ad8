import ClojitCvm.Slot.Encoding

/-!
# Immediate values

An immediate is a value that lives entirely inside a slot word: a small integer,
a function, a type, a boolean, nil or a builtin.  This file says what it would
mean for the encoding to be faithful and decides it for every payload.

Main results:

- Theorem {lit}`Immediate.faithful_iff`: one kind's own predicate holds, every
  other predicate fails and the payload is read back exactly when the payload is
  in the kind's usable range.
- Theorem {lit}`Immediate.encode_eq_iff`: two different values share a word exactly
  when they are one negative number, once as a small integer and once as a
  function.
-/

namespace ClojitCvm.Slot

/-- The values the encoders accept, each with the payload type of its C
signature.  A builtin is a 48-bit code address. -/
inductive Immediate where
  | smallInt (num : BitVec 32)
  | fnew (type : BitVec 16)
  | type (type : BitVec 16)
  | bool (value : Bool)
  | nil
  | builtin (fn : BitVec 48)
deriving DecidableEq, Repr

/-- The predicates a slot word can be asked. -/
inductive Kind where
  | smallInt | fnew | type | bool | nil | builtin | double | pointer
deriving DecidableEq, Repr

namespace Kind

/-- The source predicate for a kind. -/
def holds : Kind → Word → Bool
  | smallInt => isSmallInt
  | fnew => isFnew
  | type => isType
  | bool => isBool
  | nil => isNil
  | builtin => isBuiltin
  | double => isDouble
  | pointer => isPointer

/-- Whether a kind's predicate accepts a given tag on a word that is not nil. -/
def acceptsTag : Kind → BitVec 16 → Bool
  | smallInt, t => t == tagSmallInteger
  | fnew, t => t == tagFnew
  | type, t => t == tagType
  | bool, t => t == tagBool
  | nil, _ => false
  | builtin, t => t == tagBuiltin
  | double, t => decide (tagDoubleMin ≤ t) && decide (t ≤ tagDoubleMax)
  | pointer, t => t == tagPointerLo || t == tagPointerHi

/-- On a word with a nonzero tag every predicate is a test of the tag. -/
theorem holds_packed (kind : Kind) {t : BitVec 16} (ht : t ≠ 0#16) (payload : BitVec 48) :
    kind.holds (packed t payload) = kind.acceptsTag t := by
  have hnil : isNil (packed t payload) = false :=
    isNil_eq_false_of_tag (by rwa [tag_packed])
  cases kind <;>
    simp [holds, acceptsTag, isSmallInt, isFnew, isType, isBool, isBuiltin, isDouble,
      isPointer, hnil]

/-- The tag an immediate kind's words are meant to carry; zero for the kinds that
are no tagged immediates. -/
def ownTag : Kind → BitVec 16
  | smallInt => tagSmallInteger
  | fnew => tagFnew
  | type => tagType
  | bool => tagBool
  | builtin => tagBuiltin
  | nil | double | pointer => 0#16

/-- The tags of the immediate kinds are told apart by every predicate. -/
theorem acceptsTag_ownTag {kind k : Kind} (hkind : kind.ownTag ≠ 0#16) :
    k.acceptsTag kind.ownTag = true ↔ k = kind := by
  revert hkind
  cases kind <;> cases k <;> decide

end Kind

namespace Immediate

/-- The word an immediate is encoded as. -/
def encode : Immediate → Word
  | smallInt num => toSmallInt num
  | fnew ty => toFnew ty
  | type ty => toType ty
  | bool value => toBool value
  | nil => getNil
  | builtin fn => toBuiltin (fn.setWidth 64)

/-- The kind whose predicate should accept the encoded word. -/
def kind : Immediate → Kind
  | smallInt _ => .smallInt
  | fnew _ => .fnew
  | type _ => .type
  | bool _ => .bool
  | nil => .nil
  | builtin _ => .builtin

/-- The kind's {lit}`get_` function applied to a word returns the payload. -/
def ReadBack : Immediate → Word → Prop
  | smallInt num, word => getSmallInt word = num
  | fnew ty, word => getFnew word = ty
  | type ty, word => getType word = ty
  | bool value, word => getBool word = value
  | nil, word => getNil = word
  | builtin fn, word => getBuiltin word = fn.setWidth 64

/-- The encoded word answers exactly its own predicate and gives its payload
back. -/
def Faithful (v : Immediate) : Prop :=
  (∀ k : Kind, k.holds v.encode = true ↔ k = v.kind) ∧ v.ReadBack v.encode

/-- The payloads the encoding can hold: signed payloads that are not negative,
and code addresses of at most thirty-two bits. -/
def InRange : Immediate → Prop
  | smallInt num => 0 ≤ num.toInt
  | fnew ty => 0 ≤ ty.toInt
  | builtin fn => fn.toNat < 2 ^ 32
  | _ => True

/-- The values are one negative number, as a small integer and as a function. -/
def SharedNegative : Immediate → Immediate → Prop
  | smallInt num, fnew ty => ty.toInt < 0 ∧ num = ty.signExtend 32
  | fnew ty, smallInt num => ty.toInt < 0 ∧ num = ty.signExtend 32
  | _, _ => False

/-! ## Faithfulness of one value -/

/-- A word carrying a kind's own tag answers exactly that kind's predicate. -/
theorem holds_iff_of_packed (own : Kind) {v : Immediate} {payload : BitVec 48}
    (hown : v.kind = own) (htag : own.ownTag ≠ 0#16)
    (h : v.encode = packed own.ownTag payload) (k : Kind) :
    k.holds v.encode = true ↔ k = v.kind := by
  rw [h, hown, Kind.holds_packed k htag, Kind.acceptsTag_ownTag htag]

theorem kind_ne_pointer (v : Immediate) : v.kind ≠ .pointer := by
  cases v <;> simp [kind]

/-- A word whose tag became all ones answers the pointer predicate, so no
immediate is faithful there. -/
theorem not_faithful_of_allOnes {v : Immediate} {payload : BitVec 48}
    (h : v.encode = packed (BitVec.allOnes 16) payload) :
    ¬ v.Faithful := by
  intro hv
  have hpointer : Kind.pointer.holds v.encode = true := by
    rw [h, Kind.holds_packed _ (by decide)]
    decide
  exact v.kind_ne_pointer ((hv.1 .pointer).mp hpointer).symm

theorem faithful_smallInt_iff (num : BitVec 32) :
    (smallInt num).Faithful ↔ (smallInt num).InRange := by
  have henc := toSmallInt_eq_packed num
  cases hmsb : num.msb with
  | true =>
      rw [hmsb] at henc
      have hneg := BitVec.toInt_neg_of_msb_true hmsb
      simp only [InRange, show ¬ 0 ≤ num.toInt by omega, iff_false]
      exact not_faithful_of_allOnes henc
  | false =>
      rw [hmsb] at henc
      simp only [InRange, BitVec.toInt_nonneg_of_msb_false hmsb, iff_true]
      exact ⟨holds_iff_of_packed .smallInt (v := smallInt num) rfl (by decide) henc,
        getSmallInt_toSmallInt num⟩

theorem faithful_fnew_iff (ty : BitVec 16) :
    (fnew ty).Faithful ↔ (fnew ty).InRange := by
  have henc := toFnew_eq_packed ty
  cases hmsb : ty.msb with
  | true =>
      rw [hmsb] at henc
      have hneg := BitVec.toInt_neg_of_msb_true hmsb
      simp only [InRange, show ¬ 0 ≤ ty.toInt by omega, iff_false]
      exact not_faithful_of_allOnes henc
  | false =>
      rw [hmsb] at henc
      simp only [InRange, BitVec.toInt_nonneg_of_msb_false hmsb, iff_true]
      exact ⟨holds_iff_of_packed .fnew (v := fnew ty) rfl (by decide) henc,
        getFnew_toFnew ty⟩

theorem faithful_type (ty : BitVec 16) : (type ty).Faithful :=
  ⟨holds_iff_of_packed .type (v := type ty) rfl (by decide) (toType_eq_packed ty),
    getType_toType ty⟩

theorem faithful_bool (value : Bool) : (bool value).Faithful :=
  ⟨holds_iff_of_packed .bool (v := bool value) rfl (by decide) (toBool_eq_packed value),
    getBool_toBool value⟩

theorem faithful_nil : nil.Faithful := by
  refine ⟨fun k => ?_, rfl⟩
  cases k <;> decide

/-- The builtin predicate is right for every address; the 32-bit mask of
{lit}`get_builtin` is what loses the longer ones. -/
theorem faithful_builtin_iff (fn : BitVec 48) :
    (builtin fn).Faithful ↔ (builtin fn).InRange := by
  have hholds := holds_iff_of_packed .builtin (v := builtin fn) rfl (by decide)
    (toBuiltin_eq_packed fn)
  have hread : (builtin fn).ReadBack (builtin fn).encode ↔
      (fn.setWidth 32).setWidth 64 = fn.setWidth 64 := by
    rw [← getBuiltin_toBuiltin fn]
    exact Iff.rfl
  rw [Faithful, and_iff_right hholds, hread, ← BitVec.toNat_inj]
  simp only [BitVec.toNat_setWidth, InRange]
  have := fn.isLt
  omega

/-- Exactly the payloads in range are encoded without loss or confusion. -/
theorem faithful_iff (v : Immediate) : v.Faithful ↔ v.InRange := by
  cases v with
  | smallInt num => exact faithful_smallInt_iff num
  | fnew ty => exact faithful_fnew_iff ty
  | type ty => exact iff_of_true (faithful_type ty) trivial
  | bool value => exact iff_of_true (faithful_bool value) trivial
  | nil => exact iff_of_true faithful_nil trivial
  | builtin fn => exact faithful_builtin_iff fn

/-! ## Words shared by different values -/

/-- The tag an immediate's word really carries. -/
def wireTag : Immediate → BitVec 16
  | smallInt num => if num.msb then BitVec.allOnes 16 else tagSmallInteger
  | fnew ty => if ty.msb then BitVec.allOnes 16 else tagFnew
  | type _ => tagType
  | bool _ => tagBool
  | nil => 0#16
  | builtin _ => tagBuiltin

/-- The payload below the tag. -/
def wirePayload : Immediate → BitVec 48
  | smallInt num => num.signExtend 48
  | fnew ty => ty.signExtend 48
  | type ty => ty.setWidth 48
  | bool value => if value then 1#48 else 0#48
  | nil => 0#48
  | builtin fn => fn

theorem encode_eq_packed (v : Immediate) : v.encode = packed v.wireTag v.wirePayload := by
  cases v with
  | smallInt num => exact toSmallInt_eq_packed num
  | fnew ty => exact toFnew_eq_packed ty
  | type ty => exact toType_eq_packed ty
  | bool value => exact toBool_eq_packed value
  | nil => decide
  | builtin fn => exact toBuiltin_eq_packed fn

/-- Two values have the same word exactly when both fields agree. -/
theorem encode_eq_iff_fields (v w : Immediate) :
    v.encode = w.encode ↔ v.wireTag = w.wireTag ∧ v.wirePayload = w.wirePayload := by
  rw [encode_eq_packed v, encode_eq_packed w, packed_inj]

/-- Sign extensions agree exactly when the numbers do. -/
theorem signExtend_eq_iff_toInt {n n' m : Nat} (x : BitVec n) (y : BitVec n')
    (hn : n ≤ m) (hn' : n' ≤ m) :
    x.signExtend m = y.signExtend m ↔ x.toInt = y.toInt := by
  rw [← BitVec.toInt_inj, BitVec.toInt_signExtend_of_le hn, BitVec.toInt_signExtend_of_le hn']

/-- A small integer and a function share a word exactly when both are the same
negative number. -/
theorem smallInt_fnew_fields_iff (num : BitVec 32) (ty : BitVec 16) :
    ((smallInt num).wireTag = (fnew ty).wireTag ∧
        (smallInt num).wirePayload = (fnew ty).wirePayload) ↔
      ty.toInt < 0 ∧ num = ty.signExtend 32 := by
  have hnum : num = ty.signExtend 32 ↔ num.toInt = ty.toInt := by
    rw [← BitVec.toInt_inj, BitVec.toInt_signExtend_of_le (by decide)]
  have htags : (smallInt num).wireTag = (fnew ty).wireTag ↔ num.toInt < 0 ∧ ty.toInt < 0 := by
    simp only [wireTag, BitVec.msb_eq_toInt]
    by_cases h : num.toInt < 0 <;> by_cases h' : ty.toInt < 0 <;> simp [h, h'] <;> decide
  rw [htags, hnum, wirePayload, wirePayload,
    signExtend_eq_iff_toInt num ty (by decide) (by decide)]
  constructor
  · rintro ⟨⟨_, hty⟩, heq⟩
    exact ⟨hty, heq⟩
  · rintro ⟨hty, heq⟩
    exact ⟨⟨by omega, hty⟩, heq⟩

/-- The tag of a type, boolean, nil or builtin is no other value's tag. -/
theorem kind_eq_of_wireTag_eq {v w : Immediate} (h : v.wireTag = w.wireTag)
    (hv : v.kind ≠ .smallInt) (hv' : v.kind ≠ .fnew) : v.kind = w.kind := by
  cases v <;> cases w <;> simp_all [kind, wireTag] <;> revert h <;>
    first | decide | (split <;> decide)

/-- Words of one kind determine the value. -/
theorem eq_of_encode_eq {v w : Immediate} (hkind : v.kind = w.kind)
    (h : v.encode = w.encode) : v = w := by
  have hpayload := ((encode_eq_iff_fields v w).mp h).2
  cases v <;> cases w <;> try cases hkind
  case smallInt.smallInt num num' =>
    rw [wirePayload, wirePayload, signExtend_eq_iff_toInt _ _ (by decide) (by decide),
      BitVec.toInt_inj] at hpayload
    rw [hpayload]
  case fnew.fnew ty ty' =>
    rw [wirePayload, wirePayload, signExtend_eq_iff_toInt _ _ (by decide) (by decide),
      BitVec.toInt_inj] at hpayload
    rw [hpayload]
  case type.type ty ty' =>
    have := congrArg (BitVec.setWidth 16) hpayload
    simp only [wirePayload, BitVec.setWidth_setWidth_of_le _ (by decide : 16 ≤ 48),
      BitVec.setWidth_eq] at this
    rw [this]
  case bool.bool value value' =>
    cases value <;> cases value' <;> first | rfl | (revert hpayload; decide)
  case nil.nil => rfl
  case builtin.builtin fn fn' => exact congrArg builtin hpayload

/-- Values of different kinds share a word only as one negative number. -/
theorem encode_eq_iff_of_kind_ne {v w : Immediate} (hkind : v.kind ≠ w.kind) :
    v.encode = w.encode ↔ v.SharedNegative w := by
  have hne : v.kind ≠ .smallInt → v.kind ≠ .fnew → v.encode ≠ w.encode := fun hv hv' h =>
    hkind (kind_eq_of_wireTag_eq ((encode_eq_iff_fields v w).mp h).1 hv hv')
  have hne' : w.kind ≠ .smallInt → w.kind ≠ .fnew → v.encode ≠ w.encode := fun hw hw' h =>
    hkind (kind_eq_of_wireTag_eq ((encode_eq_iff_fields w v).mp h.symm).1 hw hw').symm
  cases v <;> cases w <;> try exact absurd rfl hkind
  case smallInt.fnew num ty =>
    rw [encode_eq_iff_fields]
    exact smallInt_fnew_fields_iff num ty
  case fnew.smallInt ty num =>
    rw [eq_comm, encode_eq_iff_fields]
    exact smallInt_fnew_fields_iff num ty
  -- every other pair has a kind whose tag no other value carries
  all_goals first
    | (refine iff_of_false (hne ?_ ?_) id <;> simp [kind]; done)
    | (refine iff_of_false (hne' ?_ ?_) id <;> simp [kind])

theorem not_sharedNegative_of_kind_eq {v w : Immediate} (hkind : v.kind = w.kind) :
    ¬ v.SharedNegative w := by
  cases v <;> cases w <;> first | exact id | cases hkind

/-- Two values have one word exactly when they are equal or are one negative
number in both signed kinds. -/
theorem encode_eq_iff (v w : Immediate) :
    v.encode = w.encode ↔ v = w ∨ v.SharedNegative w := by
  by_cases hkind : v.kind = w.kind
  · rw [or_iff_left (not_sharedNegative_of_kind_eq hkind)]
    exact ⟨eq_of_encode_eq hkind, congrArg encode⟩
  · have hvw : v ≠ w := fun h => hkind (congrArg kind h)
    rw [encode_eq_iff_of_kind_ne hkind, or_iff_right hvw]

/-- Encoding is faithful exactly for the payloads in range, and two different
values are told apart exactly when they are not one negative number read as a
small integer and as a function. -/
theorem encode_faithful_iff_inRange (v w : Immediate) :
    (v.Faithful ↔ v.InRange) ∧ (v ≠ w → (v.encode ≠ w.encode ↔ ¬ v.SharedNegative w)) := by
  refine ⟨faithful_iff v, fun hvw => ?_⟩
  rw [ne_eq, encode_eq_iff, or_iff_right hvw]

/-- Minus one is not faithful as a small integer, its word is also that of the
function minus one, and a builtin at address {lit}`2 ^ 32` is read back as zero. -/
theorem negative_one_confused :
    ¬ (smallInt (-1)).Faithful ∧ (smallInt (-1)).encode = (fnew (-1)).encode ∧
      isPointer (smallInt (-1)).encode = true ∧
      getBuiltin (builtin 0x100000000#48).encode = 0#64 := by
  refine ⟨fun h => ?_, by decide, by decide, by decide⟩
  exact absurd h.1 (fun h => absurd (h .pointer) (by decide))

end Immediate

end ClojitCvm.Slot
