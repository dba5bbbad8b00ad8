import Mathlib.Data.BitVec

/-!
# Tagged machine words

A tagged word keeps a type tag in its high bits and a payload in the remaining
low bits.  This module is about such words at arbitrary tag and payload widths:
how a word is split into its two fields, and what becomes of the fields when a
payload is combined with a shifted tag by a bitwise or, the way C code builds
tagged values.

Main results:

- Theorems {lit}`tagOf_pack` and {lit}`payloadOf_pack`: both fields of a packed
  word are read back exactly.
- Theorem {lit}`shiftedTag_or_setWidth`: a zero-extended payload leaves the tag
  alone.
- Theorem {lit}`shiftedTag_or_signExtend`: a sign-extended payload leaves the tag
  alone exactly when it is not negative, and replaces it by ones otherwise.
-/

namespace TaggedWord

variable {t p n : Nat}

/-! ## Fields of a word -/

/-- The word with the given tag above the given payload. -/
def pack (tag : BitVec t) (payload : BitVec p) : BitVec (t + p) :=
  tag ++ payload

/-- The tag field, the highest {lit}`t` bits. -/
def tagOf (word : BitVec (t + p)) : BitVec t :=
  word.extractLsb' p t

/-- The payload field, the lowest {lit}`p` bits. -/
def payloadOf (word : BitVec (t + p)) : BitVec p :=
  word.setWidth p

@[simp]
theorem tagOf_pack (tag : BitVec t) (payload : BitVec p) :
    tagOf (pack tag payload) = tag :=
  BitVec.extractLsb'_append_eq_left

@[simp]
theorem payloadOf_pack (tag : BitVec t) (payload : BitVec p) :
    payloadOf (pack tag payload) = payload :=
  BitVec.setWidth_append_eq_right

/-- Packed words are equal exactly when both fields are. -/
theorem pack_inj {tag tag' : BitVec t} {payload payload' : BitVec p} :
    pack tag payload = pack tag' payload' ↔ tag = tag' ∧ payload = payload' := by
  constructor
  · intro h
    exact ⟨by simpa using congrArg tagOf h, by simpa using congrArg payloadOf h⟩
  · rintro ⟨rfl, rfl⟩
    rfl

/-- Masking with {lit}`m` ones keeps the lowest {lit}`m` bits and clears the rest. -/
theorem and_allOnes_setWidth {w m : Nat} (x : BitVec w) :
    x &&& (BitVec.allOnes m).setWidth w = (x.setWidth m).setWidth w := by
  ext i hi
  by_cases him : i < m <;> simp [him, hi]

/-- Masking with at least {lit}`n` ones does not change the lowest {lit}`n` bits. -/
theorem setWidth_and_allOnes {w m : Nat} (x : BitVec w) (hn : n ≤ m) :
    (x &&& (BitVec.allOnes m).setWidth w).setWidth n = x.setWidth n := by
  ext i hi
  have him : i < m := by omega
  by_cases hiw : i < w
  · simp [him, hiw]
  · simp [BitVec.getLsbD_of_ge x i (by omega)]

/-- Extending with the sign does not change the original bits. -/
theorem setWidth_signExtend {m : Nat} (x : BitVec n) (hn : n ≤ m) :
    (x.signExtend m).setWidth n = x := by
  ext i hi
  have him : i < m := by omega
  simp [BitVec.getElem_signExtend, hi, him]

/-! ## Tags combined with a bitwise or -/

/-- Shifting a tag into place packs it above a zero payload. -/
theorem shiftedTag_eq_pack (tag : BitVec t) :
    tag.setWidth (t + p) <<< p = pack tag 0#p := by
  have h := @BitVec.setWidth_append_eq_shiftLeft_setWidth_or t p (t + p) tag 0#p
  simpa [pack] using h.symm

/-- Bitwise or works on the two fields separately. -/
theorem shiftedTag_or_pack (tag high : BitVec t) (payload : BitVec p) :
    (tag.setWidth (t + p) <<< p) ||| pack high payload = pack (tag ||| high) payload := by
  rw [shiftedTag_eq_pack]
  simp [pack]

/-- A zero-extended narrow value is a payload under the zero tag. -/
theorem setWidth_eq_pack (x : BitVec n) (hn : n ≤ p) :
    x.setWidth (t + p) = pack 0#t (x.setWidth p) := by
  ext i hi
  simp only [pack, BitVec.getElem_setWidth, BitVec.getElem_append, BitVec.getElem_zero]
  split
  · rfl
  · exact BitVec.getLsbD_of_ge x i (by omega)

/-- A sign-extended narrow value is a payload under a tag made of its sign bit. -/
theorem signExtend_eq_pack (x : BitVec n) (hn : n ≤ p) :
    x.signExtend (t + p) =
      pack (if x.msb then BitVec.allOnes t else 0#t) (x.signExtend p) := by
  ext i hi
  simp only [pack, BitVec.getElem_signExtend, BitVec.getElem_append]
  by_cases hip : i < p
  · simp [hip]
  · have hin : ¬ i < n := by omega
    cases x.msb <;> simp [hip, hin]

/-- Combining a shifted tag with a zero-extended payload keeps the tag. -/
theorem shiftedTag_or_setWidth (tag : BitVec t) (x : BitVec n) (hn : n ≤ p) :
    (tag.setWidth (t + p) <<< p) ||| x.setWidth (t + p) = pack tag (x.setWidth p) := by
  rw [setWidth_eq_pack x hn, shiftedTag_or_pack, BitVec.or_zero]

/-- Combining a shifted tag with a sign-extended payload keeps the tag only for
a payload whose sign bit is clear; a negative payload turns every tag bit on. -/
theorem shiftedTag_or_signExtend (tag : BitVec t) (x : BitVec n) (hn : n ≤ p) :
    (tag.setWidth (t + p) <<< p) ||| x.signExtend (t + p) =
      pack (if x.msb then BitVec.allOnes t else tag) (x.signExtend p) := by
  rw [signExtend_eq_pack x hn, shiftedTag_or_pack]
  cases x.msb <;> simp

end TaggedWord
