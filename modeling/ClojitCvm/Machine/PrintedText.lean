import ClojitCvm.Machine.BumpHost
import ClojitCvm.Slot.Immediate

/-!
# The text of immediate values

What {lit}`println` prints for the values that instructions build without an object.
The first character of the text tells the kind of the value and the digits behind it
give the payload, except that {lit}`println_slot` has no branch for booleans.

Main results:

- Theorem {lit}`printlnSlot_encode`: the text of every immediate.
- Theorem {lit}`distinguishes_iff`: the texts of two values are not empty and tell them
  apart exactly when neither value is a boolean.
-/

namespace ClojitCvm

open Slot

/-! ## Decimal numbers -/

/-- The characters of a number: its digits, behind a sign if it is negative. -/
theorem toList_formatD (x : BitVec 32) :
    (formatD x).toList =
      if 0 ≤ x.toInt then Nat.toDigits 10 x.toInt.toNat
      else '-' :: Nat.toDigits 10 (-x.toInt).toNat := by
  rw [formatD, Int.toString_eq_repr, Int.repr_eq_if]
  split
  · exact Nat.toList_repr
  · rw [String.toList_append, Nat.toList_repr]
    rfl

theorem toDigits_inj {n m : Nat} (h : Nat.toDigits 10 n = Nat.toDigits 10 m) : n = m := by
  rw [← Nat.ofDigitChars_ten_toDigits (n := n), h, Nat.ofDigitChars_ten_toDigits]

/-- The first character of a number is a digit or the sign. -/
theorem exists_cons_formatD (x : BitVec 32) :
    ∃ c cs, (formatD x).toList = c :: cs ∧ (c.isDigit ∨ c = '-') := by
  rw [toList_formatD]
  split
  · cases hdigits : Nat.toDigits 10 x.toInt.toNat with
    | nil => exact absurd hdigits Nat.toDigits_ne_nil
    | cons c cs =>
        refine ⟨c, cs, rfl, Or.inl ?_⟩
        exact Nat.isDigit_of_mem_toDigits (n := x.toInt.toNat) (by decide) (by decide)
          (hdigits ▸ List.mem_cons_self)
  · exact ⟨_, _, rfl, Or.inr rfl⟩

/-- No digit is the sign. -/
theorem toDigits_ne_sign (n : Nat) (cs : List Char) : Nat.toDigits 10 n ≠ '-' :: cs := by
  intro h
  have hdigit : '-'.isDigit = true :=
    Nat.isDigit_of_mem_toDigits (n := n) (by decide) (by decide) (h ▸ List.mem_cons_self)
  exact absurd hdigit (by decide)

/-- The format {lit}`%d` tells all numbers apart. -/
theorem formatD_injective : Function.Injective formatD := by
  intro x y h
  have hlist := congrArg String.toList h
  rw [toList_formatD, toList_formatD] at hlist
  apply BitVec.eq_of_toInt_eq
  split at hlist <;> split at hlist
  · have := toDigits_inj hlist
    omega
  · exact absurd hlist (toDigits_ne_sign _ _)
  · exact absurd hlist.symm (toDigits_ne_sign _ _)
  · have := toDigits_inj (List.cons_inj_right _ |>.mp hlist)
    omega

/-! ## The texts of immediate values -/

namespace Slot.Immediate

/-- The text {lit}`println` prints for an immediate. -/
def printlnText : Immediate → String
  | smallInt num => formatD num
  | fnew ty => "fn" ++ formatD (ty.signExtend 32)
  | type ty => "t" ++ formatD (ty.setWidth 32)
  | bool _ => ""
  | nil => "nil"
  | builtin fn => "bfn" ++ formatD (fn.setWidth 32)

end Slot.Immediate

/-- The tests of {lit}`println_slot` find the kind of a value that is encoded without
loss. -/
theorem printlnSlot_encode (host : Host) (vm : VM) {v : Immediate} (hv : v.InRange) :
    printlnSlot host vm v.encode = .ok v.printlnText := by
  rcases (Immediate.faithful_iff v).mpr hv with ⟨hkind, hread⟩
  have hanswer (k : Kind) : k.holds v.encode = decide (k = v.kind) := by
    rw [Bool.eq_iff_iff, hkind k, decide_eq_true_iff]
  have hsmallInt : isSmallInt v.encode = _ := hanswer .smallInt
  have hnil : isNil v.encode = _ := hanswer .nil
  have hfnew : isFnew v.encode = _ := hanswer .fnew
  have hbuiltin : isBuiltin v.encode = _ := hanswer .builtin
  have htype : isType v.encode = _ := hanswer .type
  have hpointer : isPointer v.encode = _ := hanswer .pointer
  have hdouble : isDouble v.encode = _ := hanswer .double
  unfold printlnSlot immediateText formatPointer
  rw [hsmallInt, hnil, hfnew, hbuiltin, htype, hpointer, hdouble]
  cases v with
  | smallInt num =>
      change Except.ok (formatD (getSmallInt (Immediate.smallInt num).encode)) = _
      rw [show getSmallInt (Immediate.smallInt num).encode = num from hread]
      rfl
  | fnew ty =>
      change Except.ok ("fn" ++ formatD ((getFnew (Immediate.fnew ty).encode).signExtend 32)) = _
      rw [show getFnew (Immediate.fnew ty).encode = ty from hread]
      rfl
  | type ty =>
      change Except.ok ("t" ++ formatD ((getType (Immediate.type ty).encode).setWidth 32)) = _
      rw [show getType (Immediate.type ty).encode = ty from hread]
      rfl
  | bool value => rfl
  | nil => rfl
  | builtin fn =>
      change Except.ok
        ("bfn" ++ formatD ((getBuiltin (Immediate.builtin fn).encode).setWidth 32)) = _
      rw [show getBuiltin (Immediate.builtin fn).encode = fn.setWidth 64 from hread,
        BitVec.setWidth_setWidth_of_le _ (by decide)]
      rfl

/-- The kind of value whose text starts with the character. -/
def leadKind (c : Char) : Kind :=
  if c = 'f' then .fnew
  else if c = 't' then .type
  else if c = 'n' then .nil
  else if c = 'b' then .builtin
  else .smallInt

/-- A number is the text of a small integer. -/
theorem leadKind_of_digit {c : Char} (h : c.isDigit ∨ c = '-') : leadKind c = .smallInt := by
  have hne {letter : Char} (hletter : letter.isDigit = false ∧ letter ≠ '-') : c ≠ letter := by
    rintro rfl
    rcases h with hdigit | hsign
    · rw [hletter.1] at hdigit
      exact absurd hdigit (by decide)
    · exact hletter.2 hsign
  rw [leadKind, if_neg (hne (by decide)), if_neg (hne (by decide)), if_neg (hne (by decide)),
    if_neg (hne (by decide))]

/-- The first character of a text tells the kind, unless the value is a boolean. -/
theorem leadKind_printlnText {v : Immediate} (hv : v.kind ≠ .bool) :
    ∃ c cs, v.printlnText.toList = c :: cs ∧ leadKind c = v.kind := by
  cases v with
  | smallInt num =>
      rcases exists_cons_formatD num with ⟨c, cs, hlist, hdigit⟩
      exact ⟨c, cs, hlist, leadKind_of_digit hdigit⟩
  | fnew ty => exact ⟨_, _, by rw [Immediate.printlnText, String.toList_append]; rfl, rfl⟩
  | type ty => exact ⟨_, _, by rw [Immediate.printlnText, String.toList_append]; rfl, rfl⟩
  | bool value => exact absurd rfl hv
  | nil => exact ⟨_, _, by rw [Immediate.printlnText]; rfl, rfl⟩
  | builtin fn => exact ⟨_, _, by rw [Immediate.printlnText, String.toList_append]; rfl, rfl⟩

/-- Two values of one kind have different texts. -/
theorem eq_of_printlnText_eq {v w : Immediate} (hv : v.InRange) (hw : w.InRange)
    (hkind : v.kind = w.kind) (hbool : v.kind ≠ .bool)
    (h : v.printlnText = w.printlnText) : v = w := by
  cases v <;> cases w <;> try cases hkind
  case smallInt.smallInt num num' => rw [formatD_injective h]
  case fnew.fnew ty ty' =>
    have hnum := formatD_injective ((String.append_right_inj _).mp h)
    have hlow := congrArg (BitVec.setWidth 16) hnum
    rw [TaggedWord.setWidth_signExtend _ (by decide),
      TaggedWord.setWidth_signExtend _ (by decide)] at hlow
    rw [hlow]
  case type.type ty ty' =>
    have hnum := formatD_injective ((String.append_right_inj _).mp h)
    have hlow := congrArg (BitVec.setWidth 16) hnum
    rw [BitVec.setWidth_setWidth_of_le _ (by decide), BitVec.setWidth_setWidth_of_le _ (by decide),
      BitVec.setWidth_eq, BitVec.setWidth_eq] at hlow
    rw [hlow]
  case bool.bool => exact absurd rfl hbool
  case nil.nil => rfl
  case builtin.builtin fn fn' =>
    have hnum := formatD_injective ((String.append_right_inj _).mp h)
    have hlow := congrArg BitVec.toNat hnum
    have hfn : fn.toNat < 2 ^ 32 := hv
    have hfn' : fn'.toNat < 2 ^ 32 := hw
    rw [BitVec.toNat_setWidth, BitVec.toNat_setWidth, Nat.mod_eq_of_lt hfn,
      Nat.mod_eq_of_lt hfn'] at hlow
    rw [BitVec.eq_of_toNat_eq hlow]

/-- {lit}`println` prints something for each of the two values, and not the same unless
they are the same. -/
def Distinguishes (host : Host) (vm : VM) (v w : Immediate) : Prop :=
  ∃ text text', printlnSlot host vm v.encode = .ok text ∧
    printlnSlot host vm w.encode = .ok text' ∧ text ≠ "" ∧ text' ≠ "" ∧
    (text = text' → v.encode = w.encode)

/-- Only booleans have no text of their own. -/
theorem distinguishes_iff (host : Host) (vm : VM) {v w : Immediate} (hv : v.InRange)
    (hw : w.InRange) : Distinguishes host vm v w ↔ v.kind ≠ .bool ∧ w.kind ≠ .bool := by
  have hempty {u : Immediate} (hu : u.kind = .bool) : u.printlnText = "" := by
    cases u <;> first | rfl | cases hu
  constructor
  · rintro ⟨text, text', hprint, hprint', hne, hne', _⟩
    rw [printlnSlot_encode host vm hv] at hprint
    rw [printlnSlot_encode host vm hw] at hprint'
    cases hprint
    cases hprint'
    exact ⟨fun hbool => hne (hempty hbool), fun hbool => hne' (hempty hbool)⟩
  · rintro ⟨hbool, hbool'⟩
    rcases leadKind_printlnText hbool with ⟨c, cs, hlist, hlead⟩
    rcases leadKind_printlnText hbool' with ⟨c', cs', hlist', hlead'⟩
    refine ⟨v.printlnText, w.printlnText, printlnSlot_encode host vm hv,
      printlnSlot_encode host vm hw, ?_, ?_, ?_⟩
    · intro hnone
      rw [hnone] at hlist
      cases hlist
    · intro hnone
      rw [hnone] at hlist'
      cases hlist'
    · intro htext
      rw [htext, hlist'] at hlist
      cases hlist
      rw [eq_of_printlnText_eq hv hw (hlead.symm.trans hlead') hbool htext]

/-- The number 5 and the function at address 5. -/
theorem five_distinguished :
    Distinguishes nestedHost (vmInit nestedHost) (.smallInt 5) (.fnew 5) :=
  (distinguishes_iff nestedHost (vmInit nestedHost) (v := .smallInt 5) (w := .fnew 5)
    (show 0 ≤ (5#32).toInt by decide) (show 0 ≤ (5#16).toInt by decide)).mpr (by decide)

/-- Nothing is printed for true, and nothing for false. -/
theorem booleans_not_distinguished :
    (Immediate.bool true).InRange ∧ (Immediate.bool false).InRange ∧
      ¬ Distinguishes nestedHost (vmInit nestedHost) (.bool true) (.bool false) := by
  refine ⟨trivial, trivial, ?_⟩
  rintro ⟨text, _, hprint, _, hne, _⟩
  cases hprint
  exact hne rfl

end ClojitCvm
