import ClojitCvm.Machine.BumpHost
import ClojitCvm.Machine.Effects
import ClojitCvm.Slot.Immediate

/-!
# Doubles in slots

The pattern of a double is moved so that the tags of all other values stay free.  The
intended move turns the low bits of the patterns with a clear sign bit around; the mask
that the source computes is zero, so patterns are stored as they are.

Main results:

- Theorem {lit}`flipNonNegative_holds_iff`: the intended words are told apart from all
  other values.
- Theorem {lit}`holds_toDouble_iff`: the words of the source are, as long as the tag of
  the pattern is no pointer tag and no unused one.
- Theorem {lit}`VM.getDouble_toDouble_iff`: only the zero pattern is read back.
- Theorem {lit}`toDouble_not_faithful`: no double is faithful in a slot.
-/

namespace ClojitCvm

namespace Slot

/-! ## Patterns -/

/-- The patterns of doubles: with the exponent of all ones, only the infinities and the
canonical values that are no numbers. -/
def IsDoublePattern (bits : Double) : Prop :=
  bits.extractLsb' 52 11 = BitVec.allOnes 11 →
    bits.setWidth 52 = 0#52 ∨ bits.setWidth 52 = 0x8000000000000#52

instance (bits : Double) : Decidable (IsDoublePattern bits) :=
  inferInstanceAs (Decidable (_ → _))

/-- Behind the infinities comes the mantissa of the values that are no numbers. -/
theorem IsDoublePattern.mantissa_le {bits : Double} (h : IsDoublePattern bits)
    (hexponent : bits.toNat / 2 ^ 52 % 2 ^ 11 = 2 ^ 11 - 1) :
    bits.toNat % 2 ^ 52 ≤ 2 ^ 51 := by
  have hones : bits.extractLsb' 52 11 = BitVec.allOnes 11 := by
    apply BitVec.eq_of_toNat_eq
    rw [BitVec.extractLsb'_toNat, Nat.shiftRight_eq_div_pow, BitVec.toNat_allOnes, hexponent]
  have hmantissa : (bits.setWidth 52).toNat = bits.toNat % 2 ^ 52 := BitVec.toNat_setWidth ..
  rcases h hones with hzero | hquiet
  · rw [hzero, BitVec.toNat_ofNat] at hmantissa
    omega
  · rw [hquiet, BitVec.toNat_ofNat] at hmantissa
    omega

theorem isDouble_iff (slot : Word) :
    isDouble slot = true ↔ 7 * 2 ^ 48 ≤ slot.toNat ∧ slot.toNat < 0xFFF9 * 2 ^ 48 := by
  have htag := toNat_tag slot
  have hmin : tagDoubleMin.toNat = 7 := by decide
  have hmax : tagDoubleMax.toNat = 0xFFF8 := by decide
  simp only [isDouble, Bool.and_eq_true, decide_eq_true_eq, BitVec.le_def]
  omega

/-- A word answers the predicate of doubles and no other exactly when its tag is in the
range of doubles. -/
theorem holds_iff_double (slot : Word) :
    (∀ kind : Kind, kind.holds slot = true ↔ kind = .double) ↔ isDouble slot = true := by
  constructor
  · intro h
    exact (h .double).mpr rfl
  · intro h kind
    have hrange := (isDouble_iff slot).mp h
    have htag := toNat_tag slot
    have hne (t : BitVec 16) (ht : t.toNat < 7 ∨ 0xFFF8 < t.toNat) : (tag slot == t) = false := by
      rw [beq_eq_false_iff_ne]
      intro heq
      rw [heq] at htag
      omega
    have hnil : isNil slot = false := by
      rw [isNil, beq_eq_false_iff_ne]
      rintro rfl
      simp at hrange
    cases kind <;>
      simp [Kind.holds, h, hnil, isSmallInt, isFnew, isType, isBool, isBuiltin, isPointer,
        hne tagSmallInteger (by decide), hne tagFnew (by decide), hne tagType (by decide),
        hne tagBool (by decide), hne tagBuiltin (by decide), hne tagPointerLo (by decide),
        hne tagPointerHi (by decide)]

theorem isDouble_eq_false_of_isSmallInt {slot : Word} (h : isSmallInt slot = true) :
    isDouble slot = false := by
  rw [isSmallInt, beq_iff_eq] at h
  rw [isDouble, h]
  decide

theorem isSmallInt_eq_false_of_isDouble {slot : Word} (h : isDouble slot = true) :
    isSmallInt slot = false := by
  cases hint : isSmallInt slot with
  | false => rfl
  | true =>
      rw [isDouble_eq_false_of_isSmallInt hint] at h
      cases h

/-! ## The intended encoding -/

/-- All bits but the sign bit. -/
def lowBits : Word :=
  0x7FFFFFFFFFFFFFFF#64

/-- Turn the low bits around if the sign bit is clear. -/
def flipNonNegative (slot : Word) : Word :=
  slot ^^^ (if slot.msb then 0#64 else lowBits)

theorem flipNonNegative_of_msb {slot : Word} (h : slot.msb = true) :
    flipNonNegative slot = slot := by
  simp [flipNonNegative, h]

theorem flipNonNegative_of_not_msb {slot : Word} (h : slot.msb = false) :
    flipNonNegative slot = ((~~~slot).setWidth 63).setWidth 64 := by
  rw [flipNonNegative, if_neg (by simp [h])]
  have hsign : slot.getLsbD 63 = false := by
    simpa [BitVec.msb_eq_getLsbD_last] using h
  have hlow (i : Nat) (hi : i < 64) : lowBits[i] = decide (i < 63) := by
    change ((BitVec.allOnes 63).setWidth 64)[i] = _
    rw [BitVec.getElem_setWidth, BitVec.getLsbD_allOnes]
  ext i hi
  rw [BitVec.getElem_xor, hlow]
  by_cases hlast : i = 63
  · subst hlast
    simpa using hsign
  · have hlt : i < 63 := by omega
    simp [hlt, BitVec.getLsbD_eq_getElem hi]

theorem toNat_flipNonNegative_of_not_msb {slot : Word} (h : slot.msb = false) :
    (flipNonNegative slot).toNat = 2 ^ 63 - 1 - slot.toNat := by
  have hlt : 2 * slot.toNat < 2 ^ 64 := BitVec.msb_eq_false_iff_two_mul_lt.mp h
  rw [flipNonNegative_of_not_msb h, BitVec.toNat_setWidth, BitVec.toNat_setWidth,
    BitVec.toNat_not]
  omega

/-- The sign bit stays, so the low bits are turned back. -/
theorem flipNonNegative_involutive : Function.Involutive flipNonNegative := by
  intro slot
  cases h : slot.msb with
  | true => rw [flipNonNegative_of_msb h, flipNonNegative_of_msb h]
  | false =>
      have hlt : 2 * slot.toNat < 2 ^ 64 := BitVec.msb_eq_false_iff_two_mul_lt.mp h
      have hflip := toNat_flipNonNegative_of_not_msb h
      have hmsb : (flipNonNegative slot).msb = false :=
        BitVec.msb_eq_false_iff_two_mul_lt.mpr (by omega)
      apply BitVec.eq_of_toNat_eq
      rw [toNat_flipNonNegative_of_not_msb hmsb, hflip]
      omega

/-- The intended words are doubles and nothing else. -/
theorem flipNonNegative_holds_iff {bits : Double} (h : IsDoublePattern bits) (kind : Kind) :
    kind.holds (flipNonNegative bits) = true ↔ kind = .double := by
  refine (holds_iff_double _).mpr ((isDouble_iff _).mpr ?_) kind
  have hbits := bits.isLt
  have hmantissa := h.mantissa_le
  cases hmsb : bits.msb with
  | true =>
      have hge := BitVec.msb_eq_true_iff_two_mul_ge.mp hmsb
      rw [flipNonNegative_of_msb hmsb]
      omega
  | false =>
      have hlt := BitVec.msb_eq_false_iff_two_mul_lt.mp hmsb
      rw [toNat_flipNonNegative_of_not_msb hmsb]
      omega

/-! ## The encoding of the source -/

theorem toDouble_eq (bits : Double) : toDouble bits = bits :=
  invertNonNegative_eq bits

/-- The source tells a double apart only if its tag is above those of pointers. -/
theorem holds_toDouble_iff {bits : Double} (h : IsDoublePattern bits) :
    (∀ kind : Kind, kind.holds (toDouble bits) = true ↔ kind = .double) ↔
      7 * 2 ^ 48 ≤ bits.toNat := by
  have hbits := bits.isLt
  have hmantissa := h.mantissa_le
  rw [toDouble_eq, holds_iff_double, isDouble_iff]
  omega

/-- The source moves a word as intended only if there is nothing to turn around. -/
theorem invertNonNegative_eq_flip_iff (slot : Word) :
    invertNonNegative slot = flipNonNegative slot ↔ slot.msb = true := by
  rw [invertNonNegative_eq]
  cases hmsb : slot.msb with
  | true => simp [flipNonNegative_of_msb hmsb]
  | false =>
      have hlt := BitVec.msb_eq_false_iff_two_mul_lt.mp hmsb
      have hflip := toNat_flipNonNegative_of_not_msb hmsb
      refine iff_of_false (fun heq => ?_) (by decide)
      rw [← heq] at hflip
      omega

theorem invertNonNegative_involutive : Function.Involutive invertNonNegative := by
  intro slot
  rw [invertNonNegative_eq, invertNonNegative_eq]

end Slot

open Slot

/-- Reading gives back the pattern that is stored only for the zero pattern, which is
not read as a double. -/
theorem VM.getDouble_toDouble_iff {host : Host} {vm : VM} (hfits : host.Fits vm.blocks)
    (bits : Double) :
    (∃ vm', vm.getDouble host (toDouble bits) = .ok (vm', bits)) ↔ bits = 0#64 := by
  rw [toDouble_eq]
  cases hdouble : isDouble bits with
  | true =>
      refine iff_of_false ?_ ?_
      · rintro ⟨vm', hget⟩
        exact getDouble_ne_ok hfits hdouble hget
      · rintro rfl
        exact absurd hdouble (by decide)
  | false =>
      rw [getDouble, if_neg (by simp [hdouble])]
      constructor
      · rintro ⟨vm', hget⟩
        cases hget
        rfl
      · rintro rfl
        exact ⟨_, rfl⟩

/-- What it means that a slot holds a double. -/
structure FaithfulDouble (host : Host) (vm : VM) (bits : Double) : Prop where
  holds : ∀ kind : Kind, kind.holds (toDouble bits) = true ↔ kind = .double
  readBack : ∃ vm', vm.getDouble host (toDouble bits) = .ok (vm', bits)
  involution : invertNonNegative (invertNonNegative (toDouble bits)) = toDouble bits
  flips : invertNonNegative (toDouble bits) = flipNonNegative (toDouble bits)

/-- No double is faithful in a slot, in any state.  A double is told apart from all other
values when its tag is above those of pointers, it is read back only as zero, and it is
moved as intended only when that leaves it where it is. -/
theorem toDouble_not_faithful {host : Host} {sec : Sections} {vm : VM}
    (h : Reachable host sec vm) {bits : Double} (hbits : IsDoublePattern bits) :
    ¬ FaithfulDouble host vm bits ∧
      ((∀ kind : Kind, kind.holds (toDouble bits) = true ↔ kind = .double) ↔
        7 * 2 ^ 48 ≤ bits.toNat) ∧
      ((∃ vm', vm.getDouble host (toDouble bits) = .ok (vm', bits)) ↔ bits = 0#64) ∧
      invertNonNegative (invertNonNegative (toDouble bits)) = toDouble bits ∧
      (invertNonNegative (toDouble bits) = flipNonNegative (toDouble bits) ↔
        bits.msb = true) := by
  have hholds := holds_toDouble_iff hbits
  have hread := VM.getDouble_toDouble_iff h.wellFormed.fits bits
  refine ⟨fun hfaithful => ?_, hholds, hread, invertNonNegative_involutive _, ?_⟩
  · have hzero := hread.mp hfaithful.readBack
    have hge := hholds.mp hfaithful.holds
    rw [hzero] at hge
    exact absurd hge (by decide)
  · rw [invertNonNegative_eq_flip_iff, toDouble_eq]

/-- The pattern of 1.0. -/
def onePattern : Double :=
  0x3FF0000000000000#64

/-- In a new machine 1.0 is stored as a double and cannot be read back. -/
theorem one_not_faithful :
    ¬ FaithfulDouble nestedHost (vmInit nestedHost) onePattern ∧
      (∀ kind : Kind, kind.holds (toDouble onePattern) = true ↔ kind = .double) ∧
      ¬ ∃ vm', (vmInit nestedHost).getDouble nestedHost (toDouble onePattern) =
        .ok (vm', onePattern) := by
  have hparts := toDouble_not_faithful (.init : Reachable nestedHost (loadfile nestedHost) _)
    (by decide : IsDoublePattern onePattern)
  refine ⟨hparts.1, hparts.2.1.mpr (by decide), fun hread => ?_⟩
  exact absurd (hparts.2.2.1.mp hread) (by decide)

/-- The word of 0.0 is nil, and that of 1.0 is taken for an address that nothing is at. -/
theorem zero_and_one_not_faithful :
    ¬ FaithfulDouble nestedHost (vmInit nestedHost) 0#64 ∧
      isNil (toDouble 0#64) = true ∧
      ¬ FaithfulDouble nestedHost (vmInit nestedHost) onePattern ∧
      (vmInit nestedHost).getDouble nestedHost (toDouble onePattern) =
        .error (.fault .wildRead) := by
  have hfault : (vmInit nestedHost).getDouble nestedHost (toDouble onePattern) =
      .error (.fault .wildRead) := rfl
  refine ⟨fun h => ?_, by decide, fun h => ?_, hfault⟩
  · exact absurd ((h.holds .double).mpr rfl) (by decide)
  · rcases h.readBack with ⟨vm', hget⟩
    rw [hfault] at hget
    cases hget

end ClojitCvm
