import Mathlib.Data.BitVec
import Mathlib.Data.Nat.Bitwise
import Mathlib.Tactic.Common

/-!
# Byte-addressed memory

Memory is a total function from addresses to bytes.  Words of any number of bytes
are loaded in little-endian or big-endian order and stored in little-endian order,
a range can be filled with one byte, and a list of bytes can be found at an
address.

Main results:

- Theorems {lit}`loadLE_storeLE_same` and {lit}`loadLE_storeLE_of_disjoint`: a load
  sees the last store to its bytes and no other.
- Theorem {lit}`loadBE_beBytes`: the big-endian encoding of a number is loaded back.
- Theorems {lit}`testBit_loadLE` and {lit}`testBit_loadBE`: the bits of a loaded word,
  byte by byte.
-/

namespace ByteMemory

abbrev Byte := BitVec 8

/-- The contents of every address. -/
abbrev Memory := Nat → Byte

variable {mem mem' : Memory} {a b n m v : Nat}

/-! ## Loads and stores -/

/-- The little-endian number in the {lit}`n` bytes at {lit}`a`. -/
def loadLE (mem : Memory) (a : Nat) : Nat → Nat
  | 0 => 0
  | n + 1 => (mem a).toNat + 256 * loadLE mem (a + 1) n

/-- The big-endian number in the {lit}`n` bytes at {lit}`a`. -/
def loadBE (mem : Memory) (a : Nat) : Nat → Nat
  | 0 => 0
  | n + 1 => 256 ^ n * (mem a).toNat + loadBE mem (a + 1) n

/-- Store the low {lit}`n` bytes of a number in little-endian order. -/
def storeLE (mem : Memory) (a n v : Nat) : Memory := fun x =>
  if a ≤ x ∧ x < a + n then .ofNat 8 (v / 256 ^ (x - a)) else mem x

/-- Set the {lit}`n` bytes at {lit}`a` to one value. -/
def fill (mem : Memory) (a n : Nat) (byte : Byte) : Memory := fun x =>
  if a ≤ x ∧ x < a + n then byte else mem x

/-- A load depends only on the bytes it reads. -/
theorem loadLE_congr (h : ∀ i < n, mem (a + i) = mem' (b + i)) :
    loadLE mem a n = loadLE mem' b n := by
  induction n generalizing a b with
  | zero => rfl
  | succ n ih =>
      have hhead := h 0 (by omega)
      have htail : loadLE mem (a + 1) n = loadLE mem' (b + 1) n := by
        apply ih
        intro i hi
        have := h (i + 1) (by omega)
        rwa [← Nat.add_assoc, ← Nat.add_assoc, Nat.add_right_comm a i 1,
          Nat.add_right_comm b i 1] at this
      simp only [loadLE, htail]
      rw [Nat.add_zero, Nat.add_zero] at hhead
      rw [hhead]

theorem loadBE_congr (h : ∀ x, a ≤ x → x < a + n → mem x = mem' x) :
    loadBE mem a n = loadBE mem' a n := by
  induction n generalizing a with
  | zero => rfl
  | succ n ih =>
      have htail : loadBE mem (a + 1) n = loadBE mem' (a + 1) n :=
        ih fun x hle hlt => h x (by omega) (by omega)
      rw [loadBE, loadBE, htail, h a (Nat.le_refl a) (by omega)]

theorem loadLE_lt (mem : Memory) (a n : Nat) : loadLE mem a n < 256 ^ n := by
  induction n generalizing a with
  | zero => simp [loadLE]
  | succ n ih =>
      have hbyte : (mem a).toNat < 256 := (mem a).isLt
      have htail := ih (a + 1)
      simp only [loadLE, Nat.pow_succ]
      omega

theorem loadBE_lt (mem : Memory) (a n : Nat) : loadBE mem a n < 256 ^ n := by
  induction n generalizing a with
  | zero => simp [loadBE]
  | succ n ih =>
      have hbyte : (mem a).toNat + 1 ≤ 256 := (mem a).isLt
      have htail := ih (a + 1)
      have hmul := Nat.mul_le_mul_left (256 ^ n) hbyte
      simp only [loadBE, Nat.pow_succ]
      rw [Nat.mul_add] at hmul
      omega

/-- Bytes that are the digits of a number load as the number. -/
theorem loadLE_of_digits (h : ∀ i < n, mem (a + i) = .ofNat 8 (v / 256 ^ i)) :
    loadLE mem a n = v % 256 ^ n := by
  induction n generalizing a v with
  | zero => simp [loadLE, Nat.mod_one]
  | succ n ih =>
      have hhead : mem a = .ofNat 8 v := by simpa using h 0 (by omega)
      have htail : loadLE mem (a + 1) n = v / 256 % 256 ^ n := by
        apply ih
        intro i hi
        have hdigit := h (i + 1) (by omega)
        rw [Nat.pow_succ', ← Nat.div_div_eq_div_mul] at hdigit
        rw [Nat.add_assoc, Nat.add_comm 1 i, hdigit]
      rw [loadLE, hhead, htail, Nat.pow_succ', Nat.mod_mul]
      simp

/-- Loading the bytes just stored gives the stored number. -/
theorem loadLE_storeLE_same (mem : Memory) (a n v : Nat) :
    loadLE (storeLE mem a n v) a n = v % 256 ^ n := by
  apply loadLE_of_digits
  intro i hi
  simp [storeLE, hi]

/-- A store leaves every byte outside its range alone. -/
theorem storeLE_outside {x : Nat} (h : x < a ∨ a + n ≤ x) : storeLE mem a n v x = mem x :=
  if_neg fun hx => by omega

theorem fill_outside {x : Nat} {byte : Byte} (h : x < a ∨ a + n ≤ x) :
    fill mem a n byte x = mem x :=
  if_neg fun hx => by omega

/-- Loads of ranges apart from a store do not see it. -/
theorem loadLE_storeLE_of_disjoint (h : b + m ≤ a ∨ a + n ≤ b) :
    loadLE (storeLE mem a n v) b m = loadLE mem b m := by
  apply loadLE_congr
  intro i hi
  exact storeLE_outside (by omega)

/-- Loads of ranges apart from a fill do not see it. -/
theorem loadLE_fill_of_disjoint {byte : Byte} (h : b + m ≤ a ∨ a + n ≤ b) :
    loadLE (fill mem a n byte) b m = loadLE mem b m := by
  apply loadLE_congr
  intro i hi
  exact fill_outside (by omega)

/-- Loads inside a range filled with zero give zero. -/
theorem loadLE_fill_zero (h : a ≤ b ∧ b + m ≤ a + n) :
    loadLE (fill mem a n 0#8) b m = 0 := by
  have hdigits : loadLE (fill mem a n 0#8) b m = 0 % 256 ^ m := by
    apply loadLE_of_digits
    intro i hi
    rw [fill, if_pos (by omega), Nat.zero_div]
  rw [hdigits, Nat.zero_mod]

/-! ## Bits of a loaded word -/

/-- Bit {lit}`i` of a little-endian word is in byte {lit}`i / 8`. -/
theorem testBit_loadLE {i : Nat} (hi : i < 8 * n) :
    (loadLE mem a n).testBit i = (mem (a + i / 8)).getLsbD (i % 8) := by
  induction n generalizing a i with
  | zero => omega
  | succ n ih =>
      have hbyte : (mem a).toNat < 2 ^ 8 := (mem a).isLt
      rw [loadLE, Nat.add_comm, show (256 : Nat) = 2 ^ 8 from rfl,
        Nat.testBit_two_pow_mul_add _ hbyte]
      by_cases hlow : i < 8
      · rw [if_pos hlow, Nat.div_eq_of_lt hlow, Nat.mod_eq_of_lt hlow, Nat.add_zero]
        rfl
      · rw [if_neg hlow, ih (by omega)]
        have hdiv : a + 1 + (i - 8) / 8 = a + i / 8 := by omega
        have hmod : (i - 8) % 8 = i % 8 := by omega
        rw [hdiv, hmod]

/-- Bit {lit}`i` of a big-endian word is in byte {lit}`i / 8` from the end. -/
theorem testBit_loadBE {i : Nat} (hi : i < 8 * n) :
    (loadBE mem a n).testBit i = (mem (a + (n - 1 - i / 8))).getLsbD (i % 8) := by
  induction n generalizing a with
  | zero => omega
  | succ n ih =>
      have hrest : loadBE mem (a + 1) n < 2 ^ (8 * n) := by
        rw [Nat.pow_mul]
        exact loadBE_lt mem (a + 1) n
      rw [loadBE, show (256 : Nat) = 2 ^ 8 from rfl, ← Nat.pow_mul,
        Nat.testBit_two_pow_mul_add _ hrest]
      by_cases hlow : i < 8 * n
      · rw [if_pos hlow, ih hlow]
        have hindex : a + 1 + (n - 1 - i / 8) = a + (n + 1 - 1 - i / 8) := by omega
        rw [hindex]
      · have hindex : a + (n + 1 - 1 - i / 8) = a := by omega
        have hmod : i - 8 * n = i % 8 := by omega
        rw [if_neg hlow, hindex, hmod]
        rfl

/-! ## Lists of bytes in memory -/

/-- The bytes are found at address {lit}`a`. -/
def HasBytes (mem : Memory) (a : Nat) (bytes : List Byte) : Prop :=
  ∀ (i : Nat) (hi : i < bytes.length), mem (a + i) = bytes[i]

theorem hasBytes_nil : HasBytes mem a [] := by
  intro i hi
  exact absurd hi (by simp)

theorem hasBytes_cons {byte : Byte} {bytes : List Byte} :
    HasBytes mem a (byte :: bytes) ↔ mem a = byte ∧ HasBytes mem (a + 1) bytes := by
  constructor
  · intro h
    refine ⟨h 0 (by simp), fun i hi => ?_⟩
    have := h (i + 1) (by simpa using hi)
    rwa [show a + (i + 1) = a + 1 + i by omega] at this
  · rintro ⟨hhead, htail⟩ i hi
    cases i with
    | zero => exact hhead
    | succ i =>
        have := htail i (by simpa using hi)
        rwa [show a + 1 + i = a + (i + 1) by omega] at this

/-- A concatenation is found as its two halves one behind the other. -/
theorem hasBytes_append {front back : List Byte} :
    HasBytes mem a (front ++ back) ↔
      HasBytes mem a front ∧ HasBytes mem (a + front.length) back := by
  induction front generalizing a with
  | nil => simp [hasBytes_nil]
  | cons byte front ih =>
      rw [List.cons_append, hasBytes_cons, hasBytes_cons, ih, and_assoc, List.length_cons,
        show a + 1 + front.length = a + (front.length + 1) by omega]

/-- In a list of encodings of one length every element is found at its multiple of
the length. -/
theorem hasBytes_flatMap {α : Type*} {enc : α → List Byte} {xs : List α} {x : α} {k : Nat}
    (h : HasBytes mem a (xs.flatMap enc)) (henc : ∀ x, (enc x).length = n)
    (hk : xs[k]? = some x) : HasBytes mem (a + n * k) (enc x) := by
  induction xs generalizing a k with
  | nil => simp at hk
  | cons y xs ih =>
      rw [List.flatMap_cons, hasBytes_append, henc] at h
      cases k with
      | zero =>
          rw [List.getElem?_cons_zero, Option.some_inj] at hk
          subst hk
          exact h.1
      | succ k =>
          have hrest := ih h.2 (by simpa using hk)
          rwa [Nat.add_assoc, Nat.add_comm n (n * k), ← Nat.mul_succ] at hrest

/-- The digits of a number, most significant byte first. -/
def beBytes (n v : Nat) : List Byte :=
  match n with
  | 0 => []
  | n + 1 => .ofNat 8 (v / 256 ^ n) :: beBytes n v

@[simp]
theorem length_beBytes (n v : Nat) : (beBytes n v).length = n := by
  induction n with
  | zero => rfl
  | succ n ih => simp [beBytes, ih]

/-- The big-endian encoding of a number is loaded back. -/
theorem loadBE_beBytes (h : HasBytes mem a (beBytes n v)) (hv : v < 256 ^ n) :
    loadBE mem a n = v := by
  have hmod : loadBE mem a n = v % 256 ^ n := by
    clear hv
    induction n generalizing a with
    | zero => simp [loadBE, Nat.mod_one]
    | succ n ih =>
        rcases hasBytes_cons.mp h with ⟨hhead, htail⟩
        rw [loadBE, hhead, ih htail, Nat.pow_succ, Nat.mod_mul]
        simp only [BitVec.toNat_ofNat]
        rw [Nat.add_comm]
  rw [hmod, Nat.mod_eq_of_lt hv]

/-- The memory that holds the bytes at {lit}`a` and zero elsewhere. -/
def ofBytes (a : Nat) (bytes : List Byte) : Memory := fun x =>
  if a ≤ x then bytes.getD (x - a) 0#8 else 0#8

theorem hasBytes_ofBytes (a : Nat) (bytes : List Byte) : HasBytes (ofBytes a bytes) a bytes := by
  intro i hi
  simp [ofBytes, hi]

end ByteMemory
