import ClojitCvm.Lib.ByteMemory

/-!
# Byte order

A file holds its numbers in network order, and the host is little-endian.  This
module has the conversions of the loader, {lit}`swap_int64` and {lit}`swap`, the
instruction overlays {lit}`OpABC` and {lit}`OpAD`, and their effect on words that
were loaded from memory.

Main results:

- Theorems {lit}`swapInt64_load` and {lit}`swap_load`: the conversions read a loaded
  word big-endian.
- Theorems {lit}`OpABC.ofInstr_load` and {lit}`OpAD.ofInstr_load`: the overlays read
  the four bytes of an instruction in file order.
-/

namespace ClojitCvm

open ByteMemory

/-! ## Loading words -/

/-- The C expression {lit}`ntohl(*(uint32_t *) a)` on a little-endian host. -/
def ntohlAt (mem : Memory) (a : Nat) : Nat :=
  loadBE mem a 4

/-- The {lit}`n` bytes at an address, loaded as one machine word. -/
def loadWord (mem : Memory) (a n : Nat) : BitVec (8 * n) :=
  .ofNat (8 * n) (loadLE mem a n)

/-- Bit {lit}`i` of a loaded word is in byte {lit}`i / 8`. -/
theorem getLsbD_loadWord {mem : Memory} {a n i : Nat} (hi : i < 8 * n) :
    (loadWord mem a n).getLsbD i = (mem (a + i / 8)).getLsbD (i % 8) := by
  rw [loadWord, BitVec.getLsbD_ofNat, testBit_loadLE hi]
  simp [hi]

/-! ## Reversing the bytes of a word -/

/-- The bytes of {lit}`y` are the bytes of {lit}`x` in reverse. -/
def Reverses (n : Nat) (x y : BitVec (8 * n)) : Prop :=
  ∀ i < 8 * n, y.getLsbD i = x.getLsbD (8 * (n - 1 - i / 8) + i % 8)

/-- A loaded word with its bytes reversed is the big-endian number. -/
theorem Reverses.load {mem : Memory} {a n : Nat} {y : BitVec (8 * n)}
    (h : Reverses n (loadWord mem a n) y) : y = .ofNat (8 * n) (loadBE mem a n) := by
  apply BitVec.eq_of_getLsbD_eq
  intro i hi
  have hindex : 8 * (n - 1 - i / 8) + i % 8 < 8 * n := by omega
  have hdiv : (8 * (n - 1 - i / 8) + i % 8) / 8 = n - 1 - i / 8 := by omega
  have hmod : (8 * (n - 1 - i / 8) + i % 8) % 8 = i % 8 := by omega
  rw [h i hi, getLsbD_loadWord hindex, hdiv, hmod, BitVec.getLsbD_ofNat, testBit_loadBE hi]
  simp [hi]

/-! ## The loader's conversions -/

def swapInt64 (val : BitVec 64) : BitVec 64 :=
  let val := ((val <<< 8) &&& 0xFF00FF00FF00FF00#64) ||| ((val >>> 8) &&& 0x00FF00FF00FF00FF#64)
  let val := ((val <<< 16) &&& 0xFFFF0000FFFF0000#64) ||| ((val >>> 16) &&& 0x0000FFFF0000FFFF#64)
  (val <<< 32) ||| ((val >>> 32) &&& 0xFFFFFFFF#64)

/-- The eight byte assignments, from {lit}`dst[7] = src[0]` down. -/
def swap (d : BitVec 64) : BitVec 64 :=
  d.extractLsb' 0 8 ++ (d.extractLsb' 8 8 ++ (d.extractLsb' 16 8 ++ (d.extractLsb' 24 8 ++
    (d.extractLsb' 32 8 ++ (d.extractLsb' 40 8 ++ (d.extractLsb' 48 8 ++
      d.extractLsb' 56 8))))))

/-- One round of the swap exchanges neighboring groups of {lit}`s` bits. -/
def exchange (s : Nat) (high low val : BitVec 64) : BitVec 64 :=
  ((val <<< s) &&& high) ||| ((val >>> s) &&& low)

theorem getLsbD_exchange {val high low : BitVec 64} {s i : Nat}
    (hhigh : ∀ i < 64, high.getLsbD i = decide (i / s % 2 = 1))
    (hlow : ∀ i < 64, low.getLsbD i = decide (i / s % 2 = 0)) (hi : i < 64) :
    (exchange s high low val).getLsbD i =
      val.getLsbD (if i / s % 2 = 1 then i - s else i + s) := by
  rw [exchange, BitVec.getLsbD_or, BitVec.getLsbD_and, BitVec.getLsbD_and, hhigh i hi,
    hlow i hi, BitVec.getLsbD_shiftLeft, BitVec.getLsbD_ushiftRight]
  rcases Nat.mod_two_eq_zero_or_one (i / s) with heven | hodd
  · simp [heven, Nat.add_comm]
  · have hle : s ≤ i := by
      by_contra hlt
      rw [Nat.div_eq_of_lt (by omega)] at hodd
      exact absurd hodd (by decide)
    simp [hodd, hi, hle]

/-- The last round needs no mask on the part shifted up. -/
theorem shiftLeft_half_and_mask (val : BitVec 64) :
    (val <<< 32) &&& 0xFFFFFFFF00000000#64 = val <<< 32 := by
  have hmask : ∀ i < 64, (0xFFFFFFFF00000000#64).getLsbD i = decide (32 ≤ i) := by decide
  apply BitVec.eq_of_getLsbD_eq
  intro i hi
  rw [BitVec.getLsbD_and, hmask i hi, BitVec.getLsbD_shiftLeft]
  by_cases hhalf : i < 32
  · simp [hhalf]
  · simp [Nat.le_of_not_lt hhalf]

/-- The whole swap is three rounds. -/
theorem swapInt64_eq_exchange (val : BitVec 64) :
    swapInt64 val =
      exchange 32 0xFFFFFFFF00000000#64 0x00000000FFFFFFFF#64
        (exchange 16 0xFFFF0000FFFF0000#64 0x0000FFFF0000FFFF#64
          (exchange 8 0xFF00FF00FF00FF00#64 0x00FF00FF00FF00FF#64 val)) := by
  rw [exchange, shiftLeft_half_and_mask]
  rfl

theorem swapInt64_reverses (val : BitVec 64) : Reverses 8 val (swapInt64 val) := by
  intro i hi
  rw [swapInt64_eq_exchange,
    getLsbD_exchange (by decide) (by decide) hi,
    getLsbD_exchange (by decide) (by decide) (by split <;> omega),
    getLsbD_exchange (by decide) (by decide) (by split <;> split <;> omega)]
  congr 1
  split <;> split <;> split <;> omega

theorem swap_reverses (d : BitVec 64) : Reverses 8 d (swap d) := by
  intro i hi
  simp only [swap, BitVec.getLsbD_append, BitVec.getLsbD_extractLsb']
  -- one goal for each byte of the result, the last one first
  repeat' split
  all_goals
    rw [decide_eq_true (by omega), Bool.true_and]
    congr 1
    omega

/-- {lit}`swap_int64` reads a loaded word big-endian. -/
theorem swapInt64_load (mem : Memory) (a : Nat) :
    swapInt64 (loadWord mem a 8) = .ofNat 64 (loadBE mem a 8) :=
  (swapInt64_reverses _).load

/-- {lit}`swap` reads a loaded word big-endian. -/
theorem swap_load (mem : Memory) (a : Nat) :
    swap (loadWord mem a 8) = .ofNat 64 (loadBE mem a 8) :=
  (swap_reverses _).load

/-! ## Instruction words -/

/-- The C function {lit}`ntohs` on a little-endian host. -/
def ntohs (x : BitVec 16) : BitVec 16 :=
  (x <<< 8) ||| (x >>> 8)

/-- An instruction seen as four bytes. -/
structure OpABC where
  op : Byte
  a : Byte
  b : Byte
  c : Byte
deriving DecidableEq, Repr

/-- An instruction seen as two bytes and a half word in file order. -/
structure OpAD where
  op : Byte
  a : Byte
  d : BitVec 16
deriving DecidableEq, Repr

/-- The overlay {lit}`*((struct OpABC *) &inst)`. -/
def OpABC.ofInstr (inst : BitVec 32) : OpABC where
  op := inst.setWidth 8
  a := (inst >>> 8).setWidth 8
  b := (inst >>> 16).setWidth 8
  c := (inst >>> 24).setWidth 8

/-- The overlay {lit}`*((struct OpAD *) &inst)`. -/
def OpAD.ofInstr (inst : BitVec 32) : OpAD where
  op := inst.setWidth 8
  a := (inst >>> 8).setWidth 8
  d := (inst >>> 16).setWidth 16

/-- Byte {lit}`k` of a loaded word. -/
theorem setWidth_ushiftRight_loadWord (mem : Memory) (a : Nat) {n k : Nat} (hk : k < n) :
    (loadWord mem a n >>> (8 * k)).setWidth 8 = mem (a + k) := by
  apply BitVec.eq_of_getLsbD_eq
  intro i hi
  have hdiv : (8 * k + i) / 8 = k := by omega
  have hmod : (8 * k + i) % 8 = i := by omega
  rw [BitVec.getLsbD_setWidth, BitVec.getLsbD_ushiftRight, getLsbD_loadWord (by omega), hdiv,
    hmod]
  simp [hi]

/-- The overlay reads the bytes in memory order. -/
theorem OpABC.ofInstr_load (mem : Memory) (a : Nat) :
    OpABC.ofInstr (loadWord mem a 4) = ⟨mem a, mem (a + 1), mem (a + 2), mem (a + 3)⟩ := by
  have h0 : (loadWord mem a 4).setWidth 8 = mem a := by
    simpa using setWidth_ushiftRight_loadWord mem a (show 0 < 4 by decide)
  have h1 := setWidth_ushiftRight_loadWord mem a (show 1 < 4 by decide)
  have h2 := setWidth_ushiftRight_loadWord mem a (show 2 < 4 by decide)
  have h3 := setWidth_ushiftRight_loadWord mem a (show 3 < 4 by decide)
  simp only [OpABC.ofInstr]
  exact congr (congr (congr (congrArg OpABC.mk h0) h1) h2) h3

/-- The overlay's half word, put into host order, is the big-endian number. -/
theorem OpAD.ofInstr_load (mem : Memory) (a : Nat) :
    (OpAD.ofInstr (loadWord mem a 4)).op = mem a ∧
      (OpAD.ofInstr (loadWord mem a 4)).a = mem (a + 1) ∧
      ntohs (OpAD.ofInstr (loadWord mem a 4)).d = .ofNat 16 (loadBE mem (a + 2) 2) := by
  have habc := OpABC.ofInstr_load mem a
  simp only [OpABC.ofInstr, OpABC.mk.injEq] at habc
  refine ⟨habc.1, habc.2.1, ?_⟩
  apply BitVec.eq_of_getLsbD_eq
  intro i hi
  rw [BitVec.getLsbD_ofNat, testBit_loadBE hi]
  simp only [ntohs, OpAD.ofInstr, BitVec.getLsbD_or, BitVec.getLsbD_shiftLeft,
    BitVec.getLsbD_ushiftRight, BitVec.getLsbD_setWidth]
  by_cases hlow : i < 8
  · rw [getLsbD_loadWord (show 16 + (8 + i) < 8 * 4 by omega),
      show (16 + (8 + i)) / 8 = 3 by omega, show (16 + (8 + i)) % 8 = i % 8 by omega,
      show a + 2 + (2 - 1 - i / 8) = a + 3 by omega]
    simp [hlow, hi, show 8 + i < 16 by omega]
  · rw [getLsbD_loadWord (show 16 + (i - 8) < 8 * 4 by omega),
      show (16 + (i - 8)) / 8 = 2 by omega, show (16 + (i - 8)) % 8 = i % 8 by omega,
      show a + 2 + (2 - 1 - i / 8) = a + 2 by omega]
    simp [hlow, hi, show ¬ 8 + i < 16 by omega, show i - 8 < 16 by omega]

end ClojitCvm
