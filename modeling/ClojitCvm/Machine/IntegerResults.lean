import ClojitCvm.Machine.Effects
import Mathlib.Algebra.Ring.Int.Defs
import Mathlib.Algebra.Ring.Nat

/-!
# Results of integer instructions

The arithmetic instructions compute with 32-bit integers, and a slot holds an integer only
as long as it is not negative.  This file compares what they store with the exact result.

Main results:

- Theorem {lit}`toSmallInt_exact_iff`: which exact results a slot holds.
- Theorem {lit}`VM.WellFramed.execute_integers`: what an instruction does on two integers.
-/

namespace ClojitCvm

open ByteMemory CellArray FrameStack Slot

/-- The exact operation of an arithmetic instruction.  Quotients are truncated. -/
def exactOp? (op : Option Opcode) : Option (Int → Int → Int) :=
  match op with
  | some .addvv => some fun x y => x + y
  | some .subvv => some fun x y => x - y
  | some .mulvv => some fun x y => x * y
  | some .divvv => some Int.tdiv
  | some .modvv => some Int.tmod
  | _ => none

/-- The instruction divides. -/
def divides (op : Option Opcode) : Bool :=
  op == some .divvv || op == some .modvv

section Results

variable {op : Option Opcode} {int : BitVec 32 → BitVec 32 → Option (BitVec 32)}
    {f : Int → Int → Int} {x y num : BitVec 32}

theorem integerOp?_isSome_iff : (integerOp? op).isSome = (exactOp? op).isSome := by
  unfold integerOp? exactOp?
  cases op with
  | none => rfl
  | some op => cases op <;> rfl

/-- The stored integer is the exact result, as far as 32 bits go. -/
theorem toInt_of_integerOp (hint : integerOp? op = some int) (hexact : exactOp? op = some f)
    (hnum : int x y = some num) : num.toInt = (f x.toInt y.toInt).bmod (2 ^ 32) := by
  unfold integerOp? at hint
  split at hint <;> cases hint <;> cases hexact
  · cases hnum
    exact BitVec.toInt_add ..
  · cases hnum
    exact BitVec.toInt_sub
  · cases hnum
    exact BitVec.toInt_mul ..
  · simp only [divvv, Option.ite_none_left_eq_some, Option.some.injEq] at hnum
    rw [← hnum.2]
    exact BitVec.toInt_sdiv ..
  · simp only [Option.ite_none_left_eq_some, Option.some.injEq] at hnum
    rw [← hnum.2, ← BitVec.toInt_srem, BitVec.toInt_bmod_cancel]

/-- The divisions, and only they, can trap. -/
theorem integerOp_eq_none_iff (hint : integerOp? op = some int) :
    int x y = none ↔ divides op = true ∧ divTraps x y = true := by
  unfold integerOp? at hint
  split at hint <;> cases hint
  · simp [addvv, divides]
  · simp [subvv, divides]
  · simp [mulvv, divides]
  · simp [divvv, divides]
  · simp [divides]

theorem divTraps_iff (x y : BitVec 32) :
    divTraps x y = true ↔ y.toInt = 0 ∨ x.toInt = -2 ^ 31 ∧ y.toInt = -1 := by
  have hzero : y = 0#32 ↔ y.toInt = 0 := by
    rw [← BitVec.toInt_inj]
    rfl
  have hmin : x = 0x80000000#32 ↔ x.toInt = -2 ^ 31 := by
    rw [← BitVec.toInt_inj]
    rfl
  have hone : y = 0xFFFFFFFF#32 ↔ y.toInt = -1 := by
    rw [← BitVec.toInt_inj]
    rfl
  simp only [divTraps, Bool.or_eq_true, Bool.and_eq_true, beq_iff_eq, hzero, hmin, hone]

/-- A slot is a small integer exactly when the integer is not negative. -/
theorem isSmallInt_toSmallInt (num : BitVec 32) :
    isSmallInt (toSmallInt num) = true ↔ 0 ≤ num.toInt := by
  rw [toSmallInt_eq_packed, isSmallInt, tag_packed]
  cases hmsb : num.msb with
  | false =>
      exact iff_of_true (by decide) (BitVec.toInt_nonneg_of_msb_false hmsb)
  | true =>
      have hneg := BitVec.toInt_neg_of_msb_true hmsb
      exact iff_of_false (by decide) (by omega)

/-- A slot with the stored integer holds the exact result exactly when that is not negative
and fits 31 bits. -/
theorem toSmallInt_exact_iff {exact : Int} (hnum : num.toInt = exact.bmod (2 ^ 32)) :
    isSmallInt (toSmallInt num) = true ∧ (getSmallInt (toSmallInt num)).toInt = exact ↔
      0 ≤ exact ∧ exact < 2 ^ 31 := by
  rw [isSmallInt_toSmallInt, getSmallInt_toSmallInt]
  have hlt : num.toInt < 2 ^ 31 := by
    have := BitVec.toInt_lt (x := num)
    omega
  constructor
  · rintro ⟨hnonneg, heq⟩
    omega
  · rintro ⟨hnonneg, hfits⟩
    have heq : exact.bmod (2 ^ 32) = exact := Int.bmod_eq_of_le_mul_two (by omega) (by omega)
    rw [hnum, heq]
    exact ⟨hnonneg, rfl⟩

end Results

/-! ## Instructions on two integers -/

namespace VM

variable {host : Host} {sec : Sections} {vm mid vm' : VM} {a b c : Nat} {d : BitVec 16}
    {op : Option Opcode} {int : BitVec 32 → BitVec 32 → Option (BitVec 32)} {x y : Word}

/-- What an instruction does with its integer result: it traps without one. -/
def StoresInt (vm : VM) (a : Nat) (result : Option (BitVec 32)) (x : Outcome VM VM) : Prop :=
  match result with
  | some num => Stores vm a (toSmallInt num) x
  | none => x = .error (.fault .divisionTrap)

theorem setInt_next_stores (h : vm.WellFramed) (ha : a < 2 ^ 20) (hmid : Acts vm [] mid)
    (result : Option (BitVec 32)) :
    StoresInt vm a result (do let vm ← setInt mid a result; return vm.next) := by
  unfold StoresInt setInt
  cases result with
  | none => rfl
  | some num =>
      apply stores_next
      exact hmid.set_spec h ha (toSmallInt num)

/-- Four of the instructions that compute with integers have the same body. -/
theorem arith_or_modvv (hop : (integerOp? op).isSome = true) :
    (∃ arith : Arith, integerOp? op = some arith.int ∧ op ≠ some .modvv ∧
      ∀ host sec vm a b c d,
        execute host sec vm op a b c d = execArith arith host vm a b c) ∨
    op = some .modvv := by
  unfold integerOp? at hop
  split at hop
  · exact .inl ⟨addvv, rfl, by decide, fun _ _ _ _ _ _ _ => rfl⟩
  · exact .inl ⟨subvv, rfl, by decide, fun _ _ _ _ _ _ _ => rfl⟩
  · exact .inl ⟨mulvv, rfl, by decide, fun _ _ _ _ _ _ _ => rfl⟩
  · exact .inl ⟨divvv, rfl, by decide, fun _ _ _ _ _ _ _ => rfl⟩
  · exact .inr rfl
  · cases hop

/-! The instructions behind their operands; without an operand they stop with status 1. -/

theorem WellFramed.execArith_operands (host : Host) (a : Nat) (h : vm.WellFramed) (hb : b < 256)
    (hc : c < 256) (arith : Arith) :
    ∃ mid, Acts vm [] mid ∧
      match vm.words[vm.base + b]?, vm.words[vm.base + c]? with
      | some x, some y => execArith arith host vm a b c =
          (do let vm ← arithCases arith host mid a x y; return vm.next)
      | _, _ => ∃ printed, execArith arith host vm a b c = .error (.exit 1 mid printed) :=
  h.operands_spec (by omega) (by omega) fun vm x y => do
    let vm ← arithCases arith host vm a x y
    return vm.next

theorem WellFramed.execModvv_operands (a : Nat) (h : vm.WellFramed) (hb : b < 256)
    (hc : c < 256) :
    ∃ mid, Acts vm [] mid ∧
      match vm.words[vm.base + b]?, vm.words[vm.base + c]? with
      | some x, some y => execModvv vm a b c =
          if isSmallInt x && isSmallInt y then do
            let vm ← setInt mid a (if divTraps (getSmallInt x) (getSmallInt y) then none
              else some ((getSmallInt x).srem (getSmallInt y)))
            return vm.next
          else .error (.exit 1 mid ["Type Error. Called Modulo with Float\n"])
      | _, _ => ∃ printed, execModvv vm a b c = .error (.exit 1 mid printed) :=
  h.operands_spec (by omega) (by omega) fun vm x y =>
    if isSmallInt x && isSmallInt y then do
      let vm ← setInt vm a (if divTraps (getSmallInt x) (getSmallInt y) then none
        else some ((getSmallInt x).srem (getSmallInt y)))
      return vm.next
    else .error (.exit 1 vm ["Type Error. Called Modulo with Float\n"])

/-- An arithmetic instruction on two integers stores the result of its operation. -/
theorem WellFramed.execute_integers (h : vm.WellFramed) (ha : a < 256) (hb : b < 256)
    (hc : c < 256) (hop : integerOp? op = some int) (hx : vm.words[vm.base + b]? = some x)
    (hy : vm.words[vm.base + c]? = some y) (hintx : isSmallInt x = true)
    (hinty : isSmallInt y = true) :
    StoresInt vm a (int (getSmallInt x) (getSmallInt y)) (execute host sec vm op a b c d) := by
  have hints : (isSmallInt x && isSmallInt y) = true := by
    rw [hintx, hinty]
    rfl
  rcases arith_or_modvv (Option.isSome_of_eq_some hop) with
    ⟨arith, harith, _, hexec⟩ | hmodvv
  · rcases h.execArith_operands host a hb hc arith with ⟨mid, hmid, heq⟩
    rw [hop, Option.some.injEq] at harith
    subst harith
    rw [hx, hy] at heq
    rw [hexec, heq, arithCases, if_pos hints]
    exact setInt_next_stores h (by omega) hmid _
  · subst hmodvv
    cases hop
    change StoresInt vm a _ (execModvv vm a b c)
    rcases h.execModvv_operands a hb hc with ⟨mid, hmid, heq⟩
    rw [hx, hy] at heq
    rw [heq, if_pos hints]
    exact setInt_next_stores h (by omega) hmid _

theorem WellFramed.step_integers {inst : Decoded} (h : vm.WellFramed)
    (hinst : current? host sec vm = some inst) (hop : integerOp? inst.op = some int)
    (hx : vm.words[vm.base + inst.b]? = some x) (hy : vm.words[vm.base + inst.c]? = some y)
    (hintx : isSmallInt x = true) (hinty : isSmallInt y = true) :
    StoresInt vm inst.a (int (getSmallInt x) (getSmallInt y)) (step host sec vm) := by
  rcases current?_lt hinst with ⟨ha, hb, hc⟩
  rw [step_eq_execute hinst]
  exact h.execute_integers ha hb hc hop hx hy hintx hinty

end VM

end ClojitCvm
