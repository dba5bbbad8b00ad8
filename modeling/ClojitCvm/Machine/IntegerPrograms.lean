import ClojitCvm.Machine.BumpHost
import ClojitCvm.Machine.IntegerResults
import Mathlib.Logic.Function.Basic

/-!
# Programs on integers

A straight line of instructions that load, move and compute integers should leave the exact
values in the slots.  It does as long as no result of an operation is negative, the targets
are in reach of the slot array and no remainder overflows.

Main results:

- Definition {lit}`ExactRun`: every step of the line stores the exact value.
- Theorem {lit}`exactRun_iff`: when a line does.
-/

namespace ClojitCvm

open ByteMemory CellArray FrameStack Slot

/-! ## Exact values -/

/-- The integers in the slots of the frame. -/
def slotInts (vm : VM) (i : Nat) : Option Int :=
  match vm.words[vm.base + i]? with
  | some word => if isSmallInt word then some (getSmallInt word).toInt else none
  | none => none

/-- The value of an instruction of the line on the values in the slots.  A divisor must not
be zero. -/
def exactValue? (env : Nat → Option Int) (inst : Decoded) : Option Int :=
  match inst.op with
  | some .cshort => some inst.d.toNat
  | some .mov => env inst.d.toNat
  | op =>
      match exactOp? op, env inst.b, env inst.c with
      | some f, some x, some y => if divides op && y == 0 then none else some (f x y)
      | _, _, _ => none

/-- All exact values of a line of instructions fit 32 bits. -/
def ExactFits (env : Nat → Option Int) : List Decoded → Prop
  | [] => True
  | inst :: prog => ∃ value, exactValue? env inst = some value ∧ -2 ^ 31 ≤ value ∧
      value < 2 ^ 31 ∧ ExactFits (Function.update env inst.a (some value)) prog

/-- The instructions lie in the code one after another. -/
def Lies (host : Host) (sec : Sections) (pc : BitVec 32) : List Decoded → Prop
  | [] => True
  | inst :: prog => (instrAt host sec pc).map decode = some inst ∧ Lies host sec (pc + 1) prog

/-! ## Runs -/

/-- The next step stores an integer and leaves all other slots alone. -/
structure StoresExact (host : Host) (sec : Sections) (vm : VM) (a : Nat) (value : Int)
    (vm' : VM) : Prop where
  step_eq : step host sec vm = .ok vm'
  target : ∃ word, vm'.words[vm.base + a]? = some word ∧ isSmallInt word = true ∧
    (getSmallInt word).toInt = value
  others : ∀ i < vm.words.length, i ≠ vm.base + a → vm'.words[i]? = vm.words[i]?

/-- Every step of the line stores the exact value. -/
def ExactRun (host : Host) (sec : Sections) (env : Nat → Option Int) (vm : VM) :
    List Decoded → Prop
  | [] => True
  | inst :: prog => ∃ value vm', exactValue? env inst = some value ∧
      StoresExact host sec vm inst.a value vm' ∧
      ExactRun host sec (Function.update env inst.a (some value)) vm' prog

/-- The result of an operation is not negative, and the operation is no remainder that
overflows. -/
def ResultFits (env : Nat → Option Int) (inst : Decoded) : Prop :=
  match exactOp? inst.op, env inst.b, env inst.c with
  | some f, some x, some y => 0 ≤ f x y ∧ (divides inst.op = true → ¬ (x = -2 ^ 31 ∧ y = -1))
  | _, _, _ => True

/-- The target of an instruction is in reach of the slot array, and its result fits. -/
def Storable (base : Nat) (env : Nat → Option Int) (inst : Decoded) : Prop :=
  base + inst.a < maxCapacity ∧ ResultFits env inst

/-- All instructions of a line have exact values that are stored. -/
def LineStorable (base : Nat) (env : Nat → Option Int) : List Decoded → Prop
  | [] => True
  | inst :: prog => Storable base env inst ∧
      ∀ value, exactValue? env inst = some value →
        LineStorable base (Function.update env inst.a (some value)) prog

/-! ## Steps of a line -/

section Steps

variable {host : Host} {sec : Sections} {vm : VM} {inst : Decoded} {env : Nat → Option Int}
    {value : Int} {word : Word}

/-- The slots hold all values of an environment. -/
def Agrees (env : Nat → Option Int) (vm : VM) : Prop :=
  ∀ i value, env i = some value → ∃ word, vm.words[vm.base + i]? = some word ∧
    isSmallInt word = true ∧ (getSmallInt word).toInt = value

theorem slotInts_agrees (vm : VM) : Agrees (slotInts vm) vm := by
  intro i value hvalue
  unfold slotInts at hvalue
  split at hvalue
  · next word hword =>
    split at hvalue
    · next hint =>
      cases hvalue
      exact ⟨word, hword, hint, rfl⟩
    · cases hvalue
  · cases hvalue

/-- A step that stores a word in reach stores the exact value if the word holds it. -/
theorem storesExact_of_stores {a : Nat} (h : VM.Stores vm a word (step host sec vm))
    (hreach : vm.base + a < maxCapacity) (hint : isSmallInt word = true)
    (hvalue : (getSmallInt word).toInt = value) : ∃ vm', StoresExact host sec vm a value vm' := by
  unfold VM.Stores at h
  rw [if_pos hreach] at h
  rcases h with ⟨vm', hok, hmoves, _⟩
  have hwords := hmoves.of_assign.1
  refine ⟨vm', hok, ⟨word, ?_, hint, hvalue⟩, ?_⟩
  · rw [hwords]
    exact getElem?_assign_self ..
  · intro i hi hne
    rw [hwords, getElem?_assign, if_neg hne, if_pos hi]

/-- A step that stores a word stores the exact value only if the word is in reach and holds
it. -/
theorem StoresExact.of_stores {a : Nat} {vm' : VM} (h : StoresExact host sec vm a value vm')
    (hstores : VM.Stores vm a word (step host sec vm)) :
    vm.base + a < maxCapacity ∧ (isSmallInt word = true ∧ (getSmallInt word).toInt = value) ∧
      VM.Moves vm [.assign a word] vm' ∧ vm'.pc = vm.pc + 1 := by
  rcases of_eq_ok hstores h.step_eq with ⟨hreach, hmoves, hrest⟩
  rcases h.target with ⟨stored, hstored, hholds⟩
  rw [hmoves.of_assign.1, getElem?_assign_self, Option.some.injEq] at hstored
  subst hstored
  exact ⟨hreach, hholds, hmoves, congrArg Rest.pc hrest⟩

/-- What an instruction of a line does with the word it stores, or that it stores none. -/
inductive LineStep (host : Host) (sec : Sections) (vm : VM) (inst : Decoded) (value : Int)
    (fits : Prop) : Prop
  | stores {word : Word} (hstores : VM.Stores vm inst.a word (step host sec vm))
      (hfits : isSmallInt word = true ∧ (getSmallInt word).toInt = value ↔ fits)
  | traps (hfault : step host sec vm = .error (.fault .divisionTrap)) (hfits : ¬ fits)

theorem toSmallInt_setWidth (d : BitVec 16) :
    isSmallInt (toSmallInt (d.setWidth 32)) = true ∧
      (getSmallInt (toSmallInt (d.setWidth 32))).toInt = d.toNat := by
  have hd := d.isLt
  have hint : (d.setWidth 32).toInt = d.toNat := by
    rw [BitVec.toInt_eq_toNat_of_lt (by simp; omega)]
    simp
    omega
  exact (toSmallInt_exact_iff (by rw [hint, Int.bmod_eq_of_le_mul_two] <;> omega)).mpr
    ⟨by omega, by omega⟩

/-- The word of an operation holds the exact value unless that is negative. -/
theorem lineStep_integers {f : Int → Int → Int} {x y : Int} (h : vm.WellFramed)
    (hinst : current? host sec vm = some inst) (hagrees : Agrees env vm)
    (hop : exactOp? inst.op = some f) (hx : env inst.b = some x) (hy : env inst.c = some y)
    (hdivisor : divides inst.op = true → y ≠ 0) (hhigh : f x y < 2 ^ 31) :
    LineStep host sec vm inst (f x y) (ResultFits env inst) := by
  have hfits : ResultFits env inst ↔
      0 ≤ f x y ∧ (divides inst.op = true → ¬ (x = -2 ^ 31 ∧ y = -1)) := by
    rw [ResultFits, hop, hx, hy]
  have hsome : (integerOp? inst.op).isSome = true := by
    rw [integerOp?_isSome_iff, hop]
    rfl
  rcases Option.isSome_iff_exists.mp hsome with ⟨int, hint⟩
  rcases hagrees _ _ hx with ⟨wordx, hwordx, hintx, rfl⟩
  rcases hagrees _ _ hy with ⟨wordy, hwordy, hinty, rfl⟩
  have hstep := h.step_integers hinst hint hwordx hwordy hintx hinty
  have hnone := integerOp_eq_none_iff (x := getSmallInt wordx) (y := getSmallInt wordy) hint
  rw [divTraps_iff] at hnone
  cases hnum : int (getSmallInt wordx) (getSmallInt wordy) with
  | none =>
      rw [hnum] at hstep
      refine .traps hstep fun hresult => ?_
      rcases hnone.mp hnum with ⟨hdivides, hzero | hoverflow⟩
      · exact hdivisor hdivides hzero
      · exact (hfits.mp hresult).2 hdivides hoverflow
  | some num =>
      rw [hnum] at hstep
      refine .stores hstep ?_
      rw [toSmallInt_exact_iff (toInt_of_integerOp hint hop hnum), hfits]
      refine and_congr_right fun _ => iff_of_true hhigh fun hdivides hoverflow => ?_
      have := hnone.mpr ⟨hdivides, .inr hoverflow⟩
      rw [hnum] at this
      cases this

theorem lineStep (h : vm.WellFramed) (hinst : current? host sec vm = some inst)
    (hagrees : Agrees env vm) (hvalue : exactValue? env inst = some value)
    (hhigh : value < 2 ^ 31) : LineStep host sec vm inst value (ResultFits env inst) := by
  rcases VM.current?_lt hinst with ⟨ha, _, _⟩
  have hstep := VM.step_eq_execute hinst
  unfold exactValue? at hvalue
  split at hvalue
  · next hop =>
    cases hvalue
    have hstores : VM.Stores vm inst.a (toSmallInt (inst.d.setWidth 32)) (step host sec vm) := by
      rw [hstep, hop]
      exact VM.stores_next (h.set_spec (by omega) _)
    have hfits : ResultFits env inst := by
      rw [ResultFits, hop]
      trivial
    exact .stores hstores (iff_of_true (toSmallInt_setWidth inst.d) hfits)
  · next hop =>
    rcases hagrees _ _ hvalue with ⟨word, hword, hint, hnum⟩
    have hstores : VM.Stores vm inst.a word (step host sec vm) := by
      rw [hstep, hop]
      have hd := inst.d.isLt
      exact VM.stores_next (h.move_spec (by omega) (by omega) hword)
    have hfits : ResultFits env inst := by
      rw [ResultFits, hop]
      trivial
    exact .stores hstores (iff_of_true ⟨hint, hnum⟩ hfits)
  · split at hvalue
    · next f x y hop hx hy =>
      split at hvalue
      · cases hvalue
      · next hdivisor =>
        cases hvalue
        refine lineStep_integers h hinst hagrees hop hx hy ?_ hhigh
        rintro hdivides rfl
        exact hdivisor (by simp [hdivides])
    · cases hvalue

/-! ### The environment behind a step -/

/-- The slots hold the values of the environment behind an assignment. -/
theorem Agrees.assign {vm' : VM} {a : Nat} (h : Agrees env vm)
    (hmoves : VM.Moves vm [.assign a word] vm')
    (hword : isSmallInt word = true ∧ (getSmallInt word).toInt = value) :
    Agrees (Function.update env a (some value)) vm' := by
  rcases hmoves.of_assign with ⟨hwords, hbase⟩
  intro i held hheld
  rw [hwords, hbase]
  by_cases hi : i = a
  · subst hi
    rw [Function.update_self, Option.some.injEq] at hheld
    exact ⟨word, getElem?_assign_self .., hword.1, hword.2.trans hheld⟩
  · rw [Function.update_of_ne hi] at hheld
    rcases h i held hheld with ⟨old, hold, hrest⟩
    have hlt : vm.base + i < vm.words.length := (List.getElem?_eq_some_iff.mp hold).1
    rw [getElem?_assign, if_neg (by omega), if_pos hlt]
    exact ⟨old, hold, hrest⟩

/-- An instruction of a line stores its value if it is storable. -/
theorem exists_storesExact (h : vm.WellFramed) (hinst : current? host sec vm = some inst)
    (hagrees : Agrees env vm) (hvalue : exactValue? env inst = some value)
    (hhigh : value < 2 ^ 31) (hstorable : Storable vm.base env inst) :
    ∃ vm', StoresExact host sec vm inst.a value vm' := by
  cases lineStep h hinst hagrees hvalue hhigh with
  | stores hstores hfits =>
      have hword := hfits.mpr hstorable.2
      exact storesExact_of_stores hstores hstorable.1 hword.1 hword.2
  | traps _ hfits => exact absurd hstorable.2 hfits

/-- An instruction that stores its value is storable, and the values of the line hold
behind it. -/
theorem StoresExact.storable {vm' : VM} (h : vm.WellFramed)
    (hinst : current? host sec vm = some inst) (hagrees : Agrees env vm)
    (hvalue : exactValue? env inst = some value) (hhigh : value < 2 ^ 31)
    (hexact : StoresExact host sec vm inst.a value vm') :
    Storable vm.base env inst ∧ vm'.WellFramed ∧ vm'.base = vm.base ∧ vm'.pc = vm.pc + 1 ∧
      Agrees (Function.update env inst.a (some value)) vm' := by
  cases lineStep h hinst hagrees hvalue hhigh with
  | stores hstores hfits =>
      rcases hexact.of_stores hstores with ⟨hreach, hword, hmoves, hpc⟩
      exact ⟨⟨hreach, hfits.mp hword⟩, hmoves.wellFramed h, hmoves.of_assign.2, hpc,
        hagrees.assign hmoves hword⟩
  | traps hfault _ =>
      have hok := hexact.step_eq
      rw [hfault] at hok
      cases hok

end Steps

/-! ## Lines -/

section Lines

variable {host : Host} {sec : Sections} {vm : VM} {prog : List Decoded}
    {env : Nat → Option Int}

theorem exactRun_iff_of_agrees (h : vm.WellFramed) (hlies : Lies host sec vm.pc prog)
    (hagrees : Agrees env vm) (hfits : ExactFits env prog) :
    ExactRun host sec env vm prog ↔ LineStorable vm.base env prog := by
  induction prog generalizing vm env with
  | nil => exact Iff.rfl
  | cons inst prog ih =>
      rcases hlies with ⟨hinst, hbehind⟩
      rcases hfits with ⟨value, hvalue, _, hhigh, hrest⟩
      have hline {vm' : VM} (hexact : StoresExact host sec vm inst.a value vm') :
          Storable vm.base env inst ∧ (ExactRun host sec
            (Function.update env inst.a (some value)) vm' prog ↔
              LineStorable vm.base (Function.update env inst.a (some value)) prog) := by
        rcases hexact.storable h hinst hagrees hvalue hhigh with
          ⟨hstorable, hframed, hbase, hpc, hagrees'⟩
        have hiff := ih hframed (by rwa [hpc]) hagrees' hrest
        rw [hbase] at hiff
        exact ⟨hstorable, hiff⟩
      constructor
      · rintro ⟨value', vm', hvalue', hexact, hrun⟩
        rw [hvalue, Option.some.injEq] at hvalue'
        subst hvalue'
        rcases hline hexact with ⟨hstorable, hiff⟩
        refine ⟨hstorable, fun value' hvalue' => ?_⟩
        rw [hvalue, Option.some.injEq] at hvalue'
        subst hvalue'
        exact hiff.mp hrun
      · rintro ⟨hstorable, hstorables⟩
        rcases exists_storesExact h hinst hagrees hvalue hhigh hstorable with ⟨vm', hexact⟩
        exact ⟨value, vm', hvalue, hexact, (hline hexact).2.mpr (hstorables value hvalue)⟩

/-- A line of instructions whose exact values fit 32 bits stores all of them exactly when no
result of an operation is negative, no remainder overflows and all targets are in reach. -/
theorem exactRun_iff (h : Reachable host sec vm) (hlies : Lies host sec vm.pc prog)
    (hfits : ExactFits (slotInts vm) prog) :
    ExactRun host sec (slotInts vm) vm prog ↔ LineStorable vm.base (slotInts vm) prog :=
  exactRun_iff_of_agrees h.wellFormed.toWellFramed hlies (slotInts_agrees vm) hfits

end Lines

/-- A program that squares seven in place and copies the square. -/
def squareOfSeven : CvmbFile where
  sections := [.instructions [.ad Opcode.cshort.number 0 7, .abc Opcode.mulvv.number 0 0 0,
    .ad Opcode.mov.number 1 0], .cint []]
  nodup := by decide
  wellFormed := by decide

def squareOfSevenHost : Host :=
  bumpHost squareOfSeven (by decide)

def squareLine : List Decoded :=
  [⟨some .cshort, 0, 0, 7, 7#16⟩, ⟨some .mulvv, 0, 0, 0, 0#16⟩, ⟨some .mov, 1, 0, 0, 0#16⟩]

/-- The square and its copy are exact. -/
theorem squareOfSeven_exactRun :
    ExactRun squareOfSevenHost (loadfile squareOfSevenHost) (slotInts (vmInit squareOfSevenHost))
      (vmInit squareOfSevenHost) squareLine := by
  have hlies : Lies squareOfSevenHost (loadfile squareOfSevenHost) (vmInit squareOfSevenHost).pc
      squareLine := ⟨by decide, by decide, by decide, trivial⟩
  refine (exactRun_iff .init hlies ?_).mpr ?_
  · exact ⟨7, rfl, by decide, by decide, 49, rfl, by decide, by decide, 49, rfl, by decide,
      by decide, trivial⟩
  · refine ⟨⟨by decide, trivial⟩, ?_⟩
    rintro _ ⟨⟩
    refine ⟨⟨by decide, by decide, by decide⟩, ?_⟩
    rintro _ ⟨⟩
    exact ⟨⟨by decide, trivial⟩, fun _ _ => trivial⟩

/-- A program that subtracts two from one. -/
def twoFromOne : CvmbFile where
  sections := [.instructions [.ad Opcode.cshort.number 0 1, .ad Opcode.cshort.number 1 2,
    .abc Opcode.subvv.number 0 0 1], .cint []]
  nodup := by decide
  wellFormed := by decide

def twoFromOneHost : Host :=
  bumpHost twoFromOne (by decide)

def differenceLine : List Decoded :=
  [⟨some .cshort, 0, 0, 1, 1#16⟩, ⟨some .cshort, 1, 0, 2, 2#16⟩, ⟨some .subvv, 0, 0, 1, 1#16⟩]

/-- The exact values of a line fit 32 bits, but the difference is negative. -/
theorem twoFromOne_not_exactRun :
    ¬ ∀ host sec vm prog, Reachable host sec vm → Lies host sec vm.pc prog →
      ExactFits (slotInts vm) prog → ExactRun host sec (slotInts vm) vm prog := by
  intro h
  have hlies : Lies twoFromOneHost (loadfile twoFromOneHost) (vmInit twoFromOneHost).pc
      differenceLine := ⟨by decide, by decide, by decide, trivial⟩
  have hfits : ExactFits (slotInts (vmInit twoFromOneHost)) differenceLine :=
    ⟨1, rfl, by decide, by decide, 2, rfl, by decide, by decide, -1, rfl, by decide, by decide,
      trivial⟩
  have hline := (exactRun_iff_of_agrees (VM.vmInit_wellFramed _) hlies (slotInts_agrees _)
    hfits).mp (h _ _ _ _ .init hlies hfits)
  exact absurd ((hline.2 1 rfl).2 2 rfl).1.2.1 (by decide)

end ClojitCvm
