import ClojitCvm.Machine.BumpHost
import ClojitCvm.Machine.DoubleSlots
import ClojitCvm.Machine.Endings
import ClojitCvm.Machine.IntegerResults

/-!
# Errors of arithmetic instructions

An instruction that computes with two slots should either store its result or stop with an
error and leave the slots alone.  The instructions of the source do neither if an operand
is no number, if an operand is a double or if a division traps.

Main results:

- Definition {lit}`Answers`: the instruction stores its result or stops with an error.
- Theorem {lit}`answers_iff`: when it does.
-/

namespace ClojitCvm

open ByteMemory CellArray FrameStack Slot

/-! ## Results -/

/-- The instructions that compute with two slots. -/
def computes (op : Option Opcode) : Bool :=
  (exactOp? op).isSome || op == some .iseq

/-- The number in a slot, as a double. -/
def slotNumber (host : Host) (slot : Word) : Option Double :=
  if isDouble slot then some (invertNonNegative slot)
  else if isSmallInt slot then some (host.float.ofInt (getSmallInt slot))
  else none

/-- The word is the result on two doubles. -/
def IsDoubleResult (host : Host) (op : Option Opcode) (u v : Double) (word : Word) : Prop :=
  match op with
  | some .addvv => word = toDouble (host.float.add u v)
  | some .subvv => word = toDouble (host.float.sub u v)
  | some .mulvv => word = toDouble (host.float.mul u v)
  | some .divvv => word = toDouble (host.float.div u v)
  | some .iseq => word = Slot.toBool (host.float.eq u v)
  | _ => False

/-- The word is the result on two integers: the exact one of an operation, which has no
quotient and no remainder by zero, or that of the comparison. -/
def IsIntegerResult (op : Option Opcode) (x y : BitVec 32) (word : Word) : Prop :=
  match exactOp? op with
  | some f => (divides op = true → y.toInt ≠ 0) ∧ isSmallInt word = true ∧
      (getSmallInt word).toInt = f x.toInt y.toInt
  | none => word = Slot.toBool (x == y)

/-- The word is the result of an instruction on two slots.  Slots that hold no numbers have
no result. -/
def IsResult (host : Host) (op : Option Opcode) (x y word : Word) : Prop :=
  if isSmallInt x && isSmallInt y then IsIntegerResult op (getSmallInt x) (getSmallInt y) word
  else ∃ u v, slotNumber host x = some u ∧ slotNumber host y = some v ∧
    IsDoubleResult host op u v word

/-- The next instruction stores its result, or stops with an error and leaves all slots
alone. -/
def Answers (host : Host) (sec : Sections) (vm : VM) (inst : Decoded) : Prop :=
  (∃ vm' x y word, step host sec vm = .ok vm' ∧ vm.words[vm.base + inst.b]? = some x ∧
    vm.words[vm.base + inst.c]? = some y ∧ vm'.words[vm.base + inst.a]? = some word ∧
    IsResult host inst.op x y word) ∨
  ∃ status vm' printed, step host sec vm = .error (.exit status vm' printed) ∧ status ≠ 0 ∧
    vm'.words = vm.words

/-- The integer operation has a result that a slot holds. -/
def Representable (op : Option Opcode) (x y : BitVec 32) : Prop :=
  match exactOp? op with
  | some f => (divides op = true → divTraps x y = false) ∧
      0 ≤ f x.toInt y.toInt ∧ f x.toInt y.toInt < 2 ^ 31
  | none => True

/-- The states in which an instruction answers.  It answers if an operand lies behind the
last slot.  On two integers, the target must be in reach and the result one that a slot
holds.  On other operands {lit}`MODVV` answers, and {lit}`ISEQ` does unless both are
doubles. -/
def AnswersWhen (vm : VM) (inst : Decoded) : Prop :=
  match vm.words[vm.base + inst.b]?, vm.words[vm.base + inst.c]? with
  | some x, some y =>
      if isSmallInt x && isSmallInt y then
        vm.base + inst.a < maxCapacity ∧
          Representable inst.op (getSmallInt x) (getSmallInt y)
      else inst.op = some .modvv ∨
        inst.op = some .iseq ∧ (isDouble x && isDouble y) = false
  | _, _ => True

/-! ## Integer operands -/

namespace VM

variable {host : Host} {sec : Sections} {vm vm' : VM} {a b c : Nat} {d : BitVec 16}
    {op : Option Opcode} {x y : Word}

/-- What is stored is the result exactly when a slot holds it. -/
theorem stored_isResult_iff {int : BitVec 32 → BitVec 32 → Option (BitVec 32)}
    (hop : integerOp? op = some int) {num : BitVec 32}
    (hnum : int (getSmallInt x) (getSmallInt y) = some num) :
    IsIntegerResult op (getSmallInt x) (getSmallInt y) (toSmallInt num) ↔
      Representable op (getSmallInt x) (getSmallInt y) := by
  have hsome : (integerOp? op).isSome = (exactOp? op).isSome := integerOp?_isSome_iff
  rw [hop, Option.isSome_some, eq_comm, Option.isSome_iff_exists] at hsome
  rcases hsome with ⟨f, hexact⟩
  have hnone := integerOp_eq_none_iff (x := getSmallInt x) (y := getSmallInt y) hop
  rw [hnum] at hnone
  have htraps : divides op = true → divTraps (getSmallInt x) (getSmallInt y) = false := by
    intro hdivides
    rw [Bool.eq_false_iff]
    intro htrap
    exact absurd (hnone.mpr ⟨hdivides, htrap⟩) (by simp)
  unfold IsIntegerResult Representable
  rw [hexact]
  have hexactly := toSmallInt_exact_iff (toInt_of_integerOp hop hexact hnum)
  constructor
  · rintro ⟨_, hint⟩
    exact ⟨htraps, hexactly.mp hint⟩
  · rintro ⟨_, hfits⟩
    refine ⟨fun hdivides hzero => ?_, hexactly.mpr hfits⟩
    have htrap := (divTraps_iff (getSmallInt x) (getSmallInt y)).mpr (.inl hzero)
    rw [htraps hdivides] at htrap
    cases htrap

/-! ## Operands that are not two integers -/

theorem slotNumber_eq_some {u : Double} (h : slotNumber host x = some u) :
    isDouble x = true ∨ isSmallInt x = true := by
  unfold slotNumber at h
  split at h
  · next hdouble => exact .inl hdouble
  · split at h
    · next hint => exact .inr hint
    · cases h

/-- With a double among two numbers, the cases do not return. -/
theorem arithCases_ne_ok (hfits : host.Fits vm.blocks) (arith : Arith)
    (hx : isDouble x = true ∨ isSmallInt x = true) (hy : isDouble y = true ∨ isSmallInt y = true)
    (hints : (isSmallInt x && isSmallInt y) = false) :
    arithCases arith host vm a x y ≠ .ok vm' := by
  intro hok
  unfold arithCases at hok
  rw [if_neg (by simp [hints])] at hok
  split at hok
  · next hdouble =>
    rcases bind_eq_ok.mp hok with ⟨_, hget, _⟩
    exact getDouble_ne_ok hfits (Bool.and_eq_true_iff.mp hdouble).1 hget
  · next hdoubles =>
    split at hok
    · next hdouble =>
      rcases bind_eq_ok.mp hok with ⟨_, hget, _⟩
      exact getDouble_ne_ok hfits (Bool.and_eq_true_iff.mp hdouble).1 hget
    · next hfirst =>
      split at hok
      · next hdouble =>
        rcases bind_eq_ok.mp hok with ⟨_, hget, _⟩
        exact getDouble_ne_ok hfits (Bool.and_eq_true_iff.mp hdouble).2 hget
      · next hsecond =>
        -- two numbers that are not both integers are in one of the cases
        grind

end VM

/-! ## Steps -/

section Steps

variable {host : Host} {sec : Sections} {vm : VM} {inst : Decoded} {x y : Word}

/-- A step that faults is no answer. -/
theorem not_answers_of_fault {why : Fault} (h : step host sec vm = .error (.fault why)) :
    ¬ Answers host sec vm inst := by
  rintro (⟨vm', _, _, _, hok, _⟩ | ⟨_, _, _, hstop, _⟩)
  · rw [h] at hok
    cases hok
  · rw [h] at hstop
    cases hstop

/-- A step that returns is an answer if it stores the result. -/
theorem answers_iff_of_ok {vm' : VM} {word : Word} (h : step host sec vm = .ok vm')
    (hx : vm.words[vm.base + inst.b]? = some x) (hy : vm.words[vm.base + inst.c]? = some y)
    (hword : vm'.words[vm.base + inst.a]? = some word) :
    Answers host sec vm inst ↔ IsResult host inst.op x y word := by
  constructor
  · rintro (⟨vm'', x', y', word', hok, hx', hy', hword', hresult⟩ | ⟨_, _, _, hstop, _⟩)
    · rw [h, Except.ok.injEq] at hok
      subst hok
      rw [hx, Option.some.injEq] at hx'
      rw [hy, Option.some.injEq] at hy'
      rw [hword, Option.some.injEq] at hword'
      rwa [hx', hy', hword']
    · rw [h] at hstop
      cases hstop
  · intro hresult
    exact .inl ⟨vm', x, y, word, h, hx, hy, hword, hresult⟩

/-- A step that stores a word is an answer if it gets that far and the word is the result. -/
theorem answers_iff_of_stores {word : Word}
    (h : VM.Stores vm inst.a word (step host sec vm))
    (hx : vm.words[vm.base + inst.b]? = some x) (hy : vm.words[vm.base + inst.c]? = some y) :
    Answers host sec vm inst ↔
      vm.base + inst.a < maxCapacity ∧ IsResult host inst.op x y word := by
  unfold VM.Stores at h
  by_cases hreach : vm.base + inst.a < maxCapacity
  · rw [if_pos hreach] at h
    rcases h with ⟨vm', hok, hmoves, _⟩
    have hword : vm'.words[vm.base + inst.a]? = some word := by
      rw [hmoves.of_assign.1]
      exact getElem?_assign_self ..
    rw [answers_iff_of_ok hok hx hy hword]
    simp [hreach]
  · rw [if_neg hreach] at h
    exact iff_of_false (not_answers_of_fault h) (fun hboth => hreach hboth.1)

/-- An error that leaves the slots alone is an answer. -/
theorem answers_of_exit {vm' : VM} {printed : List String}
    (h : step host sec vm = .error (.exit 1 vm' printed)) (hwords : vm'.words = vm.words) :
    Answers host sec vm inst :=
  .inr ⟨1, vm', printed, h, by decide, hwords⟩

/-- A step that neither returns nor exits is no answer. -/
theorem not_answers_of_ends (hok : ∀ vm', step host sec vm ≠ .ok vm')
    (hends : Ends (step host sec vm) (fun _ => True) (fun _ _ _ => False)) :
    ¬ Answers host sec vm inst := by
  rintro (⟨vm', _, _, _, hreturns, _⟩ | ⟨_, _, _, hstop, _⟩)
  · exact hok vm' hreturns
  · exact hends.exit hstop

/-- An arithmetic instruction on two integers. -/
theorem answers_integers_iff (h : vm.WellFormed host)
    (hinst : current? host sec vm = some inst) (hop : (integerOp? inst.op).isSome = true)
    (hx : vm.words[vm.base + inst.b]? = some x) (hy : vm.words[vm.base + inst.c]? = some y)
    (hintx : isSmallInt x = true) (hinty : isSmallInt y = true) :
    Answers host sec vm inst ↔
      vm.base + inst.a < maxCapacity ∧
        Representable inst.op (getSmallInt x) (getSmallInt y) := by
  rcases Option.isSome_iff_exists.mp hop with ⟨int, hint⟩
  have hstores := h.toWellFramed.step_integers hinst hint hx hy hintx hinty
  unfold VM.StoresInt at hstores
  cases hnum : int (getSmallInt x) (getSmallInt y) with
  | none =>
      rw [hnum] at hstores
      refine iff_of_false (not_answers_of_fault hstores) ?_
      rintro ⟨_, hrepresentable⟩
      have htraps := (integerOp_eq_none_iff hint).mp hnum
      unfold Representable at hrepresentable
      split at hrepresentable
      · have hfalse := hrepresentable.1 htraps.1
        rw [htraps.2] at hfalse
        cases hfalse
      · next hnone =>
        have hsome : (integerOp? inst.op).isSome = (exactOp? inst.op).isSome :=
          integerOp?_isSome_iff
        rw [hop, hnone] at hsome
        cases hsome
  | some num =>
      rw [hnum] at hstores
      rw [answers_iff_of_stores hstores hx hy, IsResult, if_pos (by simp [hintx, hinty]),
        VM.stored_isResult_iff hint hnum]

/-- The comparison behind its operands. -/
theorem execIseq_operands (host : Host) (a : Nat) {b c : Nat} (h : vm.WellFramed)
    (hb : b < 256) (hc : c < 256) :
    ∃ mid, VM.Acts vm [] mid ∧
      match vm.words[vm.base + b]?, vm.words[vm.base + c]? with
      | some x, some y => execIseq host vm a b c =
          if isSmallInt x && isSmallInt y then
            mid.next.set a (Slot.toBool (getSmallInt x == getSmallInt y))
          else if isDouble x && isDouble y then do
            let (vm, b) ← mid.next.getDouble host x
            let (vm, c) ← vm.getDouble host y
            vm.set a (Slot.toBool (host.float.eq b c))
          else .error (.exit 1 mid.next
            ["Type Error ISEQ can only called with all Ints or all Double"])
      | _, _ => ∃ printed, execIseq host vm a b c = .error (.exit 1 mid printed) :=
  h.operands_spec (by omega) (by omega) fun vm x y =>
    if isSmallInt x && isSmallInt y then
      vm.next.set a (Slot.toBool (getSmallInt x == getSmallInt y))
    else if isDouble x && isDouble y then do
      let (vm, b) ← vm.next.getDouble host x
      let (vm, c) ← vm.getDouble host y
      vm.set a (Slot.toBool (host.float.eq b c))
    else .error (.exit 1 vm.next
      ["Type Error ISEQ can only called with all Ints or all Double"])

/-- Two integers are compared, two doubles are not, and everything else is an error. -/
theorem answers_iseq_iff (h : vm.WellFormed host) (hinst : current? host sec vm = some inst)
    (hop : inst.op = some .iseq) (hx : vm.words[vm.base + inst.b]? = some x)
    (hy : vm.words[vm.base + inst.c]? = some y) :
    Answers host sec vm inst ↔
      if isSmallInt x && isSmallInt y then vm.base + inst.a < maxCapacity
      else (isDouble x && isDouble y) = false := by
  rcases VM.current?_lt hinst with ⟨ha, hb, hc⟩
  rcases execIseq_operands host inst.a h.toWellFramed hb hc with ⟨mid, hmid, heq⟩
  have hstep : step host sec vm = execIseq host vm inst.a inst.b inst.c := by
    rw [VM.step_eq_execute hinst, hop]
    rfl
  rw [hx, hy] at heq
  simp only [← hstep] at heq
  by_cases hints : (isSmallInt x && isSmallInt y) = true
  · rw [if_pos hints] at heq ⊢
    have hstores := VM.next_set_stores h.toWellFramed (by omega : inst.a < 2 ^ 20) hmid
      (Slot.toBool (getSmallInt x == getSmallInt y))
    rw [← heq] at hstores
    rw [answers_iff_of_stores hstores hx hy, IsResult, if_pos hints, hop]
    exact and_iff_left rfl
  · rw [if_neg hints] at heq ⊢
    by_cases hdoubles : (isDouble x && isDouble y) = true
    · rw [if_pos hdoubles] at heq
      rw [Bool.and_eq_true] at hdoubles
      have hblocks : mid.next.blocks = vm.blocks := congrArg Rest.blocks hmid.rest
      refine iff_of_false (not_answers_of_ends ?_ ?_) (by simp [hdoubles])
      · intro vm' hok
        rw [heq] at hok
        rcases bind_eq_ok.mp hok with ⟨_, hget, _⟩
        exact VM.getDouble_ne_ok (hblocks ▸ h.fits) hdoubles.1 hget
      · rw [heq]
        refine (VM.getDouble_ends rfl host hdoubles.1).bind fun first _ => ?_
        refine (VM.getDouble_ends rfl host hdoubles.2).bind fun second _ => ?_
        exact (VM.set_ends rfl _ _).mono (fun _ _ => trivial) (fun _ _ _ hstop => hstop)
    · rw [if_neg hdoubles] at heq
      exact iff_of_true (answers_of_exit heq hmid.words_eq) (by simpa using hdoubles)

/-- An operation on other operands never answers: with a double it does not return, and
without a number it steps on with the old target. -/
theorem not_answers_arith (h : vm.WellFormed host) (hb : inst.b < 256) (hc : inst.c < 256)
    {arith : Arith} (heq : step host sec vm = execArith arith host vm inst.a inst.b inst.c)
    (hx : vm.words[vm.base + inst.b]? = some x) (hy : vm.words[vm.base + inst.c]? = some y)
    (hints : (isSmallInt x && isSmallInt y) = false) : ¬ Answers host sec vm inst := by
  rcases h.toWellFramed.execArith_operands host inst.a hb hc arith with ⟨mid, hmid, hcases⟩
  rw [hx, hy] at hcases
  simp only [← heq] at hcases
  have hblocks : mid.blocks = vm.blocks := congrArg Rest.blocks hmid.rest
  rintro (⟨vm', x', y', word, hok, hx', hy', _, hresult⟩ | ⟨status, last, printed, hstop, _⟩)
  · rw [hx, Option.some.injEq] at hx'
    rw [hy, Option.some.injEq] at hy'
    subst hx' hy'
    rw [IsResult, if_neg (by simp [hints])] at hresult
    rcases hresult with ⟨u, v, hu, hv, _⟩
    rw [hcases] at hok
    rcases bind_eq_ok.mp hok with ⟨done, hdone, _⟩
    exact VM.arithCases_ne_ok (hblocks ▸ h.fits) arith (VM.slotNumber_eq_some hu)
      (VM.slotNumber_eq_some hv) hints hdone
  · have hends : Ends (step host sec vm) (fun _ => True) (fun _ _ _ => False) := by
      rw [hcases]
      exact (arithCases_ends rfl arith x y).bind fun _ _ => trivial
    exact hends.exit hstop

/-- The remainder of other operands is an error. -/
theorem answers_modvv (h : vm.WellFormed host) (hb : inst.b < 256) (hc : inst.c < 256)
    (heq : step host sec vm = execModvv vm inst.a inst.b inst.c)
    (hx : vm.words[vm.base + inst.b]? = some x) (hy : vm.words[vm.base + inst.c]? = some y)
    (hints : (isSmallInt x && isSmallInt y) = false) : Answers host sec vm inst := by
  rcases h.toWellFramed.execModvv_operands inst.a hb hc with ⟨mid, hmid, hcases⟩
  rw [hx, hy] at hcases
  simp only [← heq] at hcases
  rw [if_neg (by simp [hints])] at hcases
  exact answers_of_exit hcases hmid.words_eq

/-- An arithmetic instruction on other operands answers only if it is {lit}`MODVV`. -/
theorem answers_others_iff (h : vm.WellFormed host) (hinst : current? host sec vm = some inst)
    (hop : (integerOp? inst.op).isSome = true) (hx : vm.words[vm.base + inst.b]? = some x)
    (hy : vm.words[vm.base + inst.c]? = some y)
    (hints : (isSmallInt x && isSmallInt y) = false) :
    Answers host sec vm inst ↔ inst.op = some .modvv := by
  rcases VM.current?_lt hinst with ⟨_, hb, hc⟩
  have hstep := VM.step_eq_execute hinst
  rcases VM.arith_or_modvv hop with ⟨arith, _, hne, hexec⟩ | hmodvv
  · rw [hexec] at hstep
    exact iff_of_false (not_answers_arith h hb hc hstep hx hy hints) hne
  · rw [hmodvv] at hstep
    exact iff_of_true (answers_modvv h hb hc hstep hx hy hints) hmodvv

/-- A step that exits without an operand answers. -/
theorem answers_of_operands {post : VM → Word → Word → Prop}
    (hmissing : vm.words[vm.base + inst.b]? = none ∨ vm.words[vm.base + inst.c]? = none)
    (h : ∃ mid, VM.Acts vm [] mid ∧
      match vm.words[vm.base + inst.b]?, vm.words[vm.base + inst.c]? with
      | some x, some y => post mid x y
      | _, _ => ∃ printed, step host sec vm = .error (.exit 1 mid printed)) :
    Answers host sec vm inst := by
  rcases h with ⟨mid, hmid, hcases⟩
  split at hcases
  · next hx hy => simp [hx, hy] at hmissing
  · rcases hcases with ⟨printed, hexit⟩
    exact answers_of_exit hexit hmid.words_eq

/-- An operand behind the last slot is an error. -/
theorem answers_of_missing (h : vm.WellFormed host) (hinst : current? host sec vm = some inst)
    (hop : computes inst.op = true)
    (hmissing : vm.words[vm.base + inst.b]? = none ∨ vm.words[vm.base + inst.c]? = none) :
    Answers host sec vm inst := by
  rcases VM.current?_lt hinst with ⟨_, hb, hc⟩
  have hstep := VM.step_eq_execute hinst
  by_cases hiseq : inst.op = some .iseq
  · apply answers_of_operands hmissing
    rw [hstep, hiseq]
    exact execIseq_operands host inst.a h.toWellFramed hb hc
  · have hinteger : (integerOp? inst.op).isSome = true := by
      rw [integerOp?_isSome_iff]
      simpa [computes, hiseq] using hop
    rcases VM.arith_or_modvv hinteger with ⟨arith, _, _, hexec⟩ | hmodvv
    · apply answers_of_operands hmissing
      rw [hstep, hexec]
      exact h.toWellFramed.execArith_operands host inst.a hb hc arith
    · apply answers_of_operands hmissing
      rw [hstep, hmodvv]
      exact h.toWellFramed.execModvv_operands inst.a hb hc

end Steps

/-- An instruction of a reachable state that computes with two slots answers exactly in
the states described. -/
theorem answers_iff {host : Host} {sec : Sections} {vm : VM} {inst : Decoded}
    (h : Reachable host sec vm) (hinst : current? host sec vm = some inst)
    (hop : computes inst.op = true) : Answers host sec vm inst ↔ AnswersWhen vm inst := by
  have hvm := h.wellFormed
  unfold AnswersWhen
  cases hx : vm.words[vm.base + inst.b]? with
  | none => exact iff_of_true (answers_of_missing hvm hinst hop (.inl hx)) trivial
  | some x =>
      cases hy : vm.words[vm.base + inst.c]? with
      | none => exact iff_of_true (answers_of_missing hvm hinst hop (.inr hy)) trivial
      | some y =>
          dsimp only
          by_cases hiseq : inst.op = some .iseq
          · rw [answers_iseq_iff hvm hinst hiseq hx hy]
            by_cases hints : (isSmallInt x && isSmallInt y) = true
            · simp [hints, hiseq, Representable, exactOp?]
            · simp [hints, hiseq]
          · have hinteger : (integerOp? inst.op).isSome = true := by
              rw [integerOp?_isSome_iff]
              simpa [computes, hiseq] using hop
            by_cases hints : (isSmallInt x && isSmallInt y) = true
            · rw [if_pos hints]
              rw [Bool.and_eq_true] at hints
              exact answers_integers_iff hvm hinst hinteger hx hy hints.1 hints.2
            · rw [if_neg hints]
              rw [answers_others_iff hvm hinst hinteger hx hy (by simpa using hints)]
              simp [hiseq]

/-! ## Programs -/

/-- A program that adds two integers. -/
def threePlusFour : CvmbFile where
  sections := [.instructions [.ad Opcode.cshort.number 0 3, .ad Opcode.cshort.number 1 4,
    .abc Opcode.addvv.number 2 0 1], .cint []]
  nodup := by decide
  wellFormed := by decide

def threePlusFourHost : Host :=
  bumpHost threePlusFour (by decide)

def threePlusFourState : VM :=
  stateAfter threePlusFourHost (loadfile threePlusFourHost) 2

/-- The sum of two integers is stored. -/
theorem threePlusFour_answers :
    Answers threePlusFourHost (loadfile threePlusFourHost) threePlusFourState
      ⟨some .addvv, 2, 0, 1, 1#16⟩ := by
  have hreach : Reachable threePlusFourHost (loadfile threePlusFourHost) threePlusFourState :=
    reachable_stateAfter (by decide)
  refine (answers_iff hreach (by decide) (by decide)).mpr ?_
  have hx : threePlusFourState.words[threePlusFourState.base + 0]? = some (toSmallInt 3#32) := by
    decide
  have hy : threePlusFourState.words[threePlusFourState.base + 1]? = some (toSmallInt 4#32) := by
    decide
  unfold AnswersWhen
  dsimp only
  rw [hx, hy]
  refine ⟨by decide, ?_, by decide, by decide⟩
  rintro ⟨⟩

/-- A program that adds nil to itself, into a slot that holds an integer. -/
def nilPlusNil : CvmbFile where
  sections := [.instructions [.ad Opcode.cnil.number 0 0, .ad Opcode.cshort.number 1 5,
    .abc Opcode.addvv.number 1 0 0], .cint []]
  nodup := by decide
  wellFormed := by decide

def nilPlusNilHost : Host :=
  bumpHost nilPlusNil (by decide)

def nilPlusNilState : VM :=
  stateAfter nilPlusNilHost (loadfile nilPlusNilHost) 2

/-- A program that divides one by zero. -/
def oneByZero : CvmbFile where
  sections := [.instructions [.ad Opcode.cshort.number 0 1, .ad Opcode.cshort.number 1 0,
    .abc Opcode.divvv.number 2 0 1], .cint []]
  nodup := by decide
  wellFormed := by decide

def oneByZeroHost : Host :=
  bumpHost oneByZero (by decide)

def oneByZeroState : VM :=
  stateAfter oneByZeroHost (loadfile oneByZeroHost) 2

/-- Reachable states in which an instruction does not answer: the sum of two nils leaves the
target as it was, and a division by zero traps. -/
theorem sumOfNils_not_answers :
    (∃ host sec vm inst, Reachable host sec vm ∧ current? host sec vm = some inst ∧
      inst.op = some .addvv ∧ ¬ Answers host sec vm inst ∧
      ∃ vm', step host sec vm = .ok vm' ∧ vm'.words = vm.words) ∧
    ∃ host sec vm inst, Reachable host sec vm ∧ current? host sec vm = some inst ∧
      inst.op = some .divvv ∧ ¬ Answers host sec vm inst := by
  constructor
  · have hreach : Reachable nilPlusNilHost (loadfile nilPlusNilHost) nilPlusNilState :=
      reachable_stateAfter (by decide)
    have hinst : current? nilPlusNilHost (loadfile nilPlusNilHost) nilPlusNilState =
        some ⟨some .addvv, 1, 0, 0, 0#16⟩ := by decide
    refine ⟨_, _, _, _, hreach, hinst, rfl, ?_, _, step_stateAfter (by decide) (by decide), ?_⟩
    · have hothers := answers_others_iff (x := getNil) (y := getNil) hreach.wellFormed hinst
        (by decide) (by decide) (by decide) (by decide)
      exact fun hanswers => absurd (hothers.mp hanswers) (by decide)
    · decide
  · have hreach : Reachable oneByZeroHost (loadfile oneByZeroHost) oneByZeroState :=
      reachable_stateAfter (by decide)
    have hinst : current? oneByZeroHost (loadfile oneByZeroHost) oneByZeroState =
        some ⟨some .divvv, 2, 0, 1, 1#16⟩ := by decide
    refine ⟨_, _, _, _, hreach, hinst, rfl, ?_⟩
    have hintegers := answers_integers_iff (x := toSmallInt 1#32) (y := toSmallInt 0#32)
      hreach.wellFormed hinst (by decide) (by decide) (by decide) (by decide) (by decide)
    rintro hanswers
    have htraps := (hintegers.mp hanswers).2.1 (by decide)
    exact absurd htraps (by decide)

end ClojitCvm
