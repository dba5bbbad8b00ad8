import ClojitCvm.Machine.BumpHost
import ClojitCvm.Machine.Effects

/-!
# The program counter

Every case of the switch moves the program counter by hand.  This file says where each
instruction should go, and which instructions do: all but {lit}`LOOP`, whose case has no
increment.

Main results:

- Theorem {lit}`VM.Effected.pc_eq`: where an instruction goes if it is no {lit}`LOOP`.
- Theorem {lit}`advances_iff`: an instruction word goes where it should, and changes
  something unless it is a jump by nothing, exactly when it is no {lit}`LOOP`.
-/

namespace ClojitCvm

open FrameStack Slot

/-! ## Where an instruction should go -/

/-- A word of the running frame, which the instructions that return have. -/
def VM.slotAt (vm : VM) (i : Nat) : Word :=
  (vm.words[vm.base + i]?).getD 0#64

theorem VM.slotAt_of_getElem? {vm : VM} {i : Nat} {word : Word}
    (h : vm.words[vm.base + i]? = some word) : vm.slotAt i = word := by
  rw [slotAt, h]
  rfl

/-- The program counter behind an instruction.  Address zero is no function: a call takes
it for that of a builtin. -/
def nextPc (vm : VM) (inst : Decoded) : BitVec 32 :=
  match inst.op with
  | some .jump => vm.pc + inst.d.signExtend 32
  | some .jumpf =>
      if isFalsy (vm.slotAt inst.a) then vm.pc + inst.d.signExtend 32 else vm.pc + 1
  | some .jumpt =>
      if isTruthy (vm.slotAt inst.a) then vm.pc + inst.d.signExtend 32 else vm.pc + 1
  | some .call =>
      let fnSlot := vm.slotAt (inst.a + 1)
      if isFnew fnSlot ∧ getFnew fnSlot ≠ 0#16 then (getFnew fnSlot).setWidth 32 else vm.pc + 1
  | some .ret => getSmallInt (vm.slotAt 0) + 1
  | _ => vm.pc + 1

/-- The three jumps. -/
def isJump : Option Opcode → Bool
  | some op => op ∈ [.jump, .jumpf, .jumpt]
  | none => false

/-- The instructions that can go somewhere else than to the next one. -/
def transfers : Option Opcode → Bool
  | some op => op ∈ [.jump, .jumpf, .jumpt, .call, .ret]
  | none => false

theorem nextPc_of_not_transfers (vm : VM) {inst : Decoded} (h : transfers inst.op = false) :
    nextPc vm inst = vm.pc + 1 := by
  rcases inst with ⟨_ | op, a, b, c, d⟩
  · rfl
  · cases op <;> first | rfl | cases h

theorem not_transfers_of_skips {op : Option Opcode} (h : skips op = true) :
    transfers op = false := by
  rcases op with _ | op
  · rfl
  · cases op <;> first | rfl | cases h

theorem not_transfers_of_constant? {sec : Sections} {op : Option Opcode} {d : BitVec 16}
    {word : Word} (h : constant? sec op d = some word) : transfers op = false := by
  rcases op with _ | op
  · rfl
  · cases op <;> first | rfl | cases h

theorem not_transfers_of_integerOp? {op : Option Opcode} (h : (integerOp? op).isSome) :
    transfers op = false := by
  rcases op with _ | op
  · rfl
  · cases op <;> first | rfl | cases h

/-- The call of a builtin steps on. -/
theorem nextPc_of_builtin {vm : VM} {a b c : Nat} {d : BitVec 16} {fnSlot : Word}
    (hfn : vm.words[vm.base + (a + 1)]? = some fnSlot)
    (hfunc : calledFunc fnSlot = some 0#16) :
    nextPc vm ⟨some .call, a, b, c, d⟩ = vm.pc + 1 := by
  simp only [nextPc, VM.slotAt_of_getElem? hfn]
  rw [if_neg]
  rintro ⟨hfnew, hne⟩
  rw [calledFunc, if_pos hfnew] at hfunc
  exact hne (Option.some.inj hfunc)

namespace VM

variable {host : Host} {sec : Sections} {vm vm' : VM} {inst : Decoded}

/-- The effect of an instruction on the program counter. -/
theorem Effected.pc_eq (h : Effected host sec vm inst.op inst.a inst.b inst.c inst.d vm')
    (hloop : inst.op ≠ some .loop) : vm'.pc = nextPc vm inst := by
  rcases inst with ⟨op, a, b, c, d⟩
  rcases h with ⟨actions, heffect, -⟩
  change vm'.rest.pc = _
  dsimp only at heffect hloop
  generalize vm'.rest = rest at heffect
  have hnext (hop : transfers op = false) : vm.pc + 1 = nextPc vm ⟨op, a, b, c, d⟩ :=
    (nextPc_of_not_transfers vm hop).symm
  cases heffect with
  | skip hop => exact hnext (not_transfers_of_skips hop)
  | loop => exact absurd rfl hloop
  | jump => rfl
  | branch hslot htaken =>
      unfold jumpTaken? at htaken
      split at htaken
      · cases htaken
        simp only [nextPc, slotAt_of_getElem? hslot]
        split <;> rfl
      · cases htaken
        simp only [nextPc, slotAt_of_getElem? hslot]
        split <;> rfl
      · cases htaken
  | constant hop => exact hnext (not_transfers_of_constant? hop)
  | arith hop => exact hnext (not_transfers_of_integerOp? (by rw [hop]; rfl))
  | arithSkip hop => exact hnext (not_transfers_of_integerOp? hop)
  | call hfn hfunc hne =>
      simp only [nextPc, slotAt_of_getElem? hfn]
      unfold calledFunc at hfunc
      split at hfunc
      · next hfnew =>
        cases hfunc
        rw [if_pos ⟨hfnew, hne⟩]
      · split at hfunc
        · cases hfunc
          exact absurd rfl hne
        · cases hfunc
  | builtin hfn hfunc _ => exact (nextPc_of_builtin hfn hfunc).symm
  | ret hslot hvalue => rw [nextPc, slotAt_of_getElem? (i := 0) hslot]
  | _ => rfl

/-- A call of a function, if it returns, goes to the function's address.  The call of
address zero is that of a builtin at address zero, which there is not. -/
theorem Effected.pc_of_function {a b c : Nat} {d : BitVec 16}
    (h : Effected host sec vm (some .call) a b c d vm') {func : BitVec 16}
    (hfn : vm.slotAt (a + 1) = toFnew func) (hfnew : isFnew (toFnew func) = true) :
    vm'.pc = func.setWidth 32 := by
  by_cases hzero : func = 0#16
  · subst hzero
    rcases h with ⟨actions, heffect, -⟩
    generalize vm'.rest = rest at heffect
    cases heffect with
    | skip hop => cases hop
    | branch _ htaken => cases htaken
    | constant hop => cases hop
    | arith hop => cases hop
    | arithSkip hop => cases hop
    | call hslot hfunc hne =>
        rw [slotAt_of_getElem? hslot] at hfn
        subst hfn
        rw [calledFunc, if_pos hfnew, getFnew_toFnew] at hfunc
        cases hfunc
        exact absurd rfl hne
    | builtin hslot hfunc hprintln =>
        rw [slotAt_of_getElem? hslot] at hfn
        subst hfn
        exact absurd hprintln.symm host.println_ne_zero
  · have hpc : vm'.pc = nextPc vm ⟨some .call, a, b, c, d⟩ := Effected.pc_eq h nofun
    simp only [nextPc, hfn, getFnew_toFnew] at hpc
    rwa [if_pos ⟨hfnew, hzero⟩] at hpc

theorem add_one_ne_self (x : BitVec 32) : x + 1 ≠ x := by
  intro h
  have hone : (1 : BitVec 32) = 0 := add_eq_left.mp h
  exact absurd hone (by decide)

/-- Only a jump by zero stays where it is. -/
theorem eq_zero_of_add_signExtend {x : BitVec 32} {d : BitVec 16}
    (h : x + d.signExtend 32 = x) : d = 0#16 := by
  have hlow := congrArg (BitVec.setWidth 16) (add_eq_left.mp h)
  rwa [TaggedWord.setWidth_signExtend _ (by decide)] at hlow

/-- The contexts are as many as the callers. -/
theorem length_callers (vm : VM) : vm.frames.callers.length = vm.contexts.length :=
  List.length_map _

/-- Behind the call of a function there is one more context. -/
theorem Moves.contexts_of_call {a : Nat} {word : Word} {ip : BitVec 32}
    (hmoves : Moves vm [.assign a word, .enter a ip] vm') :
    vm'.contexts.length = vm.contexts.length + 1 := by
  obtain ⟨mid, hassign, henter⟩ := Option.bind_eq_some_iff.mp hmoves.run
  cases hassign
  rw [Frames.run_singleton, Frames.act_enter_eq_some] at henter
  rw [← length_callers, henter.2, ← length_callers vm]
  exact List.length_append

/-- Behind a return there is one context less. -/
theorem Moves.contexts_of_ret {a : Nat} {word : Word}
    (hmoves : Moves vm [.assign 0 word, .truncate a, .leave] vm') :
    vm'.contexts.length + 1 = vm.contexts.length := by
  obtain ⟨mid, hassign, hrest⟩ := Option.bind_eq_some_iff.mp hmoves.run
  cases hassign
  obtain ⟨last, htruncate, hleave⟩ := Option.bind_eq_some_iff.mp hrest
  rw [Frames.act_truncate_eq_some] at htruncate
  rw [Frames.run_singleton, Frames.act_leave_eq_some] at hleave
  rcases hleave with ⟨caller, hcaller, heq⟩
  rw [htruncate.2] at hcaller heq
  rw [← length_callers, heq, ← length_callers vm]
  have hne : vm.frames.callers ≠ [] := by
    intro hnil
    have hlast : vm.frames.callers.getLast? = some caller := hcaller
    rw [hnil] at hlast
    cases hlast
  have hpos := List.length_pos_of_ne_nil hne
  change vm.frames.callers.dropLast.length + 1 = vm.frames.callers.length
  rw [List.length_dropLast]
  omega

theorem Effected.contexts_of_ret {a b c : Nat} {d : BitVec 16}
    (h : Effected host sec vm (some .ret) a b c d vm') :
    vm'.contexts.length + 1 = vm.contexts.length := by
  rcases h with ⟨actions, heffect, hmoves⟩
  generalize vm'.rest = rest at heffect
  cases heffect with
  | ret hslot hvalue => exact hmoves.contexts_of_ret
  | _ => contradiction

/-- A call adds a context and a return removes one, so what leaves program counter and
contexts alone is a jump by nothing. -/
theorem Effected.jump_of_still (h : Effected host sec vm inst.op inst.a inst.b inst.c inst.d vm')
    (hloop : inst.op ≠ some .loop) (hpc : vm'.pc = vm.pc) (hcontexts : vm'.contexts = vm.contexts) :
    isJump inst.op = true ∧ inst.d = 0#16 := by
  have heq := h.pc_eq hloop
  rw [hpc] at heq
  rcases inst with ⟨op, a, b, c, d⟩
  rcases h with ⟨actions, heffect, hmoves⟩
  have hnext (hstep : nextPc vm ⟨op, a, b, c, d⟩ = vm.pc + 1) :
      isJump op = true ∧ d = 0#16 := by
    rw [hstep] at heq
    exact absurd heq.symm (add_one_ne_self _)
  dsimp only at heffect hloop
  generalize vm'.rest = rest at heffect
  cases heffect with
  | skip hop => exact hnext (nextPc_of_not_transfers vm (not_transfers_of_skips hop))
  | loop => exact absurd rfl hloop
  | jump => exact ⟨rfl, eq_zero_of_add_signExtend heq.symm⟩
  | branch hslot htaken =>
      unfold jumpTaken? at htaken
      split at htaken
      · simp only [nextPc] at heq
        split at heq
        · exact ⟨rfl, eq_zero_of_add_signExtend heq.symm⟩
        · exact absurd heq.symm (add_one_ne_self _)
      · simp only [nextPc] at heq
        split at heq
        · exact ⟨rfl, eq_zero_of_add_signExtend heq.symm⟩
        · exact absurd heq.symm (add_one_ne_self _)
      · cases htaken
  | constant hop => exact hnext (nextPc_of_not_transfers vm (not_transfers_of_constant? hop))
  | arith hop =>
      exact hnext (nextPc_of_not_transfers vm (not_transfers_of_integerOp? (by rw [hop]; rfl)))
  | arithSkip hop => exact hnext (nextPc_of_not_transfers vm (not_transfers_of_integerOp? hop))
  | call hfn hfunc hne =>
      have hlength := hmoves.contexts_of_call
      rw [hcontexts] at hlength
      omega
  | builtin hfn hfunc _ => exact hnext (nextPc_of_builtin hfn hfunc)
  | ret hslot hvalue =>
      have hlength := hmoves.contexts_of_ret
      rw [hcontexts] at hlength
      omega
  | _ => exact hnext rfl

end VM

/-- If the instruction returns, it goes where it should.  A call of a function goes to its
address, and only a jump by nothing leaves program counter and contexts as they are. -/
def Advances (host : Host) (sec : Sections) (vm : VM) (inst : Decoded) : Prop :=
  ∀ vm', execute host sec vm inst.op inst.a inst.b inst.c inst.d = .ok vm' →
    vm'.pc = nextPc vm inst ∧
    (∀ func, inst.op = some .call → vm.slotAt (inst.a + 1) = toFnew func →
      isFnew (toFnew func) = true → vm'.pc = func.setWidth 32) ∧
    (vm'.pc = vm.pc → vm'.contexts = vm.contexts → isJump inst.op = true ∧ inst.d = 0#16)

/-- Only {lit}`LOOP` does not advance, in any state of any run. -/
theorem advances_iff {host : Host} {sec : Sections} {vm : VM} (h : Reachable host sec vm)
    (inst : BitVec 32) :
    Advances host sec vm (decode inst) ↔ (decode inst).op ≠ some .loop := by
  constructor
  · intro hadvances hloop
    have hstays : execute host sec vm (decode inst).op (decode inst).a (decode inst).b
        (decode inst).c (decode inst).d = .ok vm := by
      rw [hloop]
      rfl
    have hpc := (hadvances vm hstays).1
    rw [nextPc_of_not_transfers vm (by rw [hloop]; rfl)] at hpc
    exact VM.add_one_ne_self _ hpc.symm
  · intro hloop vm' hok
    have hlt := VM.decode_lt inst
    have hwf := h.wellFormed
    have heffect := VM.execute_effect hwf.toWellFramed hwf.fits hlt.1 hlt.2.1 hlt.2.2 hok
    refine ⟨heffect.pc_eq hloop, ?_, fun hpc hcontexts => heffect.jump_of_still hloop hpc hcontexts⟩
    intro func hcall hfn hfnew
    rw [hcall] at heffect
    exact heffect.pc_of_function hfn hfnew

/-- A {lit}`CALL` in the state before the first call of the program with nested calls. -/
theorem nestedCall_advances :
    Advances nestedHost (loadfile nestedHost) (nestedState 1) (decode 0x0000011D#32) :=
  (advances_iff (reachable_stateAfter (by decide)) 0x0000011D#32).mpr (by decide)

/-- A program that is one {lit}`LOOP`. -/
def loopForever : CvmbFile where
  sections := [.instructions [.ad Opcode.loop.number 0 0], .cint []]
  nodup := by decide
  wellFormed := by decide

def loopHost : Host :=
  bumpHost loopForever (by decide)

/-- The program stays in its first state for ever, without a jump. -/
theorem loopForever_stays :
    (∃ inst, instrAt loopHost (loadfile loopHost) (vmInit loopHost).pc = some inst ∧
      isJump (decode inst).op = false ∧
      ¬ Advances loopHost (loadfile loopHost) (vmInit loopHost) (decode inst)) ∧
      ∀ n, run loopHost (loadfile loopHost) n (vmInit loopHost) = .ok (vmInit loopHost) := by
  have hcurrent : current? loopHost (loadfile loopHost) (vmInit loopHost) =
      some ⟨some .loop, 0, 0, 0, 0⟩ := by decide
  have hstep : step loopHost (loadfile loopHost) (vmInit loopHost) = .ok (vmInit loopHost) := by
    rw [VM.step_eq_execute hcurrent]
    rfl
  constructor
  · rcases Option.map_eq_some_iff.mp hcurrent with ⟨inst, hinst, hdecode⟩
    refine ⟨inst, hinst, ?_, fun hadvances => ?_⟩
    · rw [hdecode]
      rfl
    · rw [hdecode] at hadvances
      have hjump := (hadvances (vmInit loopHost) rfl).2.2 rfl rfl
      cases hjump.1
  · intro n
    induction n with
    | zero => rfl
    | succ n ih =>
        rw [run, hstep]
        exact ih

end ClojitCvm
