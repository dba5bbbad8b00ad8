import ClojitCvm.Machine.BumpHost
import ClojitCvm.Machine.Effects

/-!
# The frame invariant

Every state of a run keeps its base inside the slots in use, the saved bases in order
and the arrays within their capacity.  Only a return drops slots, and no other
instruction reaches a slot below the base.

Main results:

- Theorem {lit}`VM.step_turn`: a step is a turn of the abstract machine.
- Theorem {lit}`frameInvariant_of_reachable`: the invariant of every reachable state, and
  what the steps from it do to slots.
-/

namespace ClojitCvm

open CellArray FrameStack Slot

namespace VM

variable {host : Host} {sec : Sections} {vm vm' : VM} {a b c : Nat} {d : BitVec 16}

/-! ## Steps as turns -/

theorem builtinCall_stays {f' : Frames (BitVec 32) Word}
    (hrun : vm.frames.run 0#64 (builtinCall vm.pc a) = some f') : vm.frames.Stays f' := by
  rcases Frames.run_append_eq_some.mp hrun with ⟨stored, hset, hcall⟩
  cases hset
  refine (Frames.Stays.assign _ _ _ _).trans (Frames.Stays.of_call ?_ hcall)
  intro action haction
  simp only [clears, List.mem_cons, List.mem_map] at haction
  rcases haction with rfl | ⟨k, _, rfl⟩
  · exact ⟨0, getNil, rfl⟩
  · exact ⟨k, getNil, rfl⟩

/-- An instruction other than a return advances in its frame or into a new one. -/
theorem Effect.advances {op : Option Opcode} {actions : List SlotAction} {rest : Rest}
    {f' : Frames (BitVec 32) Word} (hne : op ≠ some .ret)
    (heffect : Effect host sec vm a b c d op actions rest)
    (hrun : vm.frames.run 0#64 actions = some f') : vm.frames.Advances 0#64 f' := by
  cases heffect with
  | ret => exact absurd rfl hne
  | call hfn hfunc hfne =>
      rcases Option.bind_eq_some_iff.mp hrun with ⟨stored, hset, hrest⟩
      rcases Option.bind_eq_some_iff.mp hrest with ⟨entered, henter, hdone⟩
      cases hset
      cases hdone
      exact .inr ⟨_, _, _, Frames.Stays.assign _ _ _ _, henter⟩
  | builtin => exact .inl (builtinCall_stays hrun)
  | bulkmov hmoves =>
      refine .inl (Frames.Stays.of_run ?_ hrun)
      intro action haction
      rcases hmoves action haction with ⟨offset, word, heq, _⟩
      exact ⟨offset, word, heq⟩
  | _ => exact .inl (Frames.Stays.of_run (by simp) hrun)

/-- Every instruction is a turn. -/
theorem Effect.turn {op : Option Opcode} {actions : List SlotAction} {rest : Rest}
    {f' : Frames (BitVec 32) Word} (heffect : Effect host sec vm a b c d op actions rest)
    (hrun : vm.frames.run 0#64 actions = some f') : vm.frames.Turn 0#64 f' := by
  by_cases hne : op = some .ret
  · subst hne
    cases heffect with
    | ret => exact .inr ⟨_, _, hrun⟩
    | _ => contradiction
  · exact .inl (Effect.advances hne heffect hrun)

/-- A step is a turn of the abstract machine. -/
theorem step_turn (h : vm.WellFormed host) (hok : step host sec vm = .ok vm') :
    vm.frames.Turn 0#64 vm'.frames := by
  rcases step_effect h.toWellFramed h.fits hok with
    ⟨inst, _, _, _, _, actions, heffect, hmoves⟩
  exact Effect.turn heffect hmoves.run

/-- A run is a sequence of turns. -/
theorem run_turns {n : Nat} (h : vm.WellFormed host) (hok : run host sec n vm = .ok vm') :
    Relation.ReflTransGen (Frames.Turn 0#64) vm.frames vm'.frames := by
  induction n generalizing vm with
  | zero =>
      cases hok
      exact .refl
  | succ n ih =>
      rcases bind_eq_ok.mp hok with ⟨next, hstep, hrest⟩
      exact .head (step_turn h hstep) (ih (h.step hstep) hrest)

/-- An instruction other than a return leaves the slots below the base in use and as they
are. -/
theorem step_below {inst : Decoded} (h : vm.WellFormed host)
    (hinst : current? host sec vm = some inst) (hne : inst.op ≠ some .ret)
    (hok : step host sec vm = .ok vm') {i : Nat} (hi : i < vm.base) :
    vm'.words[i]? = vm.words[i]? := by
  rcases h.effect hinst hok with ⟨_, _, _, actions, heffect, hmoves⟩
  exact (Effect.advances hne heffect hmoves.run).below h.ordered hi

/-! ## Words and cells -/

theorem WellFramed.size_eq (h : vm.WellFramed) : vm.slots.size = vm.words.length :=
  h.slots.size_eq

theorem WellFramed.load_slot (h : vm.WellFramed) {i : Nat} (hi : i < vm.slots.size) :
    load vm.slots.data i = vm.words[i]? :=
  h.slots.holds.load (h.size_eq ▸ hi)

theorem WellFramed.top_eq (h : vm.WellFramed) : vm.stack.top = vm.contexts.length :=
  h.stack.top_eq

theorem WellFramed.load_context (h : vm.WellFramed) {i : Nat} (hi : (i : Int) < vm.stack.top) :
    load vm.stack.data i = vm.contexts[i]? := by
  rw [h.top_eq] at hi
  exact h.stack.holds.load (by omega)

end VM

/-! ## The invariant -/

/-- The invariant in terms of the arrays of the machine. -/
structure FrameInvariant (vm : VM) : Prop where
  base_le_size : vm.base ≤ vm.slots.size
  size_le_capacity : vm.slots.size ≤ vm.slots.capacity
  written : ∀ i < vm.slots.size, ∃ word, load vm.slots.data i = some word
  top_nonneg : 0 ≤ vm.stack.top
  top_le_capacity : vm.stack.top ≤ vm.stack.capacity
  saved : ∀ i : Nat, i < vm.stack.top → ∃ ctx, load vm.stack.data i = some ctx
  bases_sorted : ∀ (i j : Nat) ctx ctx', i < j → j < vm.stack.top →
    load vm.stack.data i = some ctx → load vm.stack.data j = some ctx' →
    ctx.baseSlot ≤ ctx'.baseSlot
  top_base_le : ∀ ctx, 0 < vm.stack.top →
    load vm.stack.data (vm.stack.top - 1).toNat = some ctx → ctx.baseSlot ≤ vm.base

theorem VM.WellFramed.frameInvariant {vm : VM} (h : vm.WellFramed) : FrameInvariant vm where
  base_le_size := h.size_eq ▸ h.base_le
  size_le_capacity := h.slots.size_le_capacity
  written := by
    intro i hi
    rw [h.load_slot hi]
    exact ⟨_, List.getElem?_eq_getElem (h.size_eq ▸ hi)⟩
  top_nonneg := h.stack.top_nonneg
  top_le_capacity := h.stack.top_le_capacity
  saved := by
    intro i hi
    have htop := h.top_eq
    rw [h.load_context hi]
    exact ⟨_, List.getElem?_eq_getElem (by omega)⟩
  bases_sorted := by
    intro i j ctx ctx' hij hj hctx hctx'
    rw [h.load_context (by omega), List.getElem?_eq_some_iff] at hctx
    rw [h.load_context hj, List.getElem?_eq_some_iff] at hctx'
    rcases hctx with ⟨hi, rfl⟩
    rcases hctx' with ⟨hj, rfl⟩
    have hsorted := (List.pairwise_append.mp h.ordered.sorted).1
    exact List.pairwise_iff_getElem.mp (List.pairwise_map.mp hsorted) i j hi hj hij
  top_base_le := by
    intro ctx hpos hctx
    rw [h.load_context (by omega)] at hctx
    exact h.ordered.caller_le ctx.frame
      (List.mem_map_of_mem (List.mem_of_getElem? hctx))

/-! ## Returns -/

namespace VM

variable {host : Host} {sec : Sections} {vm : VM} {a i : Nat}

/-- A read keeps the words, and where it stops, behind the slots in use, it keeps their number
too. -/
theorem WellFramed.get_keeps (h : vm.WellFramed) (hi : i < 2 ^ 20) :
    Ends (vm.get i) (fun read => Acts vm [] read.1 ∧ vm.words[vm.base + i]? = some read.2)
      fun _ last _ => vm.slots.size ≤ vm.base + i ∧ last.slots.size = vm.slots.size := by
  rcases h.get_spec hi with ⟨mid, hmid, hread⟩
  cases hword : vm.words[vm.base + i]? with
  | some word =>
      rw [hword] at hread
      rw [hread]
      exact ⟨hmid, rfl⟩
  | none =>
      rw [hword] at hread
      rcases hread with ⟨printed, hread⟩
      rw [hread]
      have hbehind : vm.slots.size ≤ vm.base + i :=
        h.size_eq ▸ List.getElem?_eq_none_iff.mp hword
      have hsize : mid.slots.size = vm.slots.size := by
        rw [(hmid.wellFramed h).size_eq, h.size_eq, hmid.words_eq]
      exact ⟨hbehind, hsize⟩

/-- A move to the first slot of a frame that has one keeps the size. -/
theorem WellFramed.move_keeps (h : vm.WellFramed) (ha : a < 256)
    (hfirst : vm.base < vm.slots.size) :
    Ends (vm.move 0 a) (fun written => written.WellFramed ∧ written.base = vm.base ∧
        written.slots.size = vm.slots.size ∧ vm.base + a < vm.slots.size)
      fun _ last _ => vm.slots.size ≤ vm.base + a ∧ last.slots.size = vm.slots.size := by
  refine (h.get_keeps (by omega)).bind ?_
  rintro ⟨mid, value⟩ ⟨hmid, hvalue⟩
  have hframed := hmid.wellFramed h
  have hlt : vm.base + a < vm.slots.size :=
    h.size_eq ▸ (List.getElem?_eq_some_iff.mp hvalue).1
  change Ends (mid.set 0 value) _ _
  cases hset : mid.set 0 value with
  | error halt =>
      have hspec := hframed.set_spec (show 0 < 2 ^ 20 by decide) value
      split at hspec
      · rcases hspec with ⟨written, hok, _⟩
        rw [hset] at hok
        cases hok
      · rw [hset] at hspec
        cases hspec
        exact trivial
  | ok written =>
      have hacts := set_acts hframed (by decide) hset
      rcases hacts.of_assign with ⟨hwords, hbase⟩
      have hframes := hacts.wellFramed hframed
      have hmidbase : mid.base = vm.base := hmid.base_eq
      refine ⟨hframes, hbase.trans hmidbase, ?_, hlt⟩
      rw [hframes.size_eq, hwords, length_assign, hmid.words_eq, hmidbase, ← h.size_eq]
      omega

theorem popContext_slots (vm : VM) :
    Ends vm.popContext (fun popped => popped.1.slots = vm.slots)
      fun _ last _ => last.slots = vm.slots := by
  unfold popContext onStack
  rcases pop vm.stack with (⟨status, stack, printed⟩ | why) | ⟨stack, ctx⟩
  · exact rfl
  · exact trivial
  · exact rfl

/-- The assignment of the size in a return drops at least one slot.  A return that stops at
its slots does not get as far, and one that stops at the empty context stack does. -/
theorem WellFramed.execRet_size (h : vm.WellFramed) (ha : a < 256) :
    Ends (execRet vm a)
      (fun vm' => vm'.slots.size = vm.base + a ∧ vm'.slots.size < vm.slots.size)
      fun _ last _ => vm.slots.size ≤ vm.base + a ∧ last.slots.size = vm.slots.size ∨
        last.slots.size = vm.base + a ∧ last.slots.size < vm.slots.size := by
  refine ((h.get_keeps (show 0 < 2 ^ 20 by decide)).mono (fun _ hpost => hpost)
    fun _ _ _ hstop => .inl ⟨Nat.le_trans hstop.1 (by omega), hstop.2⟩).bind ?_
  rintro ⟨read, slot⟩ ⟨hread, hslot⟩
  have hframed := hread.wellFramed h
  have hsize : read.slots.size = vm.slots.size := by
    rw [hframed.size_eq, h.size_eq, hread.words_eq]
  have hfirst : read.base < read.slots.size := by
    rw [hread.base_eq, hsize, h.size_eq]
    exact (List.getElem?_eq_some_iff.mp hslot).1
  refine ((hframed.move_keeps ha hfirst).mono (fun _ hpost => hpost) ?_).bind ?_
  · intro _ last _ hstop
    rw [hsize, hread.base_eq] at hstop
    exact .inl hstop
  rintro written ⟨hwritten, hbase, hkept, hlt⟩
  have htruncated : (written.truncate a).slots.size = vm.base + a := by
    change (written.base + a) % 2 ^ 32 = vm.base + a
    rw [hwritten.index_eq (by omega), hbase, hread.base_eq]
  have hdrops : (written.truncate a).slots.size < vm.slots.size := by
    rw [htruncated, ← hread.base_eq, ← hsize]
    exact hlt
  refine ((popContext_slots (written.truncate a)).mono (fun _ hpost => hpost) ?_).bind ?_
  · intro _ last _ hslots
    rw [hslots]
    exact .inr ⟨htruncated, hdrops⟩
  · rintro ⟨popped, caller⟩ hslots
    change popped.slots.size = _ ∧ popped.slots.size < _
    rw [hslots]
    exact ⟨htruncated, hdrops⟩

end VM

/-- Every reachable state has the invariant.  The assignment of the size in a return drops at
least one slot, whether the return comes to its end or stops at an empty context stack behind
the assignment; it is not reached if an operand is behind the slots in use.  Every other
instruction leaves the slots below the base in use and as they are. -/
theorem frameInvariant_of_reachable {host : Host} {sec : Sections} {vm : VM}
    (hreach : Reachable host sec vm) :
    FrameInvariant vm ∧ ∀ inst, current? host sec vm = some inst →
      (inst.op = some .ret →
        (∀ vm', step host sec vm = .ok vm' →
          vm'.slots.size = vm.base + inst.a ∧ vm'.slots.size < vm.slots.size) ∧
        ∀ status last printed, step host sec vm = .error (.exit status last printed) →
          vm.slots.size ≤ vm.base + inst.a ∧ last.slots.size = vm.slots.size ∨
            last.slots.size = vm.base + inst.a ∧ last.slots.size < vm.slots.size) ∧
      (inst.op ≠ some .ret → ∀ vm', step host sec vm = .ok vm' → ∀ i < vm.base,
        i < vm'.slots.size ∧ load vm'.slots.data i = load vm.slots.data i) := by
  have h := hreach.wellFormed
  refine ⟨h.frameInvariant, ?_⟩
  intro inst hinst
  constructor
  · intro hop
    have hsize := h.toWellFramed.execRet_size (VM.current?_lt hinst).1
    have hstep : step host sec vm = execRet vm inst.a := by
      rw [VM.step_eq_execute hinst, hop]
      rfl
    rw [hstep]
    exact ⟨fun _ hok => hsize.ok hok, fun _ _ _ hexit => hsize.exit hexit⟩
  · intro hne vm' hok i hi
    have h' := h.step hok
    have hkept := VM.step_below h hinst hne hok hi
    have hlt : i < vm.words.length := Nat.lt_of_lt_of_le hi h.base_le
    have hlt' : i < vm'.slots.size := by
      rw [h'.size_eq]
      rw [List.getElem?_eq_getElem hlt] at hkept
      exact (List.getElem?_eq_some_iff.mp hkept).1
    refine ⟨hlt', ?_⟩
    rw [h'.load_slot hlt', h.load_slot (h.size_eq ▸ hlt), hkept]

/-- The invariant inside the inner function of a program with nested calls. -/
theorem nestedCalls_frameInvariant : FrameInvariant (nestedState 4) :=
  (frameInvariant_of_reachable (reachable_stateAfter (by decide))).1

end ClojitCvm
