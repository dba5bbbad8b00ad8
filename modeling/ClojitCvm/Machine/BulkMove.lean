import ClojitCvm.Machine.BumpHost
import ClojitCvm.Machine.FunctionValues

/-!
# Moves of several slots

The instruction {lit}`BULKMOV` moves the values of a {lit}`recur` into the slots of the
loop variables, one after the other from the lowest, while the array grows under the loop
and shrinks inside its reads.

Main results:

- Definition {lit}`BulkMoved`: the exact effect of the instruction.
- Theorem {lit}`VM.WellFramed.bulkMove_spec`: when the loop comes to its end.
- Theorem {lit}`bulkMoved_iff`: the instruction has its effect exactly when the slots can
  grow up to the end of the target.
-/

namespace ClojitCvm

open CellArray ForwardCopy FrameStack Slot

/-! ## The effect -/

/-- The effect of {lit}`BULKMOV a b c`. -/
structure BulkMoved (vm : VM) (a b c : Nat) (vm' : VM) : Prop where
  /-- Ranges that do not overlap the wrong way are moved as if at once. -/
  simultaneous : a ≤ b ∨ c ≤ a - b → ∀ i < c,
    vm'.words[vm.base + (a + i)]? = vm.words[vm.base + (b + i)]?
  /-- A target that begins inside the source repeats the slots in front of it. -/
  periodic : b < a → a < b + c → ∀ i < c,
    vm'.words[vm.base + (a + i)]? = vm.words[vm.base + (b + i % (a - b))]?
  kept : ∀ j < vm.slots.size, j < vm.base + a ∨ vm.base + a + c ≤ j →
    vm'.words[j]? = vm.words[j]?
  base_eq : vm'.base = vm.base
  contexts_eq : vm'.contexts = vm.contexts
  pc_eq : vm'.pc = vm.pc + 1
  size_eq : vm'.slots.size =
    if c = 0 then vm.slots.size else max vm.slots.size (vm.base + a + c)

/-! ## The loop -/

namespace VM

variable {vm vm' : VM} {a b c : Nat}

/-- The loop comes to its end if it has nothing to move or the slots can grow up to the end
of the target, and overruns the array otherwise. -/
theorem WellFramed.bulkMove_spec {turns i : Nat} (h : vm.WellFramed)
    (hroom : a + i + turns < 2 ^ 20) (hroom' : b + i + turns < 2 ^ 20)
    (hsource : ∀ k < turns, vm.base + (b + i + k) < vm.words.length) :
    if turns = 0 ∨ vm.base + (a + i + turns) ≤ maxCapacity then
      ∃ vm', bulkMove a b turns i vm = .ok vm' ∧ vm'.WellFramed ∧ vm'.base = vm.base ∧
        vm'.contexts = vm.contexts ∧ vm'.rest = vm.rest
    else bulkMove a b turns i vm = .error (.fault .overrun) := by
  induction turns generalizing vm i with
  | zero =>
      rw [if_pos (.inl rfl)]
      exact ⟨vm, rfl, h, rfl, rfl, rfl⟩
  | succ turns ih =>
      have hfirst : vm.base + (b + i) < vm.words.length := hsource 0 (Nat.succ_pos turns)
      have hword := List.getElem?_eq_getElem hfirst
      have htarget : a + i < 2 ^ 20 := by omega
      have hmove := h.move_spec htarget (by omega) hword
      by_cases hlt : vm.base + (a + i) < maxCapacity
      · rw [if_pos hlt] at hmove
        rcases hmove with ⟨mid, hok, hacts⟩
        rcases hacts.of_assign with ⟨hwords, hbase⟩
        have hsource' : ∀ k < turns, mid.base + (b + (i + 1) + k) < mid.words.length := by
          intro k hk
          have hnext := hsource (k + 1) (by omega)
          rw [hwords, hbase, length_assign]
          omega
        have hrest := ih (hacts.wellFramed h) (by omega) (by omega) hsource'
        have hloop : bulkMove a b (turns + 1) i vm = bulkMove a b turns (i + 1) mid := by
          rw [bulkMove, hok]
          rfl
        rw [hloop]
        rw [hbase, hacts.contexts_of_assign, hacts.rest] at hrest
        have hiff : (turns = 0 ∨ vm.base + (a + (i + 1) + turns) ≤ maxCapacity) ↔
            (turns + 1 = 0 ∨ vm.base + (a + i + (turns + 1)) ≤ maxCapacity) := by omega
        simpa only [hiff] using hrest
      · rw [if_neg hlt] at hmove
        rw [if_neg (by omega), bulkMove, hmove]
        rfl

/-- The slots and the base behind the loop are those of a forward copy. -/
theorem bulkMoved_of_ok (h : vm.WellFramed) (ha : a < 256) (hb : b < 256) (hc : c < 256)
    (hsource : ∀ i < c, vm.base + (b + i) < vm.slots.size) {mid : VM} (hmid : mid.WellFramed)
    (hbase : mid.base = vm.base) (hcontexts : mid.contexts = vm.contexts)
    (hrest : mid.rest = vm.rest)
    (hok : bulkMove a b c 0 vm = .ok mid) : BulkMoved vm a b c mid.next := by
  have hcopy := bulkMove_words h (by omega) (by omega) hok
  have hcopied := copyForward_copied (Copied.refl _ _ _) hcopy
  have hlength := length_copyForward hcopy
  have hsize := h.slots.size_eq
  rw [Nat.zero_add] at hcopied
  have hread {i k : Nat} (hi : i < c) (hk : k ≤ i)
      (hindex : sourceIndex (vm.base + b) (vm.base + a) i = vm.base + (b + k)) :
      mid.words[vm.base + (a + i)]? = vm.words[vm.base + (b + k)]? := by
    have hin := hsource k (by omega)
    rw [hsize] at hin
    have hword := List.getElem?_eq_getElem hin
    have hmoved := hcopied.moved i hi _ (by rwa [hindex])
    rwa [hword, ← Nat.add_assoc]
  refine ⟨?_, ?_, ?_, hbase, hcontexts, ?_, ?_⟩
  · intro hapart i hi
    apply hread hi (Nat.le_refl i)
    rw [sourceIndex_of_apart (n := c) (by omega) hi, Nat.add_assoc]
  · intro hlt _ i hi
    apply hread hi (Nat.mod_le i (a - b))
    rw [sourceIndex, if_pos (by omega), Nat.add_sub_add_left, Nat.add_assoc]
  · intro j hj hout
    rw [hsize] at hj
    rw [List.getElem?_eq_getElem hj]
    exact hcopied.kept j _ (List.getElem?_eq_getElem hj) hout
  · exact congrArg (fun rest => rest.pc + 1) hrest
  · change mid.slots.size = _
    rw [hmid.slots.size_eq, hlength, hsize]
    rfl

/-- The instruction at operands of its fields. -/
theorem WellFramed.execBulkmov_spec (h : vm.WellFramed) (ha : a < 256) (hb : b < 256)
    (hc : c < 256) (hsource : ∀ i < c, vm.base + (b + i) < vm.slots.size) :
    if c = 0 ∨ vm.base + (a + c) ≤ maxCapacity then
      ∃ vm', execBulkmov vm a b c = .ok vm' ∧ vm'.WellFramed ∧ BulkMoved vm a b c vm'
    else execBulkmov vm a b c = .error (.fault .overrun) := by
  have hsource' : ∀ i < c, vm.base + (b + 0 + i) < vm.words.length := by
    rwa [← h.slots.size_eq]
  have hroom : a + 0 + c < 2 ^ 20 := by omega
  have hloop := h.bulkMove_spec hroom (by omega) hsource'
  rw [Nat.add_zero] at hloop
  unfold execBulkmov
  by_cases hfits : c = 0 ∨ vm.base + (a + c) ≤ maxCapacity
  · rw [if_pos hfits] at hloop ⊢
    rcases hloop with ⟨mid, hok, hmid, hbase, hcontexts, hrest⟩
    rw [hok]
    exact ⟨mid.next, rfl, ⟨hmid.slots, hmid.stack, hmid.ordered⟩,
      bulkMoved_of_ok h ha hb hc hsource hmid hbase hcontexts hrest hok⟩
  · rw [if_neg hfits] at hloop ⊢
    rw [hloop]
    rfl

end VM

variable {host : Host} {sec : Sections} {vm : VM} {inst : Decoded}

/-- A {lit}`BULKMOV` whose source is in use has its exact effect if and only if it moves
nothing or the slots can grow up to the end of the target. -/
theorem bulkMoved_iff (h : vm.WellFramed) (hinst : current? host sec vm = some inst)
    (hop : inst.op = some .bulkmov)
    (hsource : ∀ i < inst.c, vm.base + (inst.b + i) < vm.slots.size) :
    (∃ vm', step host sec vm = .ok vm' ∧ BulkMoved vm inst.a inst.b inst.c vm') ↔
      inst.c = 0 ∨ vm.base + (inst.a + inst.c) ≤ maxCapacity := by
  rcases VM.current?_lt hinst with ⟨ha, hb, hc⟩
  have hstep : step host sec vm = execBulkmov vm inst.a inst.b inst.c := by
    rw [VM.step_eq_execute hinst, hop]
    rfl
  have hspec := h.execBulkmov_spec ha hb hc hsource
  rw [hstep]
  constructor
  · rintro ⟨vm', hok, _⟩
    exact (of_eq_ok hspec hok).1
  · intro hroom
    rw [if_pos hroom] at hspec
    rcases hspec with ⟨vm', hok, _, hmoved⟩
    exact ⟨vm', hok, hmoved⟩

/-- A program that moves three slots two slots further up, over the last of them. -/
def overlap : CvmbFile where
  sections := [.instructions [.ad Opcode.cshort.number 0 7, .ad Opcode.cshort.number 1 8,
    .ad Opcode.cshort.number 2 9, .abc Opcode.bulkmov.number 2 0 3], .cint []]
  nodup := by decide
  wellFormed := by decide

def overlapHost : Host :=
  bumpHost overlap (by decide)

def overlapState (n : Nat) : VM :=
  stateAfter overlapHost (loadfile overlapHost) n

/-- The last slot of the target gets the first value again, and not the nine that was there
before. -/
theorem overlap_moved :
    ∃ vm', step overlapHost (loadfile overlapHost) (overlapState 3) = .ok vm' ∧
      BulkMoved (overlapState 3) 2 0 3 vm' ∧
      vm'.words = [toSmallInt 7, toSmallInt 8, toSmallInt 7, toSmallInt 8, toSmallInt 7] := by
  have hreach : Reachable overlapHost (loadfile overlapHost) (overlapState 3) :=
    reachable_stateAfter (by decide)
  have hinst : current? overlapHost (loadfile overlapHost) (overlapState 3) =
      some ⟨some .bulkmov, 2, 0, 3, 3#16⟩ := by decide
  have hstep : step overlapHost (loadfile overlapHost) (overlapState 3) =
      .ok (overlapState 4) := step_stateAfter (by decide) (by decide)
  have hmoved := (bulkMoved_iff hreach.wellFormed.toWellFramed hinst rfl (by decide)).mpr
    (.inr (by decide))
  rcases hmoved with ⟨vm', hok, hmoved⟩
  refine ⟨vm', hok, hmoved, ?_⟩
  rw [← Except.ok.inj (hstep.symm.trans hok)]
  decide

/-! ## A recursion that fills the slots -/

/-- A function that moves the first slot of its frame to the last one it can name and calls
itself, 253 slots further up. -/
def deepRecursion : CvmbFile where
  sections := [.instructions [.ad Opcode.cshort.number 0 7,
    -- the function
    .abc Opcode.bulkmov.number 255 0 1, .ad Opcode.fnew.number 254 1,
    .ad Opcode.call.number 253 0], .cint []]
  nodup := by decide
  wellFormed := by decide

def deepHost : Host :=
  bumpHost deepRecursion (by decide)

/-- The machine enters the function for the {lit}`k`th time behind the first one. -/
structure AtLevel (k : Nat) (vm : VM) : Prop where
  reachable : Reachable deepHost (loadfile deepHost) vm
  pc_eq : vm.pc = 1
  base_eq : vm.base = 253 * k
  base_lt : vm.base < vm.slots.size
  contexts_eq : vm.contexts.length = k

/-- The call of a function stores the return address to the first slot of the new frame. -/
theorem base_lt_of_call {vm' : VM} {d : BitVec 16} (h : vm.WellFormed host)
    (hinst : current? host sec vm = some inst) (hop : inst.op = some .call)
    (hfn : vm.words[vm.base + (inst.a + 1)]? = some (toFnew d)) (hd : d ≠ 0#16)
    (hok : step host sec vm = .ok vm') : vm'.base < vm'.slots.size := by
  rcases h.effect hinst hok with ⟨_, _, _, actions, heffect, hmoves⟩
  generalize vm'.rest = rest at heffect
  rw [hop] at heffect
  cases heffect with
  | call =>
      have hframes := VM.call_frames hmoves
      have hwords : vm'.words = _ := congrArg Frames.cells hframes
      have hbase : vm'.base = vm.base + inst.a := congrArg (fun f => f.current.base) hframes
      rw [hmoves.slots.size_eq, hwords, hbase, length_assign]
      omega
  | builtin hfn' hfunc =>
      cases hfn.symm.trans hfn'
      rw [calledFunc_toFnew] at hfunc
      split at hfunc
      · cases hfunc
      · exact absurd (Option.some.inj hfunc) hd
  | _ => contradiction

theorem current?_of_pc {pc : BitVec 32} (h : vm.pc = pc) :
    current? host sec vm = (instrAt host sec pc).map decode := by
  rw [current?, h]

namespace AtLevel

variable {k : Nat}

theorem wellFramed (h : AtLevel k vm) : vm.WellFramed :=
  h.reachable.wellFormed.toWellFramed

/-- The instruction at the level. -/
theorem current?_eq (h : AtLevel k vm) :
    current? deepHost (loadfile deepHost) vm = some ⟨some .bulkmov, 255, 0, 1, 1#16⟩ := by
  rw [current?_of_pc h.pc_eq]
  decide

theorem zero : AtLevel 0 (stateAfter deepHost (loadfile deepHost) 1) where
  reachable := reachable_stateAfter (by decide)
  pc_eq := by decide
  base_eq := by decide
  base_lt := by decide
  contexts_eq := by decide

/-- There is a next level as long as the slots can grow up to the last one of the frame. -/
theorem succ (h : AtLevel k vm) (hroom : 253 * k + 256 ≤ maxCapacity) :
    ∃ vm', AtLevel (k + 1) vm' := by
  have hbase := h.base_eq
  have hwf := h.wellFramed
  -- the move
  have hmove := hwf.execBulkmov_spec (a := 255) (b := 0) (c := 1) (by decide) (by decide)
    (by decide) (by have := h.base_lt; omega)
  rw [if_pos (.inr (by omega))] at hmove
  rcases hmove with ⟨moved, hok, hwf₁, hmoved⟩
  have hreach₁ : Reachable deepHost (loadfile deepHost) moved :=
    h.reachable.step ((VM.step_eq_execute h.current?_eq).trans hok)
  -- the function value
  have hpc₁ : moved.pc = 2 := by
    rw [hmoved.pc_eq, h.pc_eq]
    rfl
  have hinst₁ : current? deepHost (loadfile deepHost) moved =
      some ⟨some .fnew, 254, 0, 1, 1#16⟩ := by
    rw [current?_of_pc hpc₁]
    decide
  have hfnew : moved.Stores 254 (toFnew 1) (execFnew moved 254 1) :=
    VM.stores_next (hwf₁.set_spec (by decide) (toFnew 1))
  rw [VM.Stores, if_pos (by rw [hmoved.base_eq]; omega)] at hfnew
  rcases hfnew with ⟨stored, hok₁, hstored, hrest₁⟩
  have hreach₂ := hreach₁.step ((VM.step_eq_execute hinst₁).trans hok₁)
  have hwf₂ := hstored.wellFramed hwf₁
  rcases hstored.of_assign with ⟨hwords₂, hbase₂⟩
  have hcontexts₂ := hstored.contexts_of_assign
  -- the call
  have hpc₂ : stored.pc = 3 := by
    rw [show stored.pc = _ from congrArg Rest.pc hrest₁]
    change moved.pc + 1 = 3
    rw [hpc₁]
    rfl
  have hinst₂ : current? deepHost (loadfile deepHost) stored =
      some ⟨some .call, 253, 0, 0, 0#16⟩ := by
    rw [current?_of_pc hpc₂]
    decide
  have hfn : stored.words[stored.base + (253 + 1)]? = some (toFnew 1) := by
    rw [hwords₂, hbase₂, getElem?_assign_self]
  have hdepth : stored.contexts.length < maxDepth := by
    rw [hcontexts₂, hmoved.contexts_eq, h.contexts_eq]
    unfold maxCapacity at hroom
    unfold maxDepth
    omega
  rcases (hwf₂.enters_iff hinst₂ rfl hfn).mpr ⟨by decide, by decide, hdepth⟩ with
    ⟨entered, hok₂, hpc, hbase₃, hcontexts⟩
  have hreach₃ := hreach₂.step hok₂
  refine ⟨entered, hreach₃, hpc, ?_, ?_, ?_⟩
  · rw [hbase₃, hbase₂, hmoved.base_eq]
    dsimp only
    omega
  · exact base_lt_of_call hreach₂.wellFormed hinst₂ rfl hfn (by decide) hok₂
  · rw [hcontexts, List.length_append, hcontexts₂, hmoved.contexts_eq, h.contexts_eq]
    rfl

/-- Every level below the end of the slots is reached. -/
theorem exists_of_le (hroom : 253 * k + 3 ≤ maxCapacity) : ∃ vm, AtLevel k vm := by
  induction k with
  | zero => exact ⟨_, zero⟩
  | succ k ih =>
      rcases ih (by omega) with ⟨vm, h⟩
      exact h.succ (by omega)

end AtLevel

/-- In the frame whose last slot lies behind the largest array it does not: the doubled
capacity wraps, and the array overruns. -/
theorem deepRecursion_overruns :
    ∃ vm, Reachable deepHost (loadfile deepHost) vm ∧
      current? deepHost (loadfile deepHost) vm = some ⟨some .bulkmov, 255, 0, 1, 1#16⟩ ∧
      (∀ i < 1, vm.base + (0 + i) < vm.slots.size) ∧
      step deepHost (loadfile deepHost) vm = .error (.fault .overrun) ∧
      ¬ ∃ vm', step deepHost (loadfile deepHost) vm = .ok vm' ∧ BulkMoved vm 255 0 1 vm' := by
  rcases AtLevel.exists_of_le (k := 10610097) (by decide) with ⟨vm, h⟩
  have hbase := h.base_eq
  have hsource : ∀ i < 1, vm.base + (0 + i) < vm.slots.size := by
    have hlt := h.base_lt
    omega
  have hspec := h.wellFramed.execBulkmov_spec (a := 255) (by decide) (by decide) (by decide)
    hsource
  rw [if_neg (by unfold maxCapacity; omega)] at hspec
  have hstep : step deepHost (loadfile deepHost) vm = .error (.fault .overrun) :=
    (VM.step_eq_execute h.current?_eq).trans hspec
  refine ⟨vm, h.reachable, h.current?_eq, hsource, hstep, ?_⟩
  rintro ⟨vm', hok, _⟩
  rw [hstep] at hok
  cases hok

end ClojitCvm
