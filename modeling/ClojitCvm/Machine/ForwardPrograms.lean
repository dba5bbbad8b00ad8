import ClojitCvm.Machine.CheckedPrograms

/-!
# Programs that jump forward

The compiler writes a loop as a function that calls itself, and its jumps only leave out
instructions.  A program of this kind does not run long without calling: between two calls
or returns the program counter grows, and it stays below the number of instructions.

Main results:

- Definition {lit}`Forward`: the check that no instruction of a file jumps back.
- Theorem {lit}`turns_lt_of_calls`: the turns of a run are bounded by the calls it made, the
  calls that are still open, and the number of instructions.
-/

namespace ClojitCvm

open LockStep Slot

/-! ## The check of a jump -/

/-- An instruction goes behind its own place, unless it calls or returns. -/
def Decoded.Forward (pc : BitVec 32) (inst : Decoded) : Prop :=
  inst.op ≠ some .loop ∧ pc.toNat < (pc + 1).toNat ∧
    (isJump inst.op = true → pc.toNat < (pc + inst.d.signExtend 32).toNat)

instance (pc : BitVec 32) (inst : Decoded) : Decidable (inst.Forward pc) :=
  inferInstanceAs (Decidable (_ ∧ _))

/-- No instruction of a file jumps back. -/
def Forward (host : Host) : Prop :=
  ∀ k < (loadfile host).instrCnt, ∃ inst ∈ (host.program (loadfile host)).code (.ofNat 32 k),
    inst.Forward (.ofNat 32 k)

instance (host : Host) : Decidable (Forward host) :=
  inferInstanceAs (Decidable (∀ k < _, _))

namespace VM

variable {host : Host} {sec : Sections} {vm vm' : VM} {inst : Decoded}

/-- A turn with as many contexts behind it as in front goes forward. -/
theorem Effected.forward (h : Effected host sec vm inst.op inst.a inst.b inst.c inst.d vm')
    (hforward : inst.Forward vm.pc) (hcontexts : vm'.contexts.length = vm.contexts.length) :
    vm.pc.toNat < vm'.pc.toNat := by
  rw [h.pc_eq hforward.1]
  rcases inst with ⟨op, a, b, c, d⟩
  rcases h with ⟨actions, heffect, hmoves⟩
  rcases hforward with ⟨hloop, hone, hjump⟩
  have hnext (hstep : nextPc vm ⟨op, a, b, c, d⟩ = vm.pc + 1) :
      vm.pc.toNat < (nextPc vm ⟨op, a, b, c, d⟩).toNat := by
    rw [hstep]
    exact hone
  dsimp only at heffect hloop hjump
  generalize vm'.rest = rest at heffect
  cases heffect with
  | skip hop => exact hnext (nextPc_of_not_transfers vm (not_transfers_of_skips hop))
  | loop => exact absurd rfl hloop
  | jump => exact hjump rfl
  | branch hslot htaken =>
      unfold jumpTaken? at htaken
      split at htaken
      · simp only [nextPc]
        split
        · exact hjump rfl
        · exact hone
      · simp only [nextPc]
        split
        · exact hjump rfl
        · exact hone
      · cases htaken
  | constant hop => exact hnext (nextPc_of_not_transfers vm (not_transfers_of_constant? hop))
  | arith hop =>
      exact hnext (nextPc_of_not_transfers vm (not_transfers_of_integerOp? (by rw [hop]; rfl)))
  | arithSkip hop => exact hnext (nextPc_of_not_transfers vm (not_transfers_of_integerOp? hop))
  | call hfn hfunc hne =>
      have hlength := hmoves.contexts_of_call
      omega
  | builtin hfn hfunc _ => exact hnext (nextPc_of_builtin hfn hfunc)
  | ret hslot hvalue =>
      have hlength := hmoves.contexts_of_ret
      omega
  | _ => exact hnext rfl

end VM

/-! ## Calls beside a run -/

/-- The number of calls behind a turn, which counts the contexts it opens. -/
def madeBehind (vm vm' : VM) (made : Nat) : Nat :=
  if vm.contexts.length < vm'.contexts.length then made + 1 else made

/-- A turn of the machine with the number of calls made so far kept beside it. -/
def stepCounted (host : Host) (sec : Sections) : VM × Nat → Outcome VM (VM × Nat) :=
  recorded (step host sec) madeBehind

section Runs

variable {host : Host} {sec : Sections} {vm vm' : VM} {top : Nat}

/-- A turn goes forward, or opens a call, or closes one. -/
theorem turn_forward (hchecked : Checked host top) (hforward : Forward host)
    (h : Reachable host (loadfile host) vm) (hok : step host (loadfile host) vm = .ok vm') :
    (vm.pc.toNat < vm'.pc.toNat ∧ vm'.contexts.length = vm.contexts.length) ∨
      vm'.contexts.length = vm.contexts.length + 1 ∨
      vm'.contexts.length + 1 = vm.contexts.length := by
  rcases h.exists_calls hchecked with ⟨calls, hcontrol⟩
  have hturned : Turned vm.ideal vm'.ideal calls (callsBehind vm vm' calls) :=
    (hcontrol.step hchecked hok).2
  have hlength := length_bases vm
  have hlength' := length_bases vm'
  generalize callsBehind vm vm' calls = calls' at hturned
  cases hturned with
  | stays hbases =>
      rw [hbases, hlength] at hlength'
      have hcontexts : vm'.contexts.length = vm.contexts.length := by omega
      refine .inl ⟨?_, hcontexts⟩
      rcases VM.step_effect h.wellFormed.toWellFramed h.wellFormed.fits hok with
        ⟨inst, hinst, _, _, _, heffect⟩
      rcases hforward vm.pc.toNat hcontrol.inside.1 with ⟨inst', hinst', hgoes⟩
      rw [BitVec.ofNat_toNat, BitVec.setWidth_eq] at hinst' hgoes
      have hsame : some inst = some inst' := hinst.symm.trans hinst'
      cases hsame
      exact heffect.forward hgoes hcontexts
  | enters hbases =>
      rw [hbases, List.length_cons, hlength] at hlength'
      exact .inr (.inl (by omega))
  | leaves hbases =>
      have hpos : 0 < vm'.ideal.bases.length := Nat.succ_pos _
      rw [← hbases, List.length_tail] at hlength' hpos
      exact .inr (.inr (by omega))

/-- A turn is paid for by the way it makes through the instructions, if a call buys two ways
through them and sells one back as long as it is open. -/
theorem stepCounted_paid (hchecked : Checked host top) (hforward : Forward host)
    {s s' : VM × Nat} (h : Reachable host (loadfile host) s.1)
    (hok : stepCounted host (loadfile host) s = .ok s') {cnt : Nat}
    (hcnt : cnt = (loadfile host).instrCnt) :
    Reachable host (loadfile host) s'.1 ∧
      1 + 2 * (s.2 * cnt) + s'.1.contexts.length * cnt + s.1.pc.toNat ≤
        2 * (s'.2 * cnt) + s.1.contexts.length * cnt + s'.1.pc.toNat := by
  rcases recorded_eq_ok.mp hok with ⟨vm', hstep, rfl⟩
  refine ⟨h.step hstep, ?_⟩
  have hpc : s.1.pc.toNat < cnt := by
    rcases h.exists_calls hchecked with ⟨calls, hcontrol⟩
    rw [hcnt]
    exact hcontrol.inside.1
  dsimp only [madeBehind]
  rcases turn_forward hchecked hforward h hstep with ⟨hgoes, hcontexts⟩ | hcontexts | hcontexts
  · rw [if_neg (by omega), hcontexts]
    omega
  · rw [if_pos (by omega), hcontexts]
    simp only [Nat.add_mul, Nat.one_mul]
    omega
  · rw [if_neg (by omega), ← hcontexts]
    simp only [Nat.add_mul, Nat.one_mul]
    omega

theorem stepsCounted_paid (hchecked : Checked host top) (hforward : Forward host) {n : Nat}
    {s s' : VM × Nat} (h : Reachable host (loadfile host) s.1)
    (hrun : steps (stepCounted host (loadfile host)) n s = .ok s') {cnt : Nat}
    (hcnt : cnt = (loadfile host).instrCnt) :
    Reachable host (loadfile host) s'.1 ∧
      n + 2 * (s.2 * cnt) + s'.1.contexts.length * cnt + s.1.pc.toNat ≤
        2 * (s'.2 * cnt) + s.1.contexts.length * cnt + s'.1.pc.toNat := by
  induction n generalizing s with
  | zero =>
      cases hrun
      exact ⟨h, by omega⟩
  | succ n ih =>
      rcases bind_eq_ok.mp hrun with ⟨next, hstep, hrest⟩
      rcases stepCounted_paid hchecked hforward h hstep hcnt with ⟨hreach, hfirst⟩
      rcases ih hreach hrest with ⟨hlast, hpaid⟩
      exact ⟨hlast, by omega⟩

/-- A checked program that jumps forward takes less turns than two ways through its
instructions for every call it has made and one more, less one for every call that is
open. -/
theorem turns_lt_of_calls (hchecked : Checked host top) (hforward : Forward host) {n made : Nat}
    (hrun : steps (stepCounted host (loadfile host)) n (vmInit host, 0) = .ok (vm, made)) :
    n + vm.contexts.length * (loadfile host).instrCnt <
      (2 * made + 1) * (loadfile host).instrCnt := by
  have hstart : (vmInit host).contexts.length = 0 := rfl
  have hpc : (vmInit host).pc.toNat = 0 := rfl
  rcases stepsCounted_paid hchecked hforward .init hrun rfl with ⟨hreach, hpaid⟩
  rcases hreach.exists_calls hchecked with ⟨calls, hcontrol⟩
  have hinside : vm.pc.toNat < (loadfile host).instrCnt := hcontrol.inside.1
  rw [Nat.add_mul, Nat.one_mul, Nat.mul_assoc]
  simp only [hstart, hpc, Nat.zero_mul] at hpaid
  omega

end Runs

/-- The first function of the program makes no jump and is called once. -/
theorem functionRetTrunc_turns :
    ∃ made, steps (stepCounted functionRetTruncHost (loadfile functionRetTruncHost)) 8
          (vmInit functionRetTruncHost, 0) = .ok (functionRetTruncState 8, made) ∧
      8 + (functionRetTruncState 8).contexts.length * (loadfile functionRetTruncHost).instrCnt <
        (2 * made + 1) * (loadfile functionRetTruncHost).instrCnt := by
  have hrun : run functionRetTruncHost (loadfile functionRetTruncHost) 8
      (vmInit functionRetTruncHost) = .ok (functionRetTruncState 8) :=
    run_stateAfter (by decide +kernel)
  rw [run_eq_steps] at hrun
  rcases exists_recorded hrun madeBehind 0 with ⟨made, hmade⟩
  exact ⟨made, hmade, turns_lt_of_calls functionRetTrunc_checked (by decide +kernel) hmade⟩

end ClojitCvm
