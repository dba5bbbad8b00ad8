import ClojitCvm.Machine.Endings

/-!
# The output of a run

A program prints with {lit}`println`.  The tests of the conditional jumps print lines of
their own, as do a refused allocation, a file that is not loaded and every call of the memory
pool system that is refused while the machine is set up or the slots move.

Main results:

- Theorem {lit}`run_out`: the output of a run, step by step.
- Theorem {lit}`output_iff`: when the output of a run is what the program prints.
-/

namespace ClojitCvm

/-! ## Texts of a run -/

/-- The states of a run in front of each of its steps. -/
def states (host : Host) (sec : Sections) : Nat → VM → List VM
  | 0, _ => []
  | turns + 1, vm =>
      vm :: match step host sec vm with
        | .ok vm' => states host sec turns vm'
        | .error _ => []

/-- What a run prints is what its steps print. -/
theorem run_out {host : Host} {sec : Sections} {turns : Nat} {vm vm' : VM}
    (h : vm.WellFormed host) (hrun : run host sec turns vm = .ok vm') :
    vm'.out = vm.out ++ (states host sec turns vm).flatMap fun u =>
      printlnText host sec u ++ ownText host sec u := by
  induction turns generalizing vm with
  | zero =>
      cases hrun
      simp [states]
  | succ turns ih =>
      rcases bind_eq_ok.mp hrun with ⟨next, hstep, hrest⟩
      have hout := (step_ends h.toWellFramed).ok hstep
      rw [ih (h.step hstep) hrest, hout, states, hstep, List.flatMap_cons, List.append_assoc]

/-! ## The output of a program -/

/-- The next instruction tests a slot, or allocates an object and is refused. -/
def PrintsOwnText (host : Host) (sec : Sections) (vm : VM) : Prop :=
  ∃ inst, current? host sec vm = some inst ∧
    (inst.op = some .jumpf ∨ inst.op = some .jumpt ∨
      inst.op = some .alloc ∧ refused host sec vm inst.d = true)

theorem join_ownText_eq_empty_iff (host : Host) (sec : Sections) (vm : VM) :
    String.join (ownText host sec vm) = "" ↔ ¬ PrintsOwnText host sec vm := by
  unfold ownText PrintsOwnText
  cases current? host sec vm with
  | none => simp
  | some inst =>
      cases hop : inst.op with
      | none => simp [instructionText, hop]
      | some op =>
          cases op with
          | jumpf | jumpt =>
              refine iff_of_false (by simp [instructionText, truthText, hop]) (not_not_intro ?_)
              exact ⟨inst, rfl, by simp [hop]⟩
          | alloc =>
              cases hrefused : refused host sec vm inst.d <;>
                simp [instructionText, hop, hrefused]
          | _ => simp [instructionText, hop]

/-- The output of a run that stops at an {lit}`EXIT` consists of the texts of its calls of
{lit}`println`, one behind the other, exactly when the file is loaded, none of the calls for
an arena, a chain, a thread, a format, a pool, an allocation point or a root that were made
is refused, and no step of the run tests a slot or is refused an object. -/
theorem output_iff {calls : SysCalls} {host : Host} {sec : Sections} {code turns : Nat} {vm : VM}
    (hload : loadfileWith calls host .zero = .ok (code, sec))
    (hrun : start calls host turns = .ok vm) (hexit : AtExit host sec vm) :
    ∃ last printed, step host sec vm = .error (.exit 1 last printed) ∧
      (String.join (last.output host ++ printed) =
          String.join ((states host sec turns (entryState host code)).flatMap
            (printlnText host sec)) ↔
        code = 0 ∧ (∀ n < vm.mpsCalls.length, host.mpsResult n = mpsResOk) ∧
          ∀ u ∈ states host sec turns (entryState host code), ¬ PrintsOwnText host sec u) := by
  refine ⟨_, _, step_of_atExit hexit, ?_⟩
  rw [start_eq_run hload] at hrun
  have hentry : String.join (entryState host code).out = "" ↔ code = 0 := by
    by_cases hcode : code = 0
    · rw [entryState, if_neg (not_not_intro hcode)]
      exact iff_of_true rfl hcode
    · refine iff_of_false ?_ hcode
      rw [entryState, if_pos hcode]
      change String.join [loadErrorText] ≠ ""
      decide
  have hrefusals : (∀ n < vm.next.mpsCalls.length, String.join (vm.next.refusalText host n) = "") ↔
      ∀ n < vm.mpsCalls.length, host.mpsResult n = mpsResOk :=
    forall₂_congr fun n hn =>
      (VM.join_refusalText_eq_empty_iff host vm.next n).trans (imp_iff_right hn)
  have hrest : ∀ n, vm.next.mpsCalls.length ≤ n →
      String.join (vm.next.refusalText host n) = "" := fun n hn =>
    (VM.join_refusalText_eq_empty_iff host vm.next n).mpr fun hlt => absurd hlt (Nat.not_lt.mpr hn)
  rw [List.append_nil, VM.output, show vm.next.out = vm.out from rfl,
    run_out (entryState_wellFormed host code) hrun, MarkedTexts.join_written_eq_iff hrest,
    hrefusals, hentry]
  simp only [join_ownText_eq_empty_iff]
  tauto

/-- The program with nested calls prints what it passes to {lit}`println`, and a newline. -/
theorem nestedCalls_output :
    ∃ last printed, step nestedHost (loadfile nestedHost) (nestedState 10) =
        .error (.exit 1 last printed) ∧
      String.join (last.output nestedHost ++ printed) = "7\n" := by
  have hload := loadfileWith_allDone (by decide : (parse 0 nestedHost.file _ .zero).1 = 0)
  have hrun : start (allDone 0) nestedHost 10 = .ok (nestedState 10) := by
    rw [start_eq_run hload]
    exact run_stateAfter (by decide)
  rcases output_iff hload hrun ⟨⟨some .exit, 0, 0, 0, 0⟩, by decide, rfl⟩ with
    ⟨last, printed, hstep, hiff⟩
  refine ⟨last, printed, hstep, ?_⟩
  have hown : ∀ u ∈ states nestedHost (loadfile nestedHost) 10 (entryState nestedHost 0),
      ownText nestedHost (loadfile nestedHost) u = [] := by decide
  have hprintln : (states nestedHost (loadfile nestedHost) 10 (entryState nestedHost 0)).flatMap
      (printlnText nestedHost (loadfile nestedHost)) = ["7", "\n"] := by decide
  rw [hiff.mpr ⟨rfl, fun _ _ => rfl, fun u hu => ?_⟩, hprintln]
  · rfl
  · rw [← join_ownText_eq_empty_iff, hown u hu]
    rfl

/-- A program that tests nil and exits. -/
def nilTest : CvmbFile where
  sections := [.instructions [.ad Opcode.cnil.number 0 0, .ad Opcode.jumpf.number 0 1,
    .ad Opcode.exit.number 0 0], .cint []]
  nodup := by decide
  wellFormed := by decide

def nilTestHost : Host :=
  bumpHost nilTest (by decide)

/-- The program calls no function, and prints a line. -/
theorem nilTest_output :
    ∃ last, start (allDone 0) nilTestHost 2 = .ok last ∧
      AtExit nilTestHost (loadfile nilTestHost) last ∧
      step nilTestHost (loadfile nilTestHost) last = .error (.exit 1 last.next []) ∧
      String.join (last.next.output nilTestHost ++ []) ≠
        String.join
          ((states nilTestHost (loadfile nilTestHost) 2 (entryState nilTestHost 0)).flatMap
            (printlnText nilTestHost (loadfile nilTestHost))) := by
  have hload := loadfileWith_allDone (by decide : (parse 0 nilTestHost.file _ .zero).1 = 0)
  have hrun : start (allDone 0) nilTestHost 2 =
      .ok (stateAfter nilTestHost (loadfile nilTestHost) 2) := by
    rw [start_eq_run hload]
    exact run_stateAfter (by decide)
  have hexit : AtExit nilTestHost (loadfile nilTestHost)
      (stateAfter nilTestHost (loadfile nilTestHost) 2) :=
    ⟨⟨some .exit, 0, 0, 0, 0⟩, by decide, rfl⟩
  exact ⟨_, hrun, hexit, step_of_atExit hexit, by decide⟩

end ClojitCvm
