import ClojitCvm.Machine.Endings

/-!
# The exit status

The process returns 1 from an {lit}`EXIT`.  The errors of the machine exit with 1 as well,
but for the call of something that is no function, which exits with 0.

Main results:

- Theorem {lit}`StopsIn.status_eq`: the status of every run that stops.
- Theorem {lit}`exitStatus_never_tells`: the status tells no error from a normal end.
-/

namespace ClojitCvm

/-- The process runs the loaded sections up to a state and exits there with a status. -/
structure StopsIn (calls : SysCalls) (host : Host) (sec : Sections) (vm : VM) (status : Nat) :
    Prop where
  runs : ∃ code turns, loadfileWith calls host .zero = .ok (code, sec) ∧
    start calls host turns = .ok vm
  stops : ∃ last printed, step host sec vm = .error (.exit status last printed)

theorem StopsIn.wellFormed {calls : SysCalls} {host : Host} {sec : Sections} {vm : VM}
    {status : Nat} (h : StopsIn calls host sec vm status) : vm.WellFormed host := by
  rcases h.runs with ⟨code, turns, hload, hstart⟩
  rw [start_eq_run hload] at hstart
  exact (entryState_wellFormed host code).run hstart

/-- The status of a run is 0 exactly at a call of something that is no function. -/
theorem StopsIn.status_eq {calls : SysCalls} {host : Host} {sec : Sections} {vm : VM}
    {status : Nat} (h : StopsIn calls host sec vm status) :
    CallsNoFunction host sec vm ∧ status = 0 ∨ ¬ CallsNoFunction host sec vm ∧ status = 1 := by
  rcases h.stops with ⟨last, printed, hstop⟩
  exact (step_ends h.wellFormed.toWellFramed).exit hstop

/-- The status of a run that stops at an {lit}`EXIT` is 1. -/
theorem StopsIn.status_of_atExit {calls : SysCalls} {host : Host} {sec : Sections} {vm : VM}
    {status : Nat} (h : StopsIn calls host sec vm status) (hexit : AtExit host sec vm) :
    status = 1 := by
  rcases h.stops with ⟨last, printed, hstop⟩
  rw [step_of_atExit hexit] at hstop
  cases hstop
  rfl

/-- A status tells an error if it is not 0 and no status of a run that stops at an
{lit}`EXIT`. -/
structure TellsError (status : Nat) : Prop where
  ne_zero : status ≠ 0
  ne_exit : ∀ calls host sec vm normal, StopsIn calls host sec vm normal →
    AtExit host sec vm → status ≠ normal

/-- A run of a file without unknown sections. -/
theorem stopsIn_of_survives {host : Host} {turns status : Nat}
    (hparse : (parse 0 host.file host.fileBase .zero).1 = 0)
    (hrun : survives host (loadfile host) turns = true)
    (hstop : exitStatus? (step host (loadfile host) (stateAfter host (loadfile host) turns)) =
      some status) :
    StopsIn (allDone 0) host (loadfile host) (stateAfter host (loadfile host) turns) status := by
  have hload := loadfileWith_allDone hparse
  refine ⟨⟨0, turns, hload, ?_⟩, exitStatus?_eq_some hstop⟩
  rw [start_eq_run hload]
  exact run_stateAfter hrun

/-- The program with nested calls stops at its {lit}`EXIT`. -/
theorem nestedCalls_stop :
    StopsIn (allDone 0) nestedHost (loadfile nestedHost) (nestedState 10) 1 ∧
      AtExit nestedHost (loadfile nestedHost) (nestedState 10) :=
  ⟨stopsIn_of_survives (by decide) (by decide) (by decide),
    ⟨some .exit, 0, 0, 0, 0⟩, by decide, rfl⟩

/-- The status of a run that stops at an error never tells.  It is 0 when the run calls
something that is no function, and otherwise the 1 of a run that stops at an
{lit}`EXIT`. -/
theorem exitStatus_never_tells {calls : SysCalls} {host : Host} {sec : Sections} {vm : VM}
    {status : Nat} (h : StopsIn calls host sec vm status) (_herror : ¬ AtExit host sec vm) :
    ¬ TellsError status ∧ (status ≠ 0 ↔ ¬ CallsNoFunction host sec vm) ∧
      ∀ calls' host' sec' vm' normal, StopsIn calls' host' sec' vm' normal →
        AtExit host' sec' vm' → (status ≠ normal ↔ CallsNoFunction host sec vm) := by
  have hstatus := h.status_eq
  refine ⟨fun htells => ?_, ?_, ?_⟩
  · have hne := htells.ne_exit _ _ _ _ _ nestedCalls_stop.1 nestedCalls_stop.2
    have hzero := htells.ne_zero
    omega
  · constructor
    · rintro hne hcalls
      rcases hstatus with ⟨_, hzero⟩ | ⟨hnot, _⟩
      · exact hne hzero
      · exact hnot hcalls
    · intro hnot
      rcases hstatus with ⟨hcalls, _⟩ | ⟨_, hone⟩
      · exact absurd hcalls hnot
      · omega
  · intro calls' host' sec' vm' normal hstops hexit
    have hnormal := hstops.status_of_atExit hexit
    rcases hstatus with ⟨hcalls, hzero⟩ | ⟨hnot, hone⟩
    · exact iff_of_true (by omega) hcalls
    · exact iff_of_false (by omega) hnot

/-- A program that calls nil. -/
def callOfNil : CvmbFile where
  sections := [.instructions [.ad Opcode.cnil.number 1 0, .ad Opcode.call.number 0 0], .cint []]
  nodup := by decide
  wellFormed := by decide

def callOfNilHost : Host :=
  bumpHost callOfNil (by decide)

def callOfNilState : VM :=
  stateAfter callOfNilHost (loadfile callOfNilHost) 1

/-- A program that compares nil with itself. -/
def nilEqual : CvmbFile where
  sections := [.instructions [.ad Opcode.cnil.number 0 0, .abc Opcode.iseq.number 1 0 0],
    .cint []]
  nodup := by decide
  wellFormed := by decide

def nilEqualHost : Host :=
  bumpHost nilEqual (by decide)

def nilEqualState : VM :=
  stateAfter nilEqualHost (loadfile nilEqualHost) 1

theorem callOfNil_stop :
    StopsIn (allDone 0) callOfNilHost (loadfile callOfNilHost) callOfNilState 0 ∧
      ¬ AtExit callOfNilHost (loadfile callOfNilHost) callOfNilState := by
  refine ⟨stopsIn_of_survives (by decide) (by decide) (by decide), ?_⟩
  rintro ⟨inst, hinst, hop⟩
  have hcall : current? callOfNilHost (loadfile callOfNilHost) callOfNilState =
      some ⟨some .call, 0, 0, 0, 0⟩ := by decide
  rw [hcall] at hinst
  cases hinst
  cases hop

theorem nilEqual_stop :
    StopsIn (allDone 0) nilEqualHost (loadfile nilEqualHost) nilEqualState 1 ∧
      ¬ AtExit nilEqualHost (loadfile nilEqualHost) nilEqualState := by
  refine ⟨stopsIn_of_survives (by decide) (by decide) (by decide), ?_⟩
  rintro ⟨inst, hinst, hop⟩
  have hiseq : current? nilEqualHost (loadfile nilEqualHost) nilEqualState =
      some ⟨some .iseq, 1, 0, 0, 0⟩ := by decide
  rw [hiseq] at hinst
  cases hinst
  cases hop

/-- The status of the call of nil does not tell its error. -/
theorem callOfNil_never_tells : ¬ TellsError 0 :=
  (exitStatus_never_tells callOfNil_stop.1 callOfNil_stop.2).1

/-- The call of nil exits with status 0, and the comparison of nil with the status of a
normal end. -/
theorem errors_not_told :
    ¬ (∀ calls host sec vm status, StopsIn calls host sec vm status → ¬ AtExit host sec vm →
        status ≠ 0) ∧
      ¬ (∀ calls host sec vm status, StopsIn calls host sec vm status → ¬ AtExit host sec vm →
        ∀ calls' host' sec' vm' normal, StopsIn calls' host' sec' vm' normal →
          AtExit host' sec' vm' → status ≠ normal) := by
  constructor
  · intro h
    exact h _ _ _ _ _ callOfNil_stop.1 callOfNil_stop.2 rfl
  · intro h
    exact h _ _ _ _ _ nilEqual_stop.1 nilEqual_stop.2 _ _ _ _ _ nestedCalls_stop.1
      nestedCalls_stop.2 rfl

end ClojitCvm
