import ClojitCvm.Machine.IdealRuns

/-!
# What runs show

A run shows nothing of the memory it works in: not the capacity of the slots or of the
context stack, not what freed cells held, not the bytes of fresh heap blocks, and not how
doubles are added.  Tracing shows more text and changes nothing else.

Main results:

- Theorem {lit}`run_unobserved`: machines that read the same program and show the same ideal
  state go the same way.
- Theorem {lit}`runAt_traces`: a run at any debug level is the run at level zero with more
  text, as long as the lines themselves can be printed.
-/

namespace ClojitCvm

open LockStep

/-! ## Memory -/

/-- Machines that read the same program and show the same ideal state go the same way for any
number of turns, in whatever memory they are. -/
theorem run_unobserved {host host' : Host} {sec sec' : Sections} {vm vm' : VM}
    (hprog : host.program sec = host'.program sec') (h : Reachable host sec vm)
    (h' : Reachable host' sec' vm') (hideal : vm.ideal = vm'.ideal) (n : Nat) :
    idealOutcome (run host sec n vm) = idealOutcome (run host' sec' n vm') := by
  rw [h.run_ideal n, h'.run_ideal n, hprog, hideal]

/-! ## Tracing -/

/-- Two states with the same ideal state up to the output, of which the first one printed
more. -/
def PrintsMore (level : Int) (vm vm' : VM) : Prop :=
  vm.idealWith vm'.out = vm'.ideal ∧ Printed level vm'.out vm.out

/-- What a traced run can be beside the run at level zero: it can fault where the other goes
on, and differs in the output otherwise. -/
def TraceOf (level : Int) : Outcome VM VM → Outcome VM VM → Prop
  | .ok vm, .ok vm' => PrintsMore level vm vm'
  | .error (.exit status vm printed), .error (.exit status' vm' printed') =>
      status = status' ∧ printed = printed' ∧ PrintsMore level vm vm'
  | .error (.fault why), y => level > 0 ∨ y = .error (.fault why)
  | _, _ => False

theorem Shows.printsMore {level : Int} {vm vm' : VM} {p : Ideal} (h : Shows level vm p)
    (h' : Shows 0 vm' p) : PrintsMore level vm vm' := by
  rcases h with ⟨out, rfl, hout⟩
  rcases h' with ⟨out', heq, hout'⟩
  have hsame : out = vm'.out := (congrArg Ideal.out heq).trans hout'.zero
  subst hsame
  refine ⟨heq.trans ?_, hout⟩
  rw [hout'.zero]
  rfl

/-- Two computations that do what one of the ideal machine does, the second one at level
zero. -/
theorem Mirrors.traceOf {level : Int} {host : Host} {x x' : Outcome VM VM}
    {y : Outcome Ideal Ideal} (h : Mirrors level (Refines level host) x y)
    (h' : Mirrors 0 (Refines 0 host) x' y) : TraceOf level x x' := by
  have hnever : Follows never (SameHalt 0) (Refines 0 host) x' y := by
    refine Follows.mono h' (fun e hexcused => ?_) (fun _ _ he => he) (fun _ _ ha => ha)
    cases e with
    | fault why => exact absurd hexcused (Int.lt_irrefl 0)
    | exit => exact hexcused
  rcases Follows.join h hnever with @⟨e, _, hexcused⟩ | @⟨e, e', p, hsame, hsame'⟩ |
    @⟨vm, vm', p, hrefines, hrefines'⟩
  · cases e with
    | fault why => exact .inl hexcused
    | exit => exact hexcused.elim
  · cases p with
    | fault why =>
        cases e with
        | exit => exact hsame.elim
        | fault why₁ =>
            cases e' with
            | exit => exact hsame'.elim
            | fault why₂ =>
                have hwhy : why₂ = why₁ := Eq.trans hsame' (Eq.symm hsame)
                exact .inr (by rw [hwhy])
    | exit status p printed =>
        cases e with
        | fault => exact hsame.elim
        | exit status₁ vm₁ printed₁ =>
            cases e' with
            | fault => exact hsame'.elim
            | exit status₂ vm₂ printed₂ =>
                rcases hsame with ⟨rfl, rfl, hshows⟩
                rcases hsame' with ⟨rfl, rfl, hshows'⟩
                exact ⟨rfl, rfl, hshows.printsMore hshows'⟩
  · exact hrefines.shows.printsMore hrefines'.shows

/-- The lines in front of the first instruction. -/
theorem Refines.traceStart {level : Int} {host : Host} {vm : VM} {p : Ideal}
    (h : Refines level host vm p) : Refines level host (vm.traceStart level host) p :=
  (((h.trace _).trace _).trace _).trace _

/-- A run at any debug level comes to the same status, the same text at the end and the same
state as the run at level zero, with more text printed on the way.  It can fault where the
other one does not, and never the other way round. -/
theorem runAt_traces (level : Int) (host : Host) (sec : Sections) (n : Nat) :
    TraceOf level (runAt level host sec n ((vmInit host).traceStart level host))
      (run host sec n (vmInit host)) := by
  have hstart : Refines level host (vmInit host) (vmInit host).ideal :=
    ⟨VM.vmInit_inOrder host, (vmInit host).out, rfl, Printed.refl level _⟩
  have hplain := (VM.vmInit_inOrder host).refines.runAt sec n
  rw [runAt_zero] at hplain
  exact (hstart.traceStart.runAt sec n).traceOf hplain

end ClojitCvm
