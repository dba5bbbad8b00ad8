import ClojitCvm.Loader.Layout
import ClojitCvm.Machine.BumpHost

/-!
# Starting the machine

The function {lit}`start` loads the file and then runs the machine, whether the file
could be loaded or not.  The file is loaded with three system calls, each of which can
fail.

Main results:

- Definitions {lit}`loadfileWith` and {lit}`start`: the functions of the source over the
  outcomes of the system calls.
- Theorem {lit}`safelyLoaded_iff`: loading is safe exactly when it succeeds.
-/

namespace ClojitCvm

open ByteMemory

/-! ## System calls -/

/-- The outcome of a system call.  A call that fails sets {lit}`errno`, never to zero. -/
inductive SysCall where
  | done
  | failed (errno : Nat) (hne : errno ≠ 0)
deriving DecidableEq, Repr

/-- The outcomes of the system calls of {lit}`loadfile`, and the {lit}`errno` that is
there as long as no call fails. -/
structure SysCalls where
  openCall : SysCall
  fstatCall : SysCall
  mmapCall : SysCall
  errno : Nat
deriving DecidableEq, Repr

/-- The constant {lit}`MAP_FAILED`, which is no address of the program. -/
def mapFailed : Nat := 2 ^ 64 - 1

/-- The address that {lit}`mmap` returns. -/
def SysCalls.mmapAddress (calls : SysCalls) (host : Host) : Nat :=
  match calls.mmapCall with
  | .done => host.fileBase
  | .failed _ _ => mapFailed

/-- The value of {lit}`errno` behind the call of {lit}`mmap`. -/
def SysCalls.mmapErrno (calls : SysCalls) : Nat :=
  match calls.mmapCall with
  | .done => calls.errno
  | .failed errno _ => errno

structure SysCalls.Succeed (calls : SysCalls) : Prop where
  openCall : calls.openCall = .done
  fstatCall : calls.fstatCall = .done
  mmapCall : calls.mmapCall = .done

/-! ## Loading and starting -/

/-- The function {lit}`loadfile` with its return code.  A file can be read if it is mapped;
the bytes in front of it and behind it are some bytes, so {lit}`parse` reads on where the
counts of the file lead it out of the mapping. -/
def loadfileWith (calls : SysCalls) (host : Host) (ret : Sections) :
    Outcome VM (Nat × Sections) :=
  match calls.openCall with
  | .failed errno _ => .ok (errno, ret)
  | .done =>
      match calls.fstatCall with
      | .failed errno _ => .ok (errno, ret)
      | .done =>
          let buf := calls.mmapAddress host
          -- the failure of mmap is not the null pointer
          if buf = 0 then .ok (calls.mmapErrno, ret)
          else if buf = host.fileBase then
            let (err, ret) := parse 0 host.file buf ret
            -- the code of parse is dropped
            if err ≠ 0 then .ok (calls.errno, ret) else .ok (0, ret)
          else .error (.fault .wildRead)

def loadErrorText : String := "Couldn't load file"

/-- A text that is printed in front of {lit}`vm_init` and all its calls. -/
def VM.printFirst (vm : VM) (text : String) : VM :=
  { vm with
    out := text :: vm.out
    marks := 0 :: vm.marks }

/-- The state {lit}`start` enters its loop with, behind the return code of
{lit}`loadfile`. -/
def entryState (host : Host) (code : Nat) : VM :=
  if code ≠ 0 then (vmInit host).printFirst loadErrorText else vmInit host

/-- The function {lit}`start` up to so many turns of its loop. -/
def start (calls : SysCalls) (host : Host) (turns : Nat) : Outcome VM VM := do
  let (res, sec) ← loadfileWith calls host .zero
  run host sec turns (entryState host res)

/-! ## Safe loading -/

/-- The cases of {lit}`loadfile`. -/
theorem loadfileWith_of_succeed {calls : SysCalls} (h : calls.Succeed) (host : Host)
    (ret : Sections) :
    loadfileWith calls host ret =
      .ok (if (parse 0 host.file host.fileBase ret).1 ≠ 0 then calls.errno else 0,
        (parse 0 host.file host.fileBase ret).2) := by
  have hbase : host.fileBase ≠ 0 := by
    have := host.page_le_fileBase
    omega
  simp only [loadfileWith, h.openCall, h.fstatCall, SysCalls.mmapAddress, h.mmapCall,
    if_neg hbase, if_true]
  split <;> rfl

/-- With a mapped file the machine runs the sections of the file, all of them or those
in front of an unknown one. -/
theorem start_of_succeed {calls : SysCalls} (h : calls.Succeed) (host : Host) (turns : Nat) :
    start calls host turns =
      run host (loadfile host) turns (entryState host
        (if (parse 0 host.file host.fileBase .zero).1 ≠ 0 then calls.errno else 0)) := by
  unfold start
  rw [loadfileWith_of_succeed h]
  rfl

/-- What it means that a file that fails to load is never executed: the return code says
whether the calls and {lit}`parse` succeeded, and if it is not zero the process exits with
an error status before the first turn of the loop. -/
structure SafelyLoaded (calls : SysCalls) (host : Host) : Prop where
  returns : ∃ code sec, loadfileWith calls host .zero = .ok (code, sec) ∧
    (code = 0 ↔ calls.Succeed ∧ (parse 0 host.file host.fileBase .zero).1 = 0)
  refused : ∀ code sec, loadfileWith calls host .zero = .ok (code, sec) → code ≠ 0 →
    ∃ status vm printed, start calls host 0 = .error (.exit status vm printed) ∧ status ≠ 0

/-- Whatever the return code, the loop is entered. -/
theorem start_zero_eq_ok {calls : SysCalls} {host : Host} {code : Nat} {sec : Sections}
    (h : loadfileWith calls host .zero = .ok (code, sec)) :
    ∃ vm, start calls host 0 = .ok vm := by
  unfold start
  rw [h]
  exact ⟨_, rfl⟩

/-- Loading is safe exactly when all three calls succeed and the file has no section of an
unknown kind: in every other case the return code is that of a success, or the machine
runs on with the sections it has, or the file is read where it is not mapped. -/
theorem safelyLoaded_iff (calls : SysCalls) (host : Host) :
    SafelyLoaded calls host ↔ calls.Succeed ∧ KnownIds host.file host.fileBase := by
  rw [← parse_eq_zero_iff 0 host.file host.fileBase .zero]
  constructor
  · intro hsafe
    rcases hsafe.returns with ⟨code, sec, hload, hcode⟩
    by_cases hzero : code = 0
    · exact hcode.mp hzero
    · rcases hsafe.refused code sec hload hzero with ⟨status, vm, printed, hstop, _⟩
      rcases start_zero_eq_ok hload with ⟨vm', hok⟩
      rw [hok] at hstop
      cases hstop
  · rintro ⟨hsucceed, hparse⟩
    have hload := loadfileWith_of_succeed hsucceed host .zero
    rw [if_neg (not_not_intro hparse)] at hload
    refine ⟨⟨0, _, hload, by simp [hsucceed, hparse]⟩, ?_⟩
    intro code sec hload' hne
    rw [hload] at hload'
    cases hload'
    exact absurd rfl hne

/-- A file with an instruction, which sets a slot to the integer seven, and a section of
the unknown kind nine behind it. -/
def unknownSection : List Byte :=
  beBytes 4 2 ++ beBytes 4 0 ++ beBytes 4 4 ++ beBytes 4 9 ++ beBytes 4 0 ++
    beBytes 4 1 ++ (Instruction.ad Opcode.cshort.number 0 7).bytes

def unknownSectionHost : Host :=
  bytesHost unknownSection (by decide)

/-- All calls succeed, and an earlier call of the process left {lit}`errno`. -/
def allDone (errno : Nat) : SysCalls :=
  ⟨.done, .done, .done, errno⟩

theorem loadfileWith_allDone {host : Host}
    (hparse : (parse 0 host.file host.fileBase .zero).1 = 0) :
    loadfileWith (allDone 0) host .zero = .ok (0, loadfile host) := by
  rw [loadfileWith_of_succeed ⟨rfl, rfl, rfl⟩, if_neg (not_not_intro hparse)]
  rfl

/-- With a clear {lit}`errno` the unknown section is not reported.  With {lit}`ENOENT` it
is, and the machine executes the instruction in front of it. -/
theorem unknownSection_executed :
    ¬ SafelyLoaded (allDone 0) unknownSectionHost ∧
      (∃ sec, loadfileWith (allDone 0) unknownSectionHost .zero = .ok (0, sec)) ∧
      ¬ SafelyLoaded (allDone 2) unknownSectionHost ∧
      ∃ vm, start (allDone 2) unknownSectionHost 1 = .ok vm ∧ vm.out = [loadErrorText] ∧
        vm.stores = [0] := by
  have hparse : (parse 0 unknownSectionHost.file unknownSectionHost.fileBase .zero).1 ≠ 0 := by
    decide
  have hload (errno : Nat) := loadfileWith_of_succeed
    (⟨rfl, rfl, rfl⟩ : (allDone errno).Succeed) unknownSectionHost .zero
  simp only [if_pos hparse] at hload
  refine ⟨fun hsafe => ?_, ⟨_, hload 0⟩, fun hsafe => ?_, ⟨_, rfl, by decide, by decide⟩⟩
  · rcases hsafe.returns with ⟨code, sec, hcode, hiff⟩
    rw [hload] at hcode
    cases hcode
    exact hparse (hiff.mp rfl).2
  · rcases hsafe.refused 2 _ (hload 2) (by decide) with ⟨status, vm, printed, hstop, _⟩
    rcases start_zero_eq_ok (hload 2) with ⟨vm', hok⟩
    rw [hok] at hstop
    cases hstop

end ClojitCvm
