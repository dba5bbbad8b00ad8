import ClojitCvm.Heap.Blocks
import ClojitCvm.Loader.Format

/-!
# A host to run programs on

The simplest pool hands out every block behind the blocks it handed out before.  It
keeps the laws of a host, with any program file in front of it.

Main results:

- Definition {lit}`bumpHost`: the host with this pool and a given program file.
- Theorem {lit}`reachable_stateAfter`: the states a program runs through on a host.
-/

namespace ClojitCvm

open ByteMemory Slot

/-! ## The pool -/

/-- The first address of the pool. -/
def poolBase : Nat := 2 ^ 40

/-- The first address behind all blocks. -/
def poolTop : List Block → Nat
  | [] => poolBase
  | block :: blocks => max (block.addr + block.size) (poolTop blocks)

/-- The pool is exhausted at the end of the lower half of the address space. -/
def bumpReserve (blocks : List Block) (size : BitVec 32) : Reply :=
  if poolTop blocks + size.toNat ≤ 2 ^ 47 then .granted (poolTop blocks) else .refused

/-- The pool grows upwards. -/
theorem poolBase_le_poolTop (blocks : List Block) : poolBase ≤ poolTop blocks := by
  induction blocks with
  | nil => exact Nat.le_refl _
  | cons block blocks ih => exact Nat.le_trans ih (Nat.le_max_right _ _)

/-- Every block ends in front of the next object. -/
theorem end_le_poolTop {blocks : List Block} {block : Block} (h : block ∈ blocks) :
    block.addr + block.size ≤ poolTop blocks := by
  induction blocks with
  | nil => cases h
  | cons first blocks ih =>
      rcases List.mem_cons.mp h with rfl | h
      · exact Nat.le_max_left _ _
      · exact Nat.le_trans (ih h) (Nat.le_max_right _ _)

/-- A block is handed out behind all others, if there is room. -/
theorem mem_bumpReserve_addrs {blocks : List Block} {size : BitVec 32} {addr : Nat}
    (h : addr ∈ (bumpReserve blocks size).addrs) :
    addr = poolTop blocks ∧ poolTop blocks + size.toNat ≤ 2 ^ 47 := by
  unfold bumpReserve at h
  split at h
  · next hle => exact ⟨List.mem_singleton.mp h, hle⟩
  · cases h

/-! ## The host -/

/-- Arithmetic on doubles that gives zero; no program gets as far as computing with
doubles. -/
def zeroFloatOps : FloatOps where
  add _ _ := 0#64
  sub _ _ := 0#64
  mul _ _ := 0#64
  div _ _ := 0#64
  ofInt _ := 0#64
  eq _ _ := true
  format _ := "0.00"

/-- The blocks are mapped, and behind the file. -/
theorem bumpReserve_mapped {blocks : List Block} {size : BitVec 32} {addr fileSize : Nat}
    (hfile : fileSize < 2 ^ 32) (haddr : addr ∈ (bumpReserve blocks size).addrs) :
    4096 ≤ addr ∧ addr + size.toNat ≤ 2 ^ 47 ∧ Apart addr size.toNat 4096 fileSize := by
  rcases mem_bumpReserve_addrs haddr with ⟨rfl, hle⟩
  have hbase := poolBase_le_poolTop blocks
  unfold poolBase at hbase
  exact ⟨by omega, hle, .inr (by omega)⟩

/-- A new block overlaps no other one. -/
theorem bumpReserve_fresh {blocks : List Block} {size : BitVec 32} {addr : Nat} {block : Block}
    (haddr : addr ∈ (bumpReserve blocks size).addrs) (hblock : block ∈ blocks) :
    Apart addr size.toNat block.addr block.size := by
  rcases mem_bumpReserve_addrs haddr with ⟨rfl, _⟩
  exact .inr (end_le_poolTop hblock)

/-- The host with a program file of less than four gigabytes at address 4096. -/
def bumpHost (program : CvmbFile) (hlength : program.encode.length < 2 ^ 32) : Host where
  fileBase := 4096
  fileSize := program.encode.length
  file := ofBytes 4096 program.encode
  heap := fun _ => 0#8
  float := zeroFloatOps
  println := 0x400000#64
  reserve _ blocks size := bumpReserve blocks size
  typesPast _ := none
  nativeLimit := 100
  page_le_fileBase := Nat.le_refl _
  file_le := by omega
  println_ne_zero := by decide
  println_lt := by decide
  reserve_mapped _ _ _ _ haddr := bumpReserve_mapped hlength haddr
  reserve_fresh _ _ _ _ haddr _ hblock := bumpReserve_fresh haddr hblock

/-- The same host with any other bytes in front of the pool. -/
def bytesHost (bytes : List Byte) (hlength : bytes.length < 2 ^ 32) : Host :=
  { bumpHost ⟨[], by decide, by decide⟩ (by decide) with
    fileSize := bytes.length
    file := ofBytes 4096 bytes
    file_le := by
      change 4096 + bytes.length ≤ 2 ^ 47
      omega
    reserve_mapped := fun _ _ _ _ haddr => bumpReserve_mapped hlength haddr }

/-! ## Runs of a program -/

/-- The state after so many turns of the loop, or the first one if the process ends
before. -/
def stateAfter (host : Host) (sec : Sections) (n : Nat) : VM :=
  match run host sec n (vmInit host) with
  | .ok vm => vm
  | .error _ => vmInit host

/-- Whether the process is still running after so many turns of the loop. -/
def survives (host : Host) (sec : Sections) (n : Nat) : Bool :=
  match run host sec n (vmInit host) with
  | .ok _ => true
  | .error _ => false

/-- A run that survives so many turns ends in the state behind them. -/
theorem run_stateAfter {host : Host} {sec : Sections} {n : Nat}
    (h : survives host sec n = true) :
    run host sec n (vmInit host) = .ok (stateAfter host sec n) := by
  unfold survives at h
  unfold stateAfter
  split at h
  · next vm hvm => rw [hvm]
  · cases h

/-- This state is reachable. -/
theorem reachable_stateAfter {host : Host} {sec : Sections} {n : Nat}
    (h : survives host sec n = true) : Reachable host sec (stateAfter host sec n) :=
  Reachable.init.run (run_stateAfter h)

/-- The turns between two states of a run that survives. -/
theorem run_between {host : Host} {sec : Sections} {n m : Nat}
    (h : survives host sec (n + m) = true) (hn : survives host sec n = true) :
    run host sec m (stateAfter host sec n) = .ok (stateAfter host sec (n + m)) := by
  have hrun := run_stateAfter h
  rw [run_add, run_stateAfter hn] at hrun
  exact hrun

/-- One turn of it. -/
theorem step_stateAfter {host : Host} {sec : Sections} {n : Nat}
    (h : survives host sec (n + 1) = true) (hn : survives host sec n = true) :
    step host sec (stateAfter host sec n) = .ok (stateAfter host sec (n + 1)) := by
  rcases bind_eq_ok.mp (run_between h hn) with ⟨next, hstep, hdone⟩
  cases hdone
  exact hstep

/-- The status the process exits with. -/
def exitStatus? (x : Outcome VM VM) : Option Nat :=
  match x with
  | .error (.exit status _ _) => some status
  | _ => none

/-- A computation with an exit status is an exit. -/
theorem exitStatus?_eq_some {x : Outcome VM VM} {status : Nat} (h : exitStatus? x = some status) :
    ∃ last printed, x = .error (.exit status last printed) := by
  rcases x with (⟨s, last, printed⟩ | why) | vm
  · cases h
    exact ⟨last, printed, rfl⟩
  · cases h
  · cases h

/-- A call of a function that calls a function, and a call of {lit}`println` behind it. -/
def nestedCalls : CvmbFile where
  sections := [.instructions [.ad Opcode.fnew.number 2 6, .ad Opcode.call.number 1 0,
    .ad Opcode.cshort.number 3 7, .ad Opcode.nsget.number 2 0, .ad Opcode.call.number 1 0,
    .ad Opcode.exit.number 0 0,
    -- the first function
    .ad Opcode.fnew.number 3 9, .ad Opcode.call.number 2 0, .ad Opcode.ret.number 2 0,
    -- the second function
    .ad Opcode.cshort.number 2 42, .ad Opcode.ret.number 2 0], .cint [], .cstr [printlnName]]
  nodup := by decide
  wellFormed := by decide

/-- Its process. -/
def nestedHost : Host :=
  bumpHost nestedCalls (by decide)

/-- The state before turn {lit}`n` of the program. -/
def nestedState (n : Nat) : VM :=
  stateAfter nestedHost (loadfile nestedHost) n

end ClojitCvm
