import ClojitCvm.Loader.Relocation
import ClojitCvm.Machine.IdealRuns
import ClojitCvm.Machine.ObjectLaws
import ClojitCvm.Machine.Placement

/-!
# Programs elsewhere in memory

The system maps the file at another address in every process, and the pool hands out other
blocks.  A program that never gets to a {lit}`CKEY` does not notice, provided that the rest of
its surroundings is the same: it can print the address of {lit}`println`, and it can allocate
by a type record that is read behind the first one.

Main results:

- Definition {lit}`Host.SameFile`: two processes with the same file and surroundings.
- Theorem {lit}`run_relocated`: without {lit}`CKEY` a run is the same wherever the file and
  the objects are.
-/

namespace ClojitCvm

open ByteMemory LockStep Slot

/-! ## The same file -/

/-- Two processes with the same file and the same surroundings, up to the addresses of the
file and of the blocks. -/
structure Host.SameFile (host host' : Host) : Prop where
  fileSize : host.fileSize = host'.fileSize
  file : ∀ k < host.fileSize,
    host.file (host.fileBase + k) = host'.file (host'.fileBase + k)
  /-- The low bits of this address are printed when {lit}`println` gets itself. -/
  println : host.println = host'.println
  /-- An {lit}`ALLOC` with an index from one on reads these records. -/
  typesPast : host.typesPast = host'.typesPast
  nativeLimit : host.nativeLimit = host'.nativeLimit
  /-- Whether an allocation succeeds depends on its number and on the sizes. -/
  reserve : ∀ n (blocks blocks' : List Block) size,
    blocks.map Block.size = blocks'.map Block.size →
      (host.reserve n blocks size).object?.isSome = (host'.reserve n blocks' size).object?.isSome

/-- The loader reads nothing behind the end of the file. -/
def Host.LoadsInside (host : Host) : Prop :=
  parseReads host.file host.fileBase .zero ⊆
    Set.Ico host.fileBase (host.fileBase + host.fileSize)

/-- A string is the same if the bytes are, as far as the search goes. -/
theorem cStringFrom_congr {mem mem' : Memory} {fuel a a' : Nat}
    (h : ∀ k < fuel, mem (a + k) = mem' (a' + k)) :
    cStringFrom mem fuel a = cStringFrom mem' fuel a' := by
  induction fuel generalizing a a' with
  | zero => rfl
  | succ fuel ih =>
      have hhead := h 0 (Nat.succ_pos fuel)
      rw [Nat.add_zero, Nat.add_zero] at hhead
      have htail : cStringFrom mem fuel (a + 1) = cStringFrom mem' fuel (a' + 1) := by
        refine ih fun k hk => ?_
        have hnext := h (k + 1) (Nat.succ_lt_succ hk)
        rwa [Nat.add_right_comm a 1 k, Nat.add_right_comm a' 1 k]
      rw [cStringFrom, cStringFrom, hhead, htail]

namespace Host.SameFile

variable {host host' : Host} (h : host.SameFile host')
include h

/-- The sections of the two processes. -/
theorem loadfile_relocated (hinside : host.LoadsInside) :
    Relocated host.fileBase host'.fileBase (loadfile host) (loadfile host') := by
  refine (parse_relocated fun x hx => ?_).2
  rcases hinside hx with ⟨hle, hlt⟩
  have hsame := h.file (x - host.fileBase) (by omega)
  rwa [Nat.add_sub_cancel' hle] at hsame

/-- A string that begins in the same place of the file is the same one, also if it has no
end. -/
theorem cString_eq {a a' : Nat} (ha : Behind host.fileBase host'.fileBase a a') :
    host.cString a = host'.cString a' := by
  rcases ha with ⟨offset, rfl, rfl⟩
  unfold Host.cString
  rw [if_pos (Nat.le_add_right _ _), if_pos (Nat.le_add_right _ _), ← h.fileSize,
    Nat.add_sub_add_left, Nat.add_sub_add_left]
  refine cStringFrom_congr fun k hk => ?_
  rw [Nat.add_assoc, Nat.add_assoc]
  exact h.file _ (by omega)

/-! ## The same program -/

/-- The instructions of the file are the same. -/
theorem instrAt_eq {sec sec' : Sections}
    (hinstr : Behind host.fileBase host'.fileBase sec.instr sec'.instr) (pc : BitVec 32) :
    instrAt host sec pc = instrAt host' sec' pc := by
  rcases hinstr.add (4 * pc.toNat) with ⟨offset, ha, ha'⟩
  have hfile : host.inFile (host.fileBase + offset) 4 =
      host'.inFile (host'.fileBase + offset) 4 := by
    simp only [Host.inFile, ← h.fileSize, Nat.add_assoc, Nat.le_add_right,
      Nat.add_le_add_iff_left]
  unfold instrAt
  rw [ha, ha']
  dsimp only
  rw [← hfile]
  split
  · next hin =>
    have hfits : host.fileBase + offset + 4 ≤ host.fileBase + host.fileSize := by
      simpa [Host.inFile] using hin
    have hload : loadLE host.file (host.fileBase + offset) 4 =
        loadLE host'.file (host'.fileBase + offset) 4 := by
      refine loadLE_congr fun i hi => ?_
      rw [Nat.add_assoc, Nat.add_assoc]
      exact h.file _ (by omega)
    rw [loadWord, loadWord, hload]
  · rfl

/-- A string index gives the same name. -/
theorem nameOf?_eq {sec sec' : Sections}
    (hcstr : List.Forall₂ (Behind host.fileBase host'.fileBase) sec.cstr sec'.cstr)
    (d : BitVec 16) : nameOf? host sec d = nameOf? host' sec' d := by
  unfold nameOf?
  have hlength := hcstr.length_eq
  by_cases hd : d.toNat < sec.cstr.length
  · have hd' : d.toNat < sec'.cstr.length := by omega
    rw [List.getElem?_eq_getElem hd, List.getElem?_eq_getElem hd']
    exact h.cString_eq (hcstr.get hd hd')
  · rw [List.getElem?_eq_none (by omega), List.getElem?_eq_none (by omega)]
    rfl

/-- An index gives the same type record. -/
theorem typesAt_eq {sec sec' : Sections} (htypes : sec.types = sec'.types) (d : Nat) :
    typesAt host sec d = typesAt host' sec' d := by
  rw [typesAt, typesAt, htypes, h.typesPast]

omit h in
/-- The file and the objects of every host are in the lower half. -/
theorem program_low (host : Host) (sec : Sections) : (host.program sec).Low where
  bytes a n hsome := by
    have hin : host.inFile a n = true := by
      by_contra hout
      simp only [Host.program, if_neg hout] at hsome
      cases hsome
    have hfits : host.fileBase ≤ a ∧ a + n ≤ host.fileBase + host.fileSize := by
      simpa [Host.inFile] using hin
    have hpage := host.page_le_fileBase
    have htop := host.file_le
    unfold Addressable
    omega
  reserve n blocks size addr haddr := by
    have hmapped := host.reserve_mapped n blocks size addr (Reply.object?_mem_addrs haddr)
    unfold Addressable
    omega

/-- The programs of the two processes. -/
theorem program_beside {sec sec' : Sections}
    (hsec : Relocated host.fileBase host'.fileBase sec sec') :
    (host.program sec).Beside (host'.program sec') where
  name := funext fun d => h.nameOf?_eq hsec.cstr d
  type := funext fun d => h.typesAt_eq hsec.types d.toNat
  println := h.println
  nativeLimit := h.nativeLimit
  reserve := h.reserve
  low := program_low host sec
  low' := program_low host' sec'

end Host.SameFile

/-! ## The same run -/

/-- Without instructions the first turn reads at address zero. -/
theorem step_of_instr_eq_zero {host : Host} {sec : Sections} (h : sec.instr = 0) :
    step host sec (vmInit host) = .error (.fault .wildRead) := by
  have hnone : instrAt host sec (vmInit host).pc = none := by
    unfold instrAt
    refine if_neg fun hin => ?_
    have hpage := host.page_le_fileBase
    have hlow : host.fileBase ≤ sec.instr + 4 * (vmInit host).pc.toNat := by
      have hboth : host.inFile (sec.instr + 4 * (vmInit host).pc.toNat) 4 = true := hin
      simp only [Host.inFile, Bool.and_eq_true, decide_eq_true_iff] at hboth
      exact hboth.1
    have hzero : (vmInit host).pc.toNat = 0 := rfl
    omega
  rw [step, current?, hnone]
  rfl

/-- A program that never gets to a {lit}`CKEY` in so many turns. -/
def QuietFor (host : Host) (sec : Sections) (n : Nat) : Prop :=
  ∀ m < n, ∀ vm ∈ (run host sec m (vmInit host)).toOption,
    ∀ inst ∈ current? host sec vm, inst.op ≠ some .ckey

instance (host : Host) (sec : Sections) (n : Nat) : Decidable (QuietFor host sec n) :=
  inferInstanceAs (Decidable (∀ m < n, _))

/-- A program that does not get to a {lit}`CKEY`, in a file that the loader does not read
behind its end, runs the same wherever the file is mapped and wherever the pool puts the
objects, with the rest of the surroundings the same: it goes on with the same slots, contexts,
globals, output and fields of objects, or exits with the same status and text, or meets the
same fault. -/
theorem run_relocated {host host' : Host} (hsame : host.SameFile host')
    (hinside : host.LoadsInside) {n : Nat} (hquiet : QuietFor host (loadfile host) n) :
    unplacedOutcome (idealOutcome (run host (loadfile host) n (vmInit host))) =
      unplacedOutcome (idealOutcome (run host' (loadfile host') n (vmInit host'))) := by
  have hsec := hsame.loadfile_relocated hinside
  rcases hsec.instr with ⟨hnull, hnull'⟩ | hinstr
  · cases n with
    | zero =>
        simp only [run, idealOutcome, vmInit_ideal host .zero, vmInit_ideal host' .zero]
        rw [Ideal.init, Ideal.init]
        simp only [Host.program, hsame.println]
    | succ n =>
        rw [run, run, step_of_instr_eq_zero hnull, step_of_instr_eq_zero hnull']
        rfl
  · have hprog := hsame.program_beside hsec
    have hprintln : host.println.toNat < 2 ^ 48 := by
      have := host.println_lt
      omega
    rw [Reachable.init.run_ideal n, Reachable.init.run_ideal n, vmInit_ideal host (loadfile host),
      vmInit_ideal host' (loadfile host')]
    refine Agree.unplacedOutcome_eq ((Beside.init hprog hprintln).run hprog ?_)
    intro m hm q hq
    rw [← vmInit_ideal host (loadfile host), ← Reachable.init.run_ideal m] at hq
    cases hrun : run host (loadfile host) m (vmInit host) with
    | error e => rw [hrun] at hq; cases e <;> cases hq
    | ok vm =>
        rw [hrun] at hq
        cases hq
        refine ⟨congrArg (Option.map decode) (hsame.instrAt_eq hinstr _), fun inst hinst => ?_⟩
        refine ⟨hquiet m hm vm (by rw [hrun]; rfl) inst hinst, ?_⟩
        rcases Option.map_eq_some_iff.mp hinst with ⟨word, _, rfl⟩
        exact (VM.decode_lt word).2.2

/-- The program that allocates an object, at some address and with room for one object. -/
def placedHost (base : Nat) (hlow : 4096 ≤ base) (hhigh : base ≤ 2 ^ 20) : Host :=
  { allocationHost with
    fileBase := base
    file := ofBytes base allocation.encode
    reserve := fun _ blocks _ => if blocks = [] then .granted (poolBase + base) else .refused
    page_le_fileBase := hlow
    file_le := by
      have hsize : allocationHost.fileSize = allocation.encode.length := rfl
      have hlength : allocation.encode.length ≤ 2 ^ 20 := by decide
      omega
    reserve_mapped := fun _ blocks size addr haddr => by
      have hsize := size.isLt
      have hlength : allocationHost.fileSize ≤ 2 ^ 20 := by decide
      split at haddr
      · cases List.mem_singleton.mp haddr
        unfold poolBase
        exact ⟨by omega, by omega, .inr (by omega)⟩
      · cases haddr
    reserve_fresh := fun _ blocks size addr haddr block hblock => by
      split at haddr
      · next hnil =>
        rw [hnil] at hblock
        cases hblock
      · cases haddr }

theorem lowBase_page : 4096 ≤ 4096 := Nat.le_refl _

theorem lowBase_le : 4096 ≤ 2 ^ 20 := by decide

theorem highBase_page : 4096 ≤ 8192 := by decide

theorem highBase_le : 8192 ≤ 2 ^ 20 := by decide

/-- The two addresses of the file. -/
def lowHost : Host :=
  placedHost 4096 lowBase_page lowBase_le

/-- The same file one page further up. -/
def highHost : Host :=
  placedHost 8192 highBase_page highBase_le

/-- The two hosts differ only in where the file is. -/
theorem lowHost_sameFile : lowHost.SameFile highHost where
  fileSize := rfl
  file k _ := by simp [lowHost, highHost, placedHost, ofBytes]
  println := rfl
  typesPast := rfl
  nativeLimit := rfl
  reserve n blocks blocks' size hsizes := by
    cases blocks with
    | nil =>
        cases blocks' with
        | nil => rfl
        | cons => cases hsizes
    | cons =>
        cases blocks' with
        | nil => cases hsizes
        | cons => rfl

/-- Its only section ends with the file. -/
theorem lowHost_loadsInside : lowHost.LoadsInside := by
  have hknown := (parse_eq_zero_iff 0 lowHost.file lowHost.fileBase .zero).mp (by decide)
  have hlayout : layout lowHost.file lowHost.fileBase =
      [⟨.instructions, 2, 4128⟩, ⟨.cint, 0, 4140⟩, ⟨.types, 1, 4144⟩] := by decide
  refine (parseReads_subset_iff hknown .zero).mpr ⟨by decide, by decide, ?_⟩
  rw [hlayout, List.forall_mem_cons, List.forall_mem_cons, List.forall_mem_singleton]
  exact ⟨trivial, trivial, .inr (by decide)⟩

/-- The program runs the same in both places. -/
theorem lowHost_relocated :
    unplacedOutcome (idealOutcome (run lowHost (loadfile lowHost) 2 (vmInit lowHost))) =
      unplacedOutcome (idealOutcome (run highHost (loadfile highHost) 2 (vmInit highHost))) :=
  @run_relocated lowHost highHost lowHost_sameFile lowHost_loadsInside 2 (by decide)

end ClojitCvm
