import ClojitCvm.Loader.Contents
import ClojitCvm.Machine.CheckedPrograms
import ClojitCvm.Machine.Relocation

/-!
# What a program file means

The loader and the machine together give a file a meaning in which its bytes and the addresses
of the file and of the objects have no part: the ideal machine runs the list of instructions,
with the list of strings for names and the first type row for the objects with index zero.
Where the sections stand in the file, and what the other sections contain, does not matter.
What a process finds beside its file does: where {lit}`println` is, the records that are read
behind the first type record, the depth of the native stack and the allocations granted.

Main results:

- Definition {lit}`CvmbFile.program`: the program of a file in its surroundings.
- Theorem {lit}`run_means_file`: the process that loads a file runs its program.
- Theorem {lit}`run_of_same_parts`: files with the same checked instructions, strings and
  types run the same.
-/

namespace ClojitCvm

open ByteMemory ChainedHash LockStep Slot

/-! ## Programs of files -/

/-- The operands of an instruction, seen through both overlays. -/
def Instruction.decoded : Instruction → Decoded
  | .abc op a b c =>
      { op := Opcode.ofByte? op
        a := a.toNat
        b := b.toNat
        c := c.toNat
        d := .ofNat 16 (b.toNat * 256 + c.toNat) }
  | .ad op a d =>
      { op := Opcode.ofByte? op
        a := a.toNat
        b := d.toNat / 256
        c := d.toNat % 256
        d := d }

/-- What a program finds beside its file, apart from where the file and the objects are. -/
structure Surroundings where
  /-- The address of {lit}`builtin_println`, of which a program can print the low bits. -/
  println : Word
  nativeLimit : Nat
  /-- What lies behind the first type record. -/
  typesPast : Nat → Option TypeRecord
  /-- Whether an allocation succeeds, given the sizes of the objects so far. -/
  grants : Nat → List Nat → BitVec 32 → Bool

/-- The program that a file stands for in its surroundings.  The first type row is all that
an {lit}`ALLOC` finds of the file's types, and all objects have the same address, for none is
ever used. -/
def CvmbFile.program (file : CvmbFile) (env : Surroundings) : Program where
  code pc := file.code[pc.toNat]?.map Instruction.decoded
  key _ := none
  name d := file.names[d.toNat]?
  type d :=
    match file.typeRows with
    | [] => none
    | row :: _ => if d.toNat = 0 then some row.record else env.typesPast d.toNat
  bytes _ _ := none
  println := env.println
  reserve n blocks size :=
    if env.grants n (blocks.map Block.size) size then some 4096 else none
  nativeLimit := env.nativeLimit

/-- The process gives its programs these surroundings; wherever its pool puts the objects, it
grants them by their number and sizes. -/
structure Host.Provides (host : Host) (env : Surroundings) : Prop where
  println : host.println = env.println
  nativeLimit : host.nativeLimit = env.nativeLimit
  typesPast : host.typesPast = env.typesPast
  grants : ∀ n blocks size,
    (host.reserve n blocks size).object?.isSome = env.grants n (blocks.map Block.size) size

/-- The address of {lit}`println` is in the lower half of the address space. -/
theorem Host.Provides.println_lt {host : Host} {env : Surroundings} (h : host.Provides env)
    (file : CvmbFile) : (file.program env).println.toNat < 2 ^ 48 := by
  have hlow := host.println_lt
  rw [h.println] at hlow
  exact Nat.lt_trans hlow (by decide)

/-- The file is mapped as a whole. -/
structure Host.Maps (host : Host) (file : CvmbFile) : Prop where
  hasBytes : HasBytes host.file host.fileBase file.encode
  length_le : file.encode.length ≤ host.fileSize

/-- In so many turns the program neither leaves its instructions nor gets to a {lit}`CKEY`. -/
def Program.StaysInside (prog : Program) (n : Nat) : Prop :=
  ∀ m < n, ∀ p ∈ ((Ideal.init prog).run prog m).toOption,
    ∃ inst ∈ prog.code p.pc, inst.op ≠ some .ckey

instance (prog : Program) (n : Nat) : Decidable (prog.StaysInside n) :=
  inferInstanceAs (Decidable (∀ m < n, _))

/-! ## The parts of the program -/

/-- The bytes of an instruction are decoded to its operands. -/
theorem decode_load {mem : Memory} {a : Nat} {inst : Instruction}
    (h : HasBytes mem a inst.bytes) : decode (loadWord mem a 4) = inst.decoded := by
  have habc := OpABC.ofInstr_load mem a
  have had := (OpAD.ofInstr_load mem a).2.2
  cases inst with
  | abc op a' b c =>
      simp only [Instruction.bytes, hasBytes_cons, Nat.add_assoc, Nat.reduceAdd] at h
      rcases h with ⟨hop, ha, hb, hc, _⟩
      simp only [decode, habc, had, hop, ha, hb, hc, Instruction.decoded, loadBE]
      congr 2
      omega
  | ad op a' d =>
      have hlt := d.isLt
      simp only [Instruction.bytes, beBytes, hasBytes_cons, Nat.add_assoc, Nat.reduceAdd] at h
      rcases h with ⟨hop, ha, hhigh, hlow, _⟩
      have hb : (mem (a + 2)).toNat = d.toNat / 256 := by
        rw [hhigh, BitVec.toNat_ofNat]
        omega
      have hc : (mem (a + 3)).toNat = d.toNat % 256 := by
        rw [hlow, BitVec.toNat_ofNat]
        omega
      have hd : BitVec.ofNat 16 (loadBE mem (a + 2) 2) = d := by
        apply BitVec.eq_of_toNat_eq
        simp only [loadBE, Nat.add_assoc, Nat.reduceAdd, hb, hc, BitVec.toNat_ofNat]
        omega
      simp only [decode, habc, had, hop, ha, hb, hc, hd, Instruction.decoded]

/-- A string in memory is read up to its NUL. -/
theorem cStringFrom_hasBytes {mem : Memory} {name : List Byte} {a fuel : Nat}
    (h : HasBytes mem a (name ++ [0#8])) (hnul : 0#8 ∉ name) (hfuel : name.length < fuel) :
    cStringFrom mem fuel a = some name := by
  induction name generalizing a fuel with
  | nil =>
      cases fuel with
      | zero => exact absurd hfuel (Nat.not_lt_zero _)
      | succ fuel =>
          have hend := (hasBytes_cons.mp h).1
          rw [cStringFrom, if_pos hend]
  | cons byte name ih =>
      cases fuel with
      | zero => exact absurd hfuel (Nat.not_lt_zero _)
      | succ fuel =>
          rcases hasBytes_cons.mp h with ⟨hbyte, hrest⟩
          rw [List.mem_cons, not_or] at hnul
          have htail := ih hrest hnul.2 (by simpa using hfuel)
          rw [cStringFrom, hbyte, if_neg (Ne.symm hnul.1), htail]
          rfl

/-- A string of the file is read up to its NUL. -/
theorem cString_hasBytes {host : Host} {name : List Byte} {a : Nat} (hle : host.fileBase ≤ a)
    (h : HasBytes host.file a (name ++ [0#8])) (hnul : 0#8 ∉ name)
    (hend : a + name.length + 1 ≤ host.fileBase + host.fileSize) :
    host.cString a = some name := by
  rw [Host.cString, if_pos hle]
  exact cStringFrom_hasBytes h hnul (by omega)

section Parts

variable {file : CvmbFile} {host : Host} {env : Surroundings} (hmaps : host.Maps file)
  (henv : host.Provides env) (htypes : file.TypesLast) (hreach : file.Reachable)

include hmaps htypes hreach

/-- The machine finds the instructions of the file. -/
theorem code_eq {pc : BitVec 32} {inst : Decoded} (hinst : inst ∈ (file.program env).code pc) :
    (host.program (loadfile host)).code pc = some inst := by
  rcases Option.map_eq_some_iff.mp hinst with ⟨shape, hshape, rfl⟩
  rcases code_found hmaps.hasBytes htypes hreach hshape with ⟨hbytes, hle, hend⟩
  have hlength := hmaps.length_le
  have hin : host.inFile ((loadfile host).instr + 4 * pc.toNat) 4 = true := by
    change host.fileBase ≤ (loadfile host).instr at hle
    change (loadfile host).instr + 4 * pc.toNat + 4 ≤ _ at hend
    rw [Host.inFile, Bool.and_eq_true]
    exact ⟨decide_eq_true (by omega), decide_eq_true (by omega)⟩
  change (instrAt host (loadfile host) pc).map decode = _
  rw [instrAt, if_pos hin, Option.map_some, ← decode_load hbytes]
  rfl

/-- The names of the program are the strings that the loader finds. -/
theorem name_eq : (file.program env).name = (host.program (loadfile host)).name := by
  funext d
  rcases name_found hmaps.hasBytes htypes hreach with ⟨hlength, hnames⟩
  change file.names[d.toNat]? = (loadfile host).cstr[d.toNat]?.bind host.cString
  cases hname : file.names[d.toNat]? with
  | none =>
      have hge : (loadfile host).cstr.length ≤ d.toNat := by
        rw [loadfile, hlength]
        exact List.getElem?_eq_none_iff.mp hname
      rw [List.getElem?_eq_none hge]
      rfl
  | some name =>
      rcases hnames d.toNat name hname with ⟨a, ha, hle, hbytes, hnul, hend⟩
      have hsize := hmaps.length_le
      rw [loadfile, ha]
      exact (cString_hasBytes hle hbytes hnul (by omega)).symm

include henv

/-- The types of the program are the records that {lit}`sec.types[d]` reads. -/
theorem type_eq : (file.program env).type = (host.program (loadfile host)).type := by
  funext d
  have hfound := types_found hmaps.hasBytes htypes hreach
  change _ = typesAt host (loadfile host) d.toNat
  rw [typesAt, loadfile, hfound, henv.typesPast]
  cases hrows : file.typeRows with
  | nil => simp [CvmbFile.program, hrows, addAll]
  | cons row rows =>
      cases htable : addAll typeHashing ((row :: rows).map TypeRow.record) with
      | none =>
          rw [addAll_eq_none_iff] at htable
          cases htable
      | some table =>
          have hitems := addAll_items typeHashing ((row :: rows).map TypeRow.record)
          rw [htable] at hitems
          have hhead : table.items.head? = some row.record := by
            change table.items = _ at hitems
            rw [hitems]
            rfl
          simp only [CvmbFile.program, hrows, hhead]

/-- The program of the file and the one the machine finds. -/
theorem program_beside_host :
    (file.program env).Beside (host.program (loadfile host)) where
  name := name_eq hmaps htypes hreach
  type := type_eq hmaps henv htypes hreach
  println := henv.println.symm
  nativeLimit := henv.nativeLimit.symm
  reserve n blocks blocks' size hsizes := by
    have hgrants := henv.grants n blocks' size
    change (if env.grants n (blocks.map Block.size) size then some 4096 else none).isSome =
      (host.reserve n blocks' size).object?.isSome
    rw [hgrants, hsizes]
    split
    · next hgranted => exact hgranted.symm
    · next hrefused => simpa using hrefused
  low := by
    refine ⟨fun a n hsome => (by cases hsome), fun n blocks size addr haddr => ?_⟩
    change addr ∈ (if _ then some 4096 else none) at haddr
    split at haddr
    · cases haddr
      exact ⟨Nat.le_refl _, by decide⟩
    · cases haddr
  low' := Host.SameFile.program_low host _

end Parts

/-! ## Runs -/

/-- The program of the file and the process take the same turns. -/
theorem program_runs_beside {file : CvmbFile} {host : Host} {env : Surroundings}
    (hmaps : host.Maps file) (henv : host.Provides env) (htypes : file.TypesLast)
    (hreach : file.Reachable) {n : Nat} (hinside : (file.program env).StaysInside n) :
    Agree Beside ((Ideal.init (file.program env)).run (file.program env) n)
      (idealOutcome (run host (loadfile host) n (vmInit host))) := by
  have hprog := program_beside_host hmaps henv htypes hreach
  rw [Reachable.init.run_ideal n, vmInit_ideal host (loadfile host)]
  refine (Beside.init hprog (henv.println_lt file)).run hprog ?_
  intro m hm p hp
  rcases hinside m hm p (by rw [hp]; rfl) with ⟨inst, hinst, hop⟩
  have hcode : (file.program env).code p.pc = some inst := hinst
  refine ⟨by rw [hcode, code_eq hmaps htypes hreach hinst], fun inst' hinst' => ?_⟩
  rw [hcode] at hinst'
  cases hinst'
  refine ⟨hop, ?_⟩
  have hhost := code_eq hmaps htypes hreach hinst
  rcases Option.map_eq_some_iff.mp hhost with ⟨word, _, rfl⟩
  exact (VM.decode_lt word).2.2

/-- Whatever the order of the sections in front of the types and wherever the file is mapped,
a process that finds the surroundings and loads the file does what the program does in them,
as long as the program stays on its instructions and away from {lit}`CKEY`: it goes on with
the same slots, contexts, globals, output and fields of objects, or exits with the same status
and text, or meets the same fault. -/
theorem run_means_file {file : CvmbFile} {host : Host} {env : Surroundings}
    (hmaps : host.Maps file) (henv : host.Provides env) (htypes : file.TypesLast)
    (hreach : file.Reachable) {n : Nat} (hinside : (file.program env).StaysInside n) :
    unplacedOutcome (idealOutcome (run host (loadfile host) n (vmInit host))) =
      unplacedOutcome ((Ideal.init (file.program env)).run (file.program env) n) :=
  (program_runs_beside hmaps henv htypes hreach hinside).unplacedOutcome_eq.symm

/-- A host without memory for objects. -/
def poorHost (file : CvmbFile) (hlength : file.encode.length < 2 ^ 32) : Host :=
  { bumpHost file hlength with
    reserve := fun _ _ _ => .refused
    reserve_mapped := fun _ _ _ _ haddr => by cases haddr
    reserve_fresh := fun _ _ _ _ haddr => by cases haddr }

/-- The surroundings in which no object is granted. -/
def poorSurroundings : Surroundings where
  println := 0x400000#64
  nativeLimit := 100
  typesPast _ := none
  grants _ _ _ := false

/-- The file is mapped as a whole. -/
theorem poorHost_maps (file : CvmbFile) (hlength : file.encode.length < 2 ^ 32) :
    (poorHost file hlength).Maps file where
  hasBytes := hasBytes_ofBytes 4096 _
  length_le := Nat.le_refl _

/-- These are the surroundings of its programs. -/
theorem poorHost_provides (file : CvmbFile) (hlength : file.encode.length < 2 ^ 32) :
    (poorHost file hlength).Provides poorSurroundings :=
  ⟨rfl, rfl, rfl, fun _ _ _ => rfl⟩

/-- Without a section of types there is nothing behind one. -/
theorem typesLast_of_notMem {file : CvmbFile} (h : .types ∉ file.kinds) : file.TypesLast := by
  intro front back hsplit
  refine absurd ?_ h
  rw [hsplit]
  exact List.mem_append_right _ List.mem_cons_self

/-- The sections of the file are within the first 4 GiB. -/
theorem nestedCalls_reachable : nestedCalls.Reachable :=
  ⟨by decide, by decide, by decide, trivial⟩

/-- The program with nested calls, to its end. -/
theorem nestedCalls_means :
    unplacedOutcome (idealOutcome (run (poorHost nestedCalls (by decide))
      (loadfile (poorHost nestedCalls (by decide))) 12
      (vmInit (poorHost nestedCalls (by decide))))) =
    unplacedOutcome ((Ideal.init (nestedCalls.program poorSurroundings)).run
      (nestedCalls.program poorSurroundings) 12) :=
  run_means_file (poorHost_maps _ _) (poorHost_provides _ _)
    (typesLast_of_notMem (by decide)) nestedCalls_reachable (by decide)

/-! ## Order of the sections -/

/-- The instructions of a file pass the check of a program whose functions start at
{lit}`top`, and no one is a {lit}`CKEY`. -/
def CvmbFile.Checked (file : CvmbFile) (top : Nat) : Prop :=
  0 < top ∧ 0 < file.code.length ∧ ∀ k < file.code.length, ∃ inst ∈ file.code[k]?,
    inst.decoded.Checked top file.code.length (.ofNat 32 k) ∧ inst.decoded.op ≠ some .ckey

instance (file : CvmbFile) (top : Nat) : Decidable (file.Checked top) :=
  inferInstanceAs (Decidable (_ ∧ _))

namespace CvmbFile.Checked

variable {file : CvmbFile} {top : Nat} (h : file.Checked top) (env : Surroundings)

include h

/-- A checked file has an instruction at every place of the program. -/
theorem code {pc : BitVec 32} (hpc : pc.toNat < file.code.length) :
    ∃ inst, (file.program env).code pc = some inst ∧
      inst.Checked top file.code.length pc ∧ inst.op ≠ some .ckey := by
  rcases h.2.2 pc.toNat hpc with ⟨inst, hinst, hchecked⟩
  rw [BitVec.ofNat_toNat, BitVec.setWidth_eq] at hchecked
  refine ⟨inst.decoded, ?_, hchecked⟩
  change file.code[pc.toNat]?.map Instruction.decoded = _
  rw [hinst]
  rfl

/-- The program of a checked file is checked. -/
theorem program : (file.program env).Checked top file.code.length where
  code pc hpc := by
    rcases h.code env hpc with ⟨inst, hinst, hchecked, _⟩
    exact ⟨inst, hinst, hchecked⟩
  key d key hkey := by cases hkey

/-- A checked file never leaves its instructions. -/
theorem staysInside (hprintln : env.println.toNat < 2 ^ 48) (n : Nat) :
    (file.program env).StaysInside n := by
  intro m _ p hp
  have hrun : (Ideal.init (file.program env)).run (file.program env) m = .ok p := by
    cases hresult : (Ideal.init (file.program env)).run (file.program env) m with
    | error e =>
        rw [hresult] at hp
        cases hp
    | ok q =>
        rw [hresult] at hp
        cases hp
        rfl
  have hpc := (h.program env).run_inside h.1 h.2.1 hprintln hrun
  rcases h.code env hpc with ⟨inst, hinst, _, hop⟩
  exact ⟨inst, hinst, hop⟩

end CvmbFile.Checked

/-- Two files with the same checked instructions, the same strings and the same type rows run
the same in the same surroundings for any number of turns, whatever the order of their
sections, their other sections and the places where they are mapped. -/
theorem run_of_same_parts {file file' : CvmbFile} {host host' : Host} {env : Surroundings}
    (hmaps : host.Maps file) (hmaps' : host'.Maps file') (henv : host.Provides env)
    (henv' : host'.Provides env) (htypes : file.TypesLast) (htypes' : file'.TypesLast)
    (hreach : file.Reachable) (hreach' : file'.Reachable) (hcode : file.code = file'.code)
    (hnames : file.names = file'.names) (hrows : file.typeRows = file'.typeRows) {top : Nat}
    (hchecked : file.Checked top) (n : Nat) :
    unplacedOutcome (idealOutcome (run host (loadfile host) n (vmInit host))) =
      unplacedOutcome (idealOutcome (run host' (loadfile host') n (vmInit host'))) := by
  have hprogram : file.program env = file'.program env := by
    simp only [CvmbFile.program, hcode, hnames, hrows]
  have hinside := hchecked.staysInside env (henv.println_lt file) n
  have hfirst := program_runs_beside hmaps henv htypes hreach hinside
  rw [hprogram] at hinside hfirst
  have hsecond := program_runs_beside hmaps' henv' htypes' hreach' hinside
  exact hfirst.unplacedOutcome_eq.symm.trans hsecond.unplacedOutcome_eq

/-- The program with nested calls, with its strings in front and some integers. -/
def shuffledCalls : CvmbFile where
  sections := [.cstr [printlnName], .cint [7, 8], .instructions nestedCalls.code]
  nodup := by decide
  wellFormed := by decide

/-- The sections of the other file are within the first 4 GiB. -/
theorem shuffledCalls_reachable : shuffledCalls.Reachable :=
  ⟨by decide, by decide, by decide, trivial⟩

/-- Six instructions are in front of the functions. -/
theorem nestedCalls_checked : nestedCalls.Checked 6 := by
  decide

/-- The two files run the same. -/
theorem shuffledCalls_runs :
    unplacedOutcome (idealOutcome (run (poorHost nestedCalls (by decide))
      (loadfile (poorHost nestedCalls (by decide))) 1000
      (vmInit (poorHost nestedCalls (by decide))))) =
    unplacedOutcome (idealOutcome (run (poorHost shuffledCalls (by decide))
      (loadfile (poorHost shuffledCalls (by decide))) 1000
      (vmInit (poorHost shuffledCalls (by decide))))) :=
  run_of_same_parts (poorHost_maps _ _) (poorHost_maps _ _) (poorHost_provides _ _)
    (poorHost_provides _ _) (typesLast_of_notMem (by decide)) (typesLast_of_notMem (by decide))
    nestedCalls_reachable shuffledCalls_reachable (by decide) (by decide) (by decide)
    nestedCalls_checked 1000

end ClojitCvm
