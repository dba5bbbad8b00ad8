import ClojitCvm.Loader.Sections

/-!
# The sections of a buffer

Where {lit}`parse` looks for a section depends on the headers and the sections before
it, but not on the debug level or on what was loaded.  The layout of a buffer lists
the sections that are found; parsing is a fold over the layout.

Main results:

- Theorem {lit}`parse_eq_foldl`: parsing loads the sections of the layout one after
  the other and fails exactly when the layout ends early.
- Theorem {lit}`parse_eq_zero_iff`: which files {lit}`parse` accepts.
- Theorem {lit}`foldl_load_sameTable`: the table of a kind is left alone by sections of
  other kinds, except that instructions can disturb the integer table.
-/

namespace ClojitCvm

open ByteMemory ChainedHash

/-- A section as the loader finds it: its kind, its element count and the address of
its elements. -/
structure SectionAt where
  kind : SectionKind
  cnt : Nat
  data : Nat
deriving DecidableEq, Repr

/-- The section of a kind that starts at an offset. -/
def sectionAt (mem : Memory) (buf : Nat) (kind : SectionKind) (offset : Nat) : SectionAt where
  kind := kind
  cnt := ntohlAt mem (buf + offset)
  data := buf + (offset + 4) % 2 ^ 32

namespace SectionAt

/-- How far the offset moves over a section with the given header length. -/
def advance (mem : Memory) (s : SectionAt) (len : Nat) : Nat :=
  match s.kind with
  | .instructions | .cint | .cfloat | .vtables => len + 4
  | .cstr | .ckey => bytesOfStr mem s.data s.cnt + 4 + 4 + s.cnt * 4
  | .types => 0

/-- The rows of a section of dispatch records. -/
def vtableRecords (mem : Memory) (s : SectionAt) : List VtableRecord :=
  (List.range s.cnt).map fun j => vtableRecordAt mem (s.data + 12 * j)

/-- The rows of a section of type records. -/
def typeRecords (mem : Memory) (s : SectionAt) : List TypeRecord :=
  (List.range s.cnt).map fun j => typeRecordAt mem (s.data + 8 * j)

/-- What a section changes. -/
def load (debugLevel : Int) (mem : Memory) (sec : Sections) (s : SectionAt) : Sections :=
  match s.kind with
  | .instructions =>
      let sec := { sec with instrCnt := s.cnt, instr := s.data }
      if debugLevel > 0 then sec else { sec with cintCnt := s.cnt, cint := s.data }
  | .cint => { sec with cintCnt := s.cnt, cint := s.data }
  | .cfloat => { sec with cfloatCnt := s.cnt, cfloat := s.data }
  | .cstr => { sec with cstrCnt := s.cnt, cstr := stringPointers mem s.data s.cnt }
  | .ckey => { sec with ckeyCnt := s.cnt, ckey := stringPointers mem s.data s.cnt }
  | .vtables =>
      { sec with vtableCnt := s.cnt, vtable := addAll vtableHashing (s.vtableRecords mem) }
  | .types =>
      { sec with typesCnt := s.cnt, types := addAll typeHashing (s.typeRecords mem) }

end SectionAt

theorem foldl_addVtableRecord (xs : List VtableRecord) (sec : Sections) :
    xs.foldl addVtableRecord sec =
      { sec with vtable := xs.foldl (addHead vtableHashing) sec.vtable } := by
  induction xs generalizing sec with
  | nil => rfl
  | cons x xs ih => rw [List.foldl_cons, ih]; rfl

theorem foldl_addTypeRecord (xs : List TypeRecord) (sec : Sections) :
    xs.foldl addTypeRecord sec =
      { sec with types := xs.foldl (addHead typeHashing) sec.types } := by
  induction xs generalizing sec with
  | nil => rfl
  | cons x xs ih => rw [List.foldl_cons, ih]; rfl

/-- One turn of the loop moves the offset and loads the section found. -/
theorem parseSection_eq (debugLevel : Int) (mem : Memory) (buf secId len offset : Nat)
    (sec : Sections) :
    parseSection debugLevel mem buf secId len offset sec =
      (SectionKind.ofId? secId).map fun kind =>
        let s := sectionAt mem buf kind offset
        (offset + s.advance mem len, s.load debugLevel mem sec) := by
  unfold parseSection
  cases SectionKind.ofId? secId with
  | none => rfl
  | some kind =>
      cases kind with
      | instructions =>
          simp only [Option.map_some, SectionAt.load, SectionAt.advance, sectionAt, parseCint]
          split <;> rfl
      | cint => rfl
      | cfloat => rfl
      | cstr =>
          simp only [Option.map_some, SectionAt.load, SectionAt.advance, sectionAt, Nat.add_assoc]
      | ckey =>
          simp only [Option.map_some, SectionAt.load, SectionAt.advance, sectionAt, Nat.add_assoc]
      | vtables =>
          simp only [Option.map_some, SectionAt.load, SectionAt.advance, sectionAt,
            SectionAt.vtableRecords, addAll, Nat.add_assoc]
          rw [← List.foldl_map, foldl_addVtableRecord]
      | types =>
          simp only [Option.map_some, SectionAt.load, SectionAt.advance, sectionAt,
            SectionAt.typeRecords, addAll, Nat.add_zero]
          rw [← List.foldl_map, foldl_addTypeRecord]

/-! ## The layout of a buffer -/

/-- The sections found from header number {lit}`i` on. -/
def layoutFrom (mem : Memory) (buf : Nat) : (remaining i offset : Nat) → List SectionAt
  | 0, _, _ => []
  | remaining + 1, i, offset =>
      match SectionKind.ofId? (secIdAt mem buf i) with
      | none => []
      | some kind =>
          sectionAt mem buf kind offset :: layoutFrom mem buf remaining (i + 1)
            (offset + (sectionAt mem buf kind offset).advance mem (secLenAt mem buf i))

def layout (mem : Memory) (buf : Nat) : List SectionAt :=
  let hdrSize := ntohlAt mem buf
  layoutFrom mem buf hdrSize 0 (hdrSize * parseHdrSize + headerOffset)

theorem parseFrom_eq_foldl (debugLevel : Int) (mem : Memory) (buf : Nat)
    (remaining i offset : Nat) (sec : Sections) :
    parseFrom debugLevel mem buf remaining i offset sec =
      (if (layoutFrom mem buf remaining i offset).length = remaining then 0 else einval,
        (layoutFrom mem buf remaining i offset).foldl (SectionAt.load debugLevel mem) sec) := by
  induction remaining generalizing i offset sec with
  | zero => rfl
  | succ remaining ih =>
      rw [parseFrom, layoutFrom, parseSection_eq]
      cases SectionKind.ofId? (secIdAt mem buf i) with
      | none => simp
      | some kind =>
          simp only [Option.map_some, List.length_cons, List.foldl_cons, ih,
            Nat.add_right_cancel_iff]

/-- Parsing loads the sections of the layout in order.  It returns
{lit}`EINVAL` exactly when an unknown section id ends the layout early. -/
theorem parse_eq_foldl (debugLevel : Int) (mem : Memory) (buf : Nat) (sec : Sections) :
    parse debugLevel mem buf sec =
      (if (layout mem buf).length = ntohlAt mem buf then 0 else einval,
        (layout mem buf).foldl (SectionAt.load debugLevel mem) sec) :=
  parseFrom_eq_foldl debugLevel mem buf _ _ _ sec

/-! ## Accepted files -/

/-- The ids of all sections in the header list are known. -/
def KnownIds (mem : Memory) (buf : Nat) : Prop :=
  ∀ i < ntohlAt mem buf, (SectionKind.ofId? (secIdAt mem buf i)).isSome = true

theorem length_layoutFrom_eq_iff (mem : Memory) (buf remaining i offset : Nat) :
    (layoutFrom mem buf remaining i offset).length = remaining ↔
      ∀ k < remaining, (SectionKind.ofId? (secIdAt mem buf (i + k))).isSome = true := by
  induction remaining generalizing i offset with
  | zero => simp [layoutFrom]
  | succ remaining ih =>
      rw [layoutFrom]
      cases hkind : SectionKind.ofId? (secIdAt mem buf i) with
      | none =>
          refine iff_of_false (by simp) (fun h => ?_)
          have hzero := h 0 (Nat.succ_pos _)
          simp [hkind] at hzero
      | some kind =>
          rw [List.length_cons, Nat.add_right_cancel_iff, ih]
          constructor
          · intro h k hk
            cases k with
            | zero => simp [hkind]
            | succ k =>
                rw [show i + (k + 1) = i + 1 + k by omega]
                exact h k (by omega)
          · intro h k hk
            rw [show i + 1 + k = i + (k + 1) by omega]
            exact h (k + 1) (by omega)

/-- The loader accepts a file exactly when it knows all ids. -/
theorem parse_eq_zero_iff (debugLevel : Int) (mem : Memory) (buf : Nat) (sec : Sections) :
    (parse debugLevel mem buf sec).1 = 0 ↔ KnownIds mem buf := by
  rw [parse_eq_foldl]
  have hlength := length_layoutFrom_eq_iff mem buf (ntohlAt mem buf) 0
    (ntohlAt mem buf * parseHdrSize + headerOffset)
  simp only [Nat.zero_add] at hlength
  rw [KnownIds, ← hlength]
  change (if (layout mem buf).length = _ then 0 else einval) = 0 ↔ (layout mem buf).length = _
  split
  · next heq => simp [heq]
  · next hne => simp [hne, einval]

/-! ## Which tables a section leaves alone -/

/-- The pointers and counts of one section kind agree. -/
def SameTable (kind : SectionKind) (sec sec' : Sections) : Prop :=
  match kind with
  | .instructions => sec.instr = sec'.instr ∧ sec.instrCnt = sec'.instrCnt
  | .cint => sec.cint = sec'.cint ∧ sec.cintCnt = sec'.cintCnt
  | .cfloat => sec.cfloat = sec'.cfloat ∧ sec.cfloatCnt = sec'.cfloatCnt
  | .cstr => sec.cstr = sec'.cstr ∧ sec.cstrCnt = sec'.cstrCnt
  | .ckey => sec.ckey = sec'.ckey ∧ sec.ckeyCnt = sec'.ckeyCnt
  | .vtables => sec.vtable = sec'.vtable ∧ sec.vtableCnt = sec'.vtableCnt
  | .types => sec.types = sec'.types ∧ sec.typesCnt = sec'.typesCnt

namespace SameTable

variable {kind : SectionKind} {sec sec' sec'' : Sections}

theorem refl (kind : SectionKind) (sec : Sections) : SameTable kind sec sec := by
  cases kind <;> exact ⟨rfl, rfl⟩

theorem symm (h : SameTable kind sec sec') : SameTable kind sec' sec := by
  cases kind <;> exact ⟨h.1.symm, h.2.symm⟩

theorem trans (h : SameTable kind sec sec') (h' : SameTable kind sec' sec'') :
    SameTable kind sec sec'' := by
  cases kind <;> exact ⟨h.1.trans h'.1, h.2.trans h'.2⟩

end SameTable

/-- Sections that agree on every table are equal. -/
theorem Sections.ext_sameTable {sec sec' : Sections}
    (h : ∀ kind, SameTable kind sec sec') : sec = sec' := by
  have hinstr := h .instructions
  have hcint := h .cint
  have hcfloat := h .cfloat
  have hcstr := h .cstr
  have hckey := h .ckey
  have hvtables := h .vtables
  have htypes := h .types
  cases sec
  cases sec'
  simp only [SameTable] at *
  simp_all

/-- A section of the given kind can change the table of another kind only where
instructions fall through into the integer case. -/
def Disturbs (debugLevel : Int) (s : SectionAt) (kind : SectionKind) : Prop :=
  s.kind = kind ∨ (s.kind = .instructions ∧ kind = .cint ∧ ¬ debugLevel > 0)

instance (debugLevel : Int) (s : SectionAt) (kind : SectionKind) :
    Decidable (Disturbs debugLevel s kind) :=
  inferInstanceAs (Decidable (_ ∨ _))

theorem load_sameTable {debugLevel : Int} {s : SectionAt} {kind : SectionKind}
    (h : ¬ Disturbs debugLevel s kind) (mem : Memory) (sec : Sections) :
    SameTable kind (s.load debugLevel mem sec) sec := by
  rcases s with ⟨skind, cnt, data⟩
  simp only [Disturbs, not_or, not_and, not_not] at h
  cases skind with
  | instructions =>
      by_cases hdebug : debugLevel > 0
      · cases kind <;> first | exact absurd rfl h.1 | simp [SectionAt.load, SameTable, hdebug]
      · cases kind <;>
          first
          | exact absurd rfl h.1
          | exact absurd (h.2 rfl rfl) hdebug
          | simp [SectionAt.load, SameTable, hdebug]
  | _ => cases kind <;> first | exact absurd rfl h.1 | simp [SectionAt.load, SameTable]

/-- The table of a kind survives every section that does not disturb it. -/
theorem foldl_load_sameTable {debugLevel : Int} {kind : SectionKind} (mem : Memory)
    {xs : List SectionAt} (h : ∀ s ∈ xs, ¬ Disturbs debugLevel s kind) (sec : Sections) :
    SameTable kind (xs.foldl (SectionAt.load debugLevel mem) sec) sec := by
  induction xs generalizing sec with
  | nil => exact SameTable.refl kind sec
  | cons s xs ih =>
      rw [List.forall_mem_cons] at h
      exact (ih h.2 _).trans (load_sameTable h.1 mem sec)

end ClojitCvm
