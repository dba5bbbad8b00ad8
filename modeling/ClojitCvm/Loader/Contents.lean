import ClojitCvm.Lib.HashBalance
import ClojitCvm.Loader.SectionOrder

/-!
# What a loaded file holds for a run

A run reads instructions, strings and type records.  Wherever these sections stand in a
file, the loader finds them, provided that the types stand last: integers are the only
table that the case for instructions disturbs, and no instruction reads an integer.

Main results:

- Theorem {lit}`code_found`: the instructions lie one behind the other inside the file.
- Theorem {lit}`name_found`: every string is found inside the file.
- Theorem {lit}`types_found`: the hash table holds the records of the type rows.
-/

namespace ClojitCvm

open ByteMemory ChainedHash

/-! ## The parts of a file -/

/-- The instructions of a section. -/
def Section.code : Section → List Instruction
  | .instructions code => code
  | _ => []

/-- The strings of a section. -/
def Section.names : Section → List (List Byte)
  | .cstr strings => strings
  | _ => []

/-- The type rows of a section. -/
def Section.typeRows : Section → List TypeRow
  | .types rows => rows
  | _ => []

/-- The record of a type row, with the size in bytes. -/
def TypeRow.record (row : TypeRow) : TypeRecord :=
  ⟨row.id, row.size * 8#32 + 8#32⟩

namespace CvmbFile

/-- The instructions of a file: it has at most one section of them. -/
def code (file : CvmbFile) : List Instruction :=
  file.sections.flatMap Section.code

/-- The strings of a file. -/
def names (file : CvmbFile) : List (List Byte) :=
  file.sections.flatMap Section.names

/-- The type rows of a file. -/
def typeRows (file : CvmbFile) : List TypeRow :=
  file.sections.flatMap Section.typeRows

/-- No section stands behind the types. -/
def TypesLast (file : CvmbFile) : Prop :=
  ∀ front back, file.kinds = front ++ .types :: back → back = []

/-- At most one section of a kind has elements. -/
theorem flatMap_eq_of_mem {α : Type} {file : CvmbFile} {s : Section} (part : Section → List α)
    (hs : s ∈ file.sections) (hpart : ∀ x, x.kind ≠ s.kind → part x = []) :
    file.sections.flatMap part = part s := by
  rcases List.append_of_mem hs with ⟨front, back, hsections⟩
  have hnodup := file.nodup
  rw [hsections, List.map_append, List.map_cons, List.nodup_append, List.nodup_cons] at hnodup
  have hnil : ∀ xs : List Section, s.kind ∉ xs.map Section.kind → xs.flatMap part = [] := by
    intro xs hxs
    rw [List.flatMap_eq_nil_iff]
    intro x hx
    refine hpart x fun hkind => hxs ?_
    rw [← hkind]
    exact List.mem_map_of_mem hx
  rw [hsections, List.flatMap_append, List.flatMap_cons, hnil back hnodup.2.1.1, hnil front,
    List.nil_append, List.append_nil]
  exact fun hfront => hnodup.2.2 _ hfront _ List.mem_cons_self rfl

/-- A file without a section of a kind has nothing of the part. -/
theorem flatMap_eq_nil {α : Type} {file : CvmbFile} {kind : SectionKind}
    (part : Section → List α) (hkind : kind ∉ file.kinds)
    (hpart : ∀ x, x.kind ≠ kind → part x = []) : file.sections.flatMap part = [] := by
  rw [List.flatMap_eq_nil_iff]
  intro x hx
  refine hpart x fun heq => hkind ?_
  rw [← heq]
  exact List.mem_map_of_mem hx

end CvmbFile

/-! ## Sections are found -/

section Found

variable {file : CvmbFile} {mem : Memory} {buf : Nat} (h : HasBytes mem buf file.encode)
  (htypes : file.TypesLast) (hreach : file.Reachable)

include h htypes hreach

/-- The loader finds all sections of a file with nothing behind its types. -/
theorem layout_typesLast : layout mem buf = placed buf file.firstOffset file.sections := by
  rcases hasBytes_encode h with ⟨hcount, hheaders, hbodies⟩
  rw [layout, hcount]
  exact layoutFrom_eq_placed hheaders hbodies file.wellFormed hreach htypes

/-- The table of a section other than the integers is the one that the section leaves, whose
data lies inside the file. -/
theorem section_found {s : Section} (hs : s ∈ file.sections) (hkind : s.kind ≠ .cint) :
    ∃ a before, SameTable s.kind (parse 0 mem buf .zero).2
        (SectionAt.load 0 mem before ⟨s.kind, s.count, a⟩) ∧
      (s.count ≠ 0 → HasBytes mem a s.data ∧ buf ≤ a ∧
        a + s.data.length ≤ buf + file.encode.length) := by
  rcases hasBytes_encode h with ⟨_, _, hbodies⟩
  have hlayout := layout_typesLast h htypes hreach
  rcases List.append_of_mem hs with ⟨front, back, hsections⟩
  have hnodup := file.nodup
  rw [hsections, List.map_append, List.map_cons] at hnodup
  rw [CvmbFile.Reachable, hsections, inReach_append] at hreach
  have hlength : file.encode.length = file.firstOffset + (front.flatMap Section.body).length +
      (s.body.length + (back.flatMap Section.body).length) := by
    have hbodies : (file.sections.flatMap Section.body).length =
        (front.flatMap Section.body).length +
          (s.body.length + (back.flatMap Section.body).length) := by
      rw [hsections, List.flatMap_append, List.flatMap_cons, List.length_append,
        List.length_append]
    simp only [CvmbFile.encode, List.length_append, length_beBytes, length_flatMap_header,
      CvmbFile.firstOffset, parseHdrSize, headerOffset, hbodies]
    omega
  have hquiet : ∀ x ∈ placed buf (file.firstOffset + (front.flatMap Section.body).length +
      s.body.length) back, ¬ Disturbs 0 x s.kind := by
    rintro x hx (hown | ⟨_, hcint, _⟩)
    · refine notMem_behind hnodup ?_
      rw [← hown, ← kind_placed]
      exact List.mem_map_of_mem hx
    · exact hkind hcint
  rw [hsections, List.flatMap_append, List.flatMap_cons, hasBytes_append, hasBytes_append,
    Nat.add_assoc] at hbodies
  rw [parse_eq_foldl, hlayout, hsections, placed_append, List.foldl_append, placed,
    List.foldl_cons]
  refine ⟨_, _, foldl_load_sameTable mem hquiet _, fun hne => ?_⟩
  have hdata := hasBytes_dataAt hbodies.2.1 hreach.2.1 hne
  have hbody := s.length_body
  have hsmall := hreach.2.1 hne
  refine ⟨hdata, Nat.le_add_right _ _, ?_⟩
  unfold dataAt
  rw [Nat.mod_eq_of_lt hsmall]
  omega

/-- The table of a kind that is not in the file stays empty. -/
theorem section_missing {kind : SectionKind} (hkind : kind ∉ file.kinds) (hne : kind ≠ .cint) :
    SameTable kind (parse 0 mem buf .zero).2 .zero := by
  rw [parse_eq_foldl, layout_typesLast h htypes hreach]
  apply foldl_load_sameTable
  rintro x hx (hown | ⟨_, hcint, _⟩)
  · refine hkind ?_
    rw [← hown, CvmbFile.kinds, ← kind_placed]
    exact List.mem_map_of_mem hx
  · exact hne hcint

/-- An instruction lies at its number inside the file. -/
theorem code_found {k : Nat} {inst : Instruction} (hk : file.code[k]? = some inst) :
    HasBytes mem ((parse 0 mem buf .zero).2.instr + 4 * k) inst.bytes ∧
      buf ≤ (parse 0 mem buf .zero).2.instr ∧
      (parse 0 mem buf .zero).2.instr + 4 * k + 4 ≤ buf + file.encode.length := by
  rcases List.mem_flatMap.mp (List.mem_of_getElem? hk) with ⟨s, hs, hinst⟩
  cases s with
  | instructions code =>
      have hcode : file.code = code :=
        CvmbFile.flatMap_eq_of_mem Section.code hs
          (by rintro (_ | _) hne <;> first | rfl | exact absurd rfl hne)
      rw [hcode] at hk
      have hlt : k < code.length := (List.getElem?_eq_some_iff.mp hk).1
      rcases section_found h htypes hreach hs (by simp [Section.kind]) with
        ⟨a, before, hsame, hdata⟩
      rcases hdata (length_ne_zero hk) with ⟨hbytes, hle, hend⟩
      have hinstr : (parse 0 mem buf .zero).2.instr = a := by
        rw [hsame.1]
        rfl
      have hwidth : ∀ x : Instruction, x.bytes.length = 4 := by
        rintro (_ | _) <;> rfl
      have hlength : (Section.instructions code).data.length = code.length * 4 := by
        simp [Section.data, List.length_flatMap, hwidth]
      rw [hinstr]
      exact ⟨hasBytes_flatMap hbytes hwidth hk, hle, by omega⟩
  | _ => cases hinst

/-- The pointers to the strings. -/
theorem cstr_found :
    ∃ a, (parse 0 mem buf .zero).2.cstr = stringPointers mem a file.names.length ∧
      (file.names.length ≠ 0 → HasBytes mem a (stringTable file.names) ∧ buf ≤ a ∧
        a + (stringTable file.names).length ≤ buf + file.encode.length ∧
        (stringTable file.names).length < 2 ^ 32) ∧
      ∀ name ∈ file.names, 0#8 ∉ name := by
  by_cases hkind : .cstr ∈ file.kinds
  · rcases List.mem_map.mp hkind with ⟨s, hs, hcstr⟩
    cases s with
    | cstr strings =>
        have hnames : file.names = strings :=
          CvmbFile.flatMap_eq_of_mem Section.names hs
            (by rintro (_ | _) hne <;> first | rfl | exact absurd rfl hne)
        rcases section_found h htypes hreach hs (by simp [Section.kind]) with
          ⟨a, before, hsame, hdata⟩
        have hwf := file.wellFormed _ hs
        rw [hnames]
        refine ⟨a, hsame.1, fun hne => ?_, hwf.noNul⟩
        rcases hdata hne with ⟨hbytes, hle, hend⟩
        exact ⟨hbytes, hle, hend, hwf.length_lt⟩
    | _ => cases hcstr
  · have hnames : file.names = [] :=
      CvmbFile.flatMap_eq_nil Section.names hkind
        (by rintro (_ | _) hne <;> first | rfl | exact absurd rfl hne)
    have hmissing := section_missing h htypes hreach hkind (by decide)
    rw [hnames]
    refine ⟨0, hmissing.1, fun hne => absurd rfl hne, fun name hname => ?_⟩
    exact absurd hname List.not_mem_nil

/-- There are as many pointers as strings, and each points to its characters inside the
file. -/
theorem name_found : (parse 0 mem buf .zero).2.cstr.length = file.names.length ∧
    ∀ (k : Nat) (name : List Byte), file.names[k]? = some name →
      ∃ p, (parse 0 mem buf .zero).2.cstr[k]? = some p ∧ buf ≤ p ∧
        HasBytes mem p (name ++ [0#8]) ∧ 0#8 ∉ name ∧
        p + name.length + 1 ≤ buf + file.encode.length := by
  rcases cstr_found h htypes hreach with ⟨a, hcstr, hdata, hnul⟩
  rw [hcstr]
  refine ⟨by simp [stringPointers], fun k name hk => ?_⟩
  have hlt : k < file.names.length := (List.getElem?_eq_some_iff.mp hk).1
  rcases hdata (by omega) with ⟨hbytes, hle, hend, hsmall⟩
  have hskip := charskip_stringTable hbytes hsmall hlt
  have hpointer : (stringPointers mem a file.names.length)[k]? =
      some (a + 4 * (file.names.length + 1) + charskip mem a k) := by
    rw [stringPointers, List.getElem?_map, List.getElem?_range hlt]
    rfl
  rcases (areStrings_stringPointers (fun _ => hbytes) hsmall hnul).2 k name hk with
    ⟨p, hp, hnone, hstring⟩
  have hplace : p = a + 4 * (file.names.length + 1) + (characters (file.names.take k)).length := by
    rw [hpointer, Option.some.injEq] at hp
    rw [← hp, hskip]
  have hupto : (characters (file.names.take (k + 1))).length =
      (characters (file.names.take k)).length + (name.length + 1) := by
    rw [List.take_add_one, hk]
    simp [characters]
  have hprefix := length_characters_take_le file.names (k + 1)
  rw [length_stringTable] at hend
  exact ⟨p, hp, by omega, hstring, hnone, by omega⟩

/-- The table of types holds the records of the rows. -/
theorem types_found :
    (parse 0 mem buf .zero).2.types =
      addAll typeHashing (file.typeRows.map TypeRow.record) := by
  by_cases hkind : .types ∈ file.kinds
  · rcases List.mem_map.mp hkind with ⟨s, hs, htypesKind⟩
    cases s with
    | types rows =>
        have hrows : file.typeRows = rows :=
          CvmbFile.flatMap_eq_of_mem Section.typeRows hs
            (by rintro (_ | _) hne <;> first | rfl | exact absurd rfl hne)
        rcases section_found h htypes hreach hs (by simp [Section.kind]) with
          ⟨a, before, hsame, hdata⟩
        have hrecords : (List.range rows.length).map (fun j => typeRecordAt mem (a + 8 * j)) =
            rows.map TypeRow.record := by
          have hbytes : rows ≠ [] → HasBytes mem a (rows.flatMap TypeRow.bytes) := fun hne =>
            (hdata (by simpa [Section.count] using hne)).1
          exact map_range_eq_map hbytes (by simp [TypeRow.bytes])
            fun _ _ => typeRecordAt_of_bytes
        rw [hsame.1, hrows, ← hrecords]
        rfl
    | _ => cases htypesKind
  · have hrows : file.typeRows = [] :=
      CvmbFile.flatMap_eq_nil Section.typeRows hkind
        (by rintro (_ | _) hne <;> first | rfl | exact absurd rfl hne)
    rw [(section_missing h htypes hreach hkind (by decide)).1, hrows]
    rfl

end Found

end ClojitCvm
