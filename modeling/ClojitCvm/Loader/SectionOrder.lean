import ClojitCvm.Loader.RoundTrip

/-!
# Which files are loaded back

The sections of a file may stand in any order, but the loader is not indifferent to
it.  Nothing may stand behind the types, whose case does not move the offset, and
instructions need integers behind them, because their case runs on into the one for
integers.  In an order that meets both conditions every file is loaded back whose
type sizes fit; in every other order some file is not.

Main results:

- The structure {lit}`RoundTrip`: the loader returns zero, holds every section of the
  file and leaves the other tables alone.
- Theorem {lit}`roundTrip_iff_sizesFit`: the files of an order that meets the
  conditions.
-/

namespace ClojitCvm

open ByteMemory ChainedHash

/-- After parsing at debug level zero, the sections hold exactly the file. -/
structure RoundTrip (file : CvmbFile) (mem : Memory) (buf : Nat) (init : Sections) : Prop where
  returns : (parse 0 mem buf init).1 = 0
  loaded : ∀ s ∈ file.sections, Loaded mem (parse 0 mem buf init).2 s
  kept : ∀ kind, kind ∉ file.kinds → SameTable kind (parse 0 mem buf init).2 init

/-- Types stand last, and instructions have integers behind them. -/
structure InOrder (kinds : List SectionKind) : Prop where
  types_last : ∀ front back, kinds = front ++ .types :: back → back = []
  cint_behind : ∀ front back, kinds = front ++ .instructions :: back → .cint ∈ back

namespace CvmbFile

def SizesFit (file : CvmbFile) : Prop :=
  ∀ s ∈ file.sections, s.SizesFit

/-- Every section with elements starts its data below four gigabytes. -/
def Reachable (file : CvmbFile) : Prop :=
  InReach file.firstOffset file.sections

end CvmbFile

/-! ## The layout of a file in order -/

theorem placed_append (buf offset : Nat) (front back : List Section) :
    placed buf offset (front ++ back) = placed buf offset front ++
      placed buf (offset + (front.flatMap Section.body).length) back := by
  induction front generalizing offset with
  | nil => rfl
  | cons s front ih =>
      rw [List.cons_append, placed, placed, ih, List.cons_append, List.flatMap_cons,
        List.length_append, Nat.add_assoc]

theorem inReach_append {offset : Nat} {front back : List Section} :
    InReach offset (front ++ back) ↔ InReach offset front ∧
      InReach (offset + (front.flatMap Section.body).length) back := by
  induction front generalizing offset with
  | nil => simp [InReach]
  | cons s front ih =>
      rw [List.cons_append, InReach, InReach, ih, and_assoc, List.flatMap_cons,
        List.length_append, Nat.add_assoc]

theorem kind_placed (buf offset : Nat) (xs : List Section) :
    (placed buf offset xs).map (·.kind) = xs.map Section.kind := by
  induction xs generalizing offset with
  | nil => rfl
  | cons s xs ih => rw [placed, List.map_cons, List.map_cons, ih]

/-- With types only at the end, the sections are found where they are. -/
theorem layoutFrom_eq_placed {mem : Memory} {buf i offset : Nat} {xs : List Section}
    (hheaders : HasBytes mem (hdrAt buf i) (xs.flatMap Section.header))
    (hbodies : HasBytes mem (buf + offset) (xs.flatMap Section.body))
    (hwf : ∀ s ∈ xs, s.WellFormed) (hreach : InReach offset xs)
    (htypes : ∀ front back, xs.map Section.kind = front ++ .types :: back → back = []) :
    layoutFrom mem buf xs.length i offset = placed buf offset xs := by
  rcases List.eq_nil_or_concat xs with rfl | ⟨front, last, hxs⟩
  · rfl
  · rw [List.concat_eq_append] at hxs
    subst hxs
    have hfront : ∀ s ∈ front, s.kind ≠ .types := by
      intro s hs hkind
      rcases List.append_of_mem hs with ⟨before, after, rfl⟩
      have hnil := htypes (before.map Section.kind) (after.map Section.kind ++ [last.kind])
        (by simp [hkind])
      simp at hnil
    rw [List.flatMap_append, hasBytes_append] at hbodies
    rw [inReach_append] at hreach
    obtain ⟨hlayout, hlast⟩ := layoutFrom_append hheaders hbodies.1
      (fun s hs => hwf s (List.mem_append_left _ hs)) hreach.1 hfront
    have hlastWf := hwf last (by simp)
    have hid := (secIdAt_of_headers hlast hlastWf).1
    have hlastBody := hbodies.2
    rw [List.flatMap_singleton, Nat.add_assoc] at hlastBody
    rw [hlayout, placed_append, List.length_singleton, layoutFrom, hid, SectionKind.ofId?_id]
    simp only [sectionAt_body hlastBody hlastWf, placed, layoutFrom]

variable {file : CvmbFile} {mem : Memory} {buf : Nat}

/-- The three parts of an encoded file in memory. -/
theorem hasBytes_encode (h : HasBytes mem buf file.encode) :
    ntohlAt mem buf = file.sections.length ∧
      HasBytes mem (hdrAt buf 0) (file.sections.flatMap Section.header) ∧
      HasBytes mem (buf + file.firstOffset) (file.sections.flatMap Section.body) := by
  have hle := file.length_sections_le
  rw [CvmbFile.encode, hasBytes_append, hasBytes_append, length_beBytes,
    length_flatMap_header] at h
  refine ⟨ntohlAt_beBytes h.1 (by omega), h.2.1, ?_⟩
  have hstart : buf + file.firstOffset = buf + 4 + 8 * file.sections.length := by
    simp only [CvmbFile.firstOffset, parseHdrSize, headerOffset]
    omega
  rw [hstart]
  exact h.2.2

theorem layout_encode (h : HasBytes mem buf file.encode) (horder : InOrder file.kinds)
    (hreach : file.Reachable) :
    layout mem buf = placed buf file.firstOffset file.sections := by
  rcases hasBytes_encode h with ⟨hcount, hheaders, hbodies⟩
  rw [layout, hcount]
  exact layoutFrom_eq_placed hheaders hbodies file.wellFormed hreach horder.types_last

/-! ## Files in order are loaded back -/

/-- A kind does not stand behind itself. -/
theorem notMem_behind {front back : List SectionKind} {kind : SectionKind}
    (hnodup : (front ++ kind :: back).Nodup) : kind ∉ back := by
  rw [List.nodup_append, List.nodup_cons] at hnodup
  exact hnodup.2.1.1

/-- Behind a section in order nothing disturbs its table. -/
theorem not_disturbs_of_inOrder {front back : List SectionKind} {kind : SectionKind}
    (hnodup : (front ++ kind :: back).Nodup) (horder : InOrder (front ++ kind :: back))
    {s : SectionAt} (hs : s.kind ∈ back) : ¬ Disturbs 0 s kind := by
  have hfresh := notMem_behind hnodup
  rintro (hkind | ⟨hinstr, rfl, _⟩)
  · exact hfresh (hkind ▸ hs)
  · rw [hinstr] at hs
    rcases List.append_of_mem hs with ⟨before, after, rfl⟩
    have hcint := horder.cint_behind (front ++ .cint :: before) after (by simp)
    exact hfresh (by simp [hcint])

/-- A file in order is parsed section by section where the sections are. -/
theorem parse_encode (h : HasBytes mem buf file.encode) (horder : InOrder file.kinds)
    (hreach : file.Reachable) (init : Sections) :
    parse 0 mem buf init =
      (0, (placed buf file.firstOffset file.sections).foldl (SectionAt.load 0 mem) init) := by
  have hlayout := layout_encode h horder hreach
  have hlength : (layout mem buf).length = ntohlAt mem buf := by
    rw [hlayout, (hasBytes_encode h).1, ← List.length_map (f := (·.kind)), kind_placed,
      List.length_map]
  rw [parse_eq_foldl, if_pos hlength, hlayout]

/-- A section of a file in order is loaded back exactly when its sizes fit. -/
theorem loaded_parse_iff (h : HasBytes mem buf file.encode) (horder : InOrder file.kinds)
    (hreach : file.Reachable) (init : Sections) {s : Section} (hs : s ∈ file.sections) :
    Loaded mem (parse 0 mem buf init).2 s ↔ s.SizesFit := by
  rcases hasBytes_encode h with ⟨_, _, hbodies⟩
  rw [parse_encode h horder hreach]
  rcases List.append_of_mem hs with ⟨front, back, hsections⟩
  have hkinds : file.kinds = front.map Section.kind ++ s.kind :: back.map Section.kind := by
    simp [CvmbFile.kinds, hsections]
  have hnodup : file.kinds.Nodup := file.nodup
  rw [hkinds] at hnodup horder
  rw [CvmbFile.Reachable, hsections, inReach_append] at hreach
  rw [hsections, List.flatMap_append, List.flatMap_cons, hasBytes_append, hasBytes_append,
    Nat.add_assoc] at hbodies
  have hquiet : ∀ x ∈ placed buf (file.firstOffset + (front.flatMap Section.body).length +
      s.body.length) back, ¬ Disturbs 0 x s.kind := by
    intro x hx
    apply not_disturbs_of_inOrder hnodup horder
    rw [← kind_placed]
    exact List.mem_map_of_mem hx
  rw [hsections, placed_append, List.foldl_append, placed, List.foldl_cons,
    Loaded.congr (foldl_load_sameTable mem hquiet _)]
  exact loaded_load_iff _ (hasBytes_dataAt hbodies.2.1 hreach.2.1) (file.wellFormed s hs)

/-- Parsing a file in order leaves the tables of kinds that are not in the file alone. -/
theorem parse_kept (h : HasBytes mem buf file.encode) (horder : InOrder file.kinds)
    (hreach : file.Reachable) (init : Sections) {kind : SectionKind} (hkind : kind ∉ file.kinds) :
    SameTable kind (parse 0 mem buf init).2 init := by
  rw [parse_encode h horder hreach]
  apply foldl_load_sameTable
  intro x hx
  have hmem : x.kind ∈ file.kinds := by
    rw [CvmbFile.kinds, ← kind_placed]
    exact List.mem_map_of_mem hx
  rintro (hown | ⟨hinstr, rfl, _⟩)
  · exact hkind (hown ▸ hmem)
  · rw [hinstr] at hmem
    rcases List.append_of_mem hmem with ⟨front, back, hsplit⟩
    have hcint := horder.cint_behind front back hsplit
    exact hkind (by rw [hsplit]; simp [hcint])

/-- A file in order is loaded back exactly when the sizes of its types fit. -/
theorem roundTrip_iff_sizesFit (h : HasBytes mem buf file.encode) (horder : InOrder file.kinds)
    (hreach : file.Reachable) (init : Sections) :
    RoundTrip file mem buf init ↔ file.SizesFit := by
  constructor
  · intro hround s hs
    exact (loaded_parse_iff h horder hreach init hs).mp (hround.loaded s hs)
  · intro hfit
    exact
      { returns := by rw [parse_encode h horder hreach]
        loaded := fun s hs => (loaded_parse_iff h horder hreach init hs).mpr (hfit s hs)
        kept := fun _ hkind => parse_kept h horder hreach init hkind }

end ClojitCvm
