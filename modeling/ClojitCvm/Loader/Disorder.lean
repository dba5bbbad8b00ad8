import ClojitCvm.Loader.SectionOrder

/-!
# Files out of order

Behind types a section is read where the types are, and instructions without integers
behind them leave their own count as the number of integers.  A file out of order can
still be loaded back by coincidence, where the counts that are mixed up are equal.  This
file shows that there is no other coincidence, and that every order which does not meet
the conditions of the loader has a small file that is not loaded back.

Main results:

- Theorem {lit}`CvmbFile.CountsDiffer.inOrder`: a file whose counts differ is in order
  if it is loaded back.
- Theorem {lit}`exists_not_roundTrip`: a file of every order that breaks a condition.
- Theorem {lit}`parse_roundTrip_iff`: the loader's round trip, for single files and for
  all files of an order.
-/

namespace ClojitCvm

open ByteMemory ChainedHash

/-! ## Counts of tables -/

/-- The element count of one kind. -/
def tableCount (kind : SectionKind) (sec : Sections) : Nat :=
  match kind with
  | .instructions => sec.instrCnt
  | .cint => sec.cintCnt
  | .cfloat => sec.cfloatCnt
  | .cstr => sec.cstrCnt
  | .ckey => sec.ckeyCnt
  | .vtables => sec.vtableCnt
  | .types => sec.typesCnt

theorem SameTable.tableCount_eq {kind : SectionKind} {sec sec' : Sections}
    (h : SameTable kind sec sec') : tableCount kind sec = tableCount kind sec' := by
  cases kind <;> exact h.2

theorem Loaded.tableCount_eq {mem : Memory} {sec : Sections} {s : Section}
    (h : Loaded mem sec s) : tableCount s.kind sec = s.count := by
  cases s <;> exact h.1

theorem tableCount_load (mem : Memory) (sec : Sections) (s : SectionAt) :
    tableCount s.kind (s.load 0 mem sec) = s.cnt := by
  rcases s with ⟨kind, cnt, data⟩
  cases kind <;> rfl

/-- The count of a kind is the one of the last section that disturbs it. -/
theorem tableCount_parse {mem : Memory} {buf : Nat} {front back : List SectionAt}
    {s : SectionAt} (hlayout : layout mem buf = front ++ s :: back)
    (hback : ∀ x ∈ back, ¬ Disturbs 0 x s.kind) (init : Sections) :
    tableCount s.kind (parse 0 mem buf init).2 = s.cnt := by
  rw [parse_eq_foldl, hlayout, List.foldl_append, List.foldl_cons,
    (foldl_load_sameTable mem hback _).tableCount_eq, tableCount_load]

/-- Instructions with neither instructions nor integers behind them leave their
count as the number of integers. -/
theorem cintCnt_parse {mem : Memory} {buf : Nat} {front back : List SectionAt}
    {s : SectionAt} (hlayout : layout mem buf = front ++ s :: back)
    (hs : s.kind = .instructions) (hback : ∀ x ∈ back, ¬ Disturbs 0 x .cint)
    (init : Sections) : (parse 0 mem buf init).2.cintCnt = s.cnt := by
  rcases s with ⟨kind, cnt, data⟩
  subst hs
  rw [parse_eq_foldl, hlayout, List.foldl_append, List.foldl_cons,
    (foldl_load_sameTable mem hback _).2]
  rfl

/-! ## The kinds behind an offset -/

/-- Wherever the loader looks, it finds the kinds of the headers. -/
theorem kind_layoutFrom {mem : Memory} {buf i : Nat} {xs : List Section}
    (h : HasBytes mem (hdrAt buf i) (xs.flatMap Section.header))
    (hwf : ∀ s ∈ xs, s.WellFormed) (offset : Nat) :
    (layoutFrom mem buf xs.length i offset).map (·.kind) = xs.map Section.kind := by
  induction xs generalizing i offset with
  | nil => rfl
  | cons s xs ih =>
      rw [List.forall_mem_cons] at hwf
      obtain ⟨hid, _, hrest⟩ := secIdAt_of_headers h hwf.1
      rw [List.length_cons, layoutFrom, hid, SectionKind.ofId?_id]
      simp only [List.map_cons, ih hrest hwf.2]
      rfl

/-- Kinds that are not repeated do not disturb each other, integers apart. -/
theorem not_disturbs_of_kinds {rest : List SectionAt} {kinds : List SectionKind}
    {kind : SectionKind} (hrest : rest.map (·.kind) = kinds) (hfresh : kind ∉ kinds)
    (hcint : kind = .cint → SectionKind.instructions ∉ kinds) :
    ∀ x ∈ rest, ¬ Disturbs 0 x kind := by
  intro x hx
  have hmem : x.kind ∈ kinds := by
    rw [← hrest]
    exact List.mem_map_of_mem hx
  rintro (hown | ⟨hinstr, hkind, _⟩)
  · exact hfresh (hown ▸ hmem)
  · exact hcint hkind (hinstr ▸ hmem)

variable {file : CvmbFile} {mem : Memory} {buf : Nat} {front back : List Section}

/-- A kind splits the layout of a file the way it splits the kinds of the file. -/
theorem layout_split (h : HasBytes mem buf file.encode) {frontKinds backKinds : List SectionKind}
    {kind : SectionKind} (hkinds : file.kinds = frontKinds ++ kind :: backKinds) :
    ∃ before x rest, layout mem buf = before ++ x :: rest ∧ x.kind = kind ∧
      rest.map (·.kind) = backKinds := by
  rcases hasBytes_encode h with ⟨hcount, hheaders, _⟩
  have hall : (layout mem buf).map (·.kind) = frontKinds ++ kind :: backKinds := by
    rw [layout, hcount, ← hkinds]
    exact kind_layoutFrom hheaders file.wellFormed _
  rcases List.map_eq_append_iff.mp hall with ⟨before, tail, hlayout, _, htail⟩
  rcases List.map_eq_cons_iff.mp htail with ⟨x, rest, rfl, hkind, hrest⟩
  exact ⟨before, x, rest, hlayout, hkind, hrest⟩

/-- A section whose count is not found, with nothing behind it that disturbs it, is
not loaded back. -/
theorem not_roundTrip_of_cnt_ne {before rest : List SectionAt} {x : SectionAt} {s : Section}
    (hlayout : layout mem buf = before ++ x :: rest) (hs : s ∈ file.sections)
    (hkind : x.kind = s.kind) (hcnt : x.cnt ≠ s.count)
    (hrest : ∀ y ∈ rest, ¬ Disturbs 0 y s.kind) (init : Sections) :
    ¬ RoundTrip file mem buf init := by
  intro hround
  have hloaded := (hround.loaded s hs).tableCount_eq
  rw [← hkind] at hrest hloaded
  rw [tableCount_parse hlayout hrest init] at hloaded
  exact hcnt hloaded

/-! ## Files whose counts differ -/

/-- The element counts tell the sections apart: no two sections have as many elements,
and without integers in the file the instructions are not as many as the integers that
were there before. -/
structure CvmbFile.CountsDiffer (file : CvmbFile) (init : Sections) : Prop where
  counts : (file.sections.map Section.count).Nodup
  instructions : .cint ∉ file.kinds →
    ∀ s ∈ file.sections, s.kind = .instructions → s.count ≠ init.cintCnt

namespace CvmbFile.CountsDiffer

variable {init : Sections}

theorem count_ne (hdiffer : file.CountsDiffer init) {s t : Section} (hs : s ∈ file.sections)
    (ht : t ∈ file.sections) (hkind : s.kind ≠ t.kind) : s.count ≠ t.count := by
  intro hcount
  exact hkind (congrArg Section.kind (List.inj_on_of_nodup_map hdiffer.counts hs ht hcount))

/-- Instructions without integers behind them leave their number as the number of
integers. -/
theorem cint_behind (hdiffer : file.CountsDiffer init) (h : HasBytes mem buf file.encode)
    (hround : RoundTrip file mem buf init) {frontKinds backKinds : List SectionKind}
    (hkinds : file.kinds = frontKinds ++ .instructions :: backKinds) : .cint ∈ backKinds := by
  by_contra hcint
  rcases layout_split h hkinds with ⟨before, x, rest, hlayout, hkind, hrest⟩
  have hnodup : file.kinds.Nodup := file.nodup
  rw [hkinds] at hnodup
  have hfresh := notMem_behind hnodup
  obtain ⟨s, hs, hsKind⟩ : ∃ s ∈ file.sections, s.kind = .instructions :=
    List.mem_map.mp (by rw [← CvmbFile.kinds, hkinds]; simp)
  have hcintCnt : (parse 0 mem buf init).2.cintCnt = s.count := by
    have hown := not_disturbs_of_kinds hrest (hkind.symm ▸ hfresh)
      (by simp [hkind])
    have hloaded := (hround.loaded s hs).tableCount_eq
    rw [hsKind, ← hkind, tableCount_parse hlayout hown init] at hloaded
    rw [← hloaded]
    exact cintCnt_parse hlayout hkind (not_disturbs_of_kinds hrest hcint fun _ => hfresh) init
  by_cases hmem : .cint ∈ file.kinds
  · -- the file's own integers are as many as its instructions
    rcases List.mem_map.mp hmem with ⟨t, ht, htKind⟩
    have hloaded := (hround.loaded t ht).tableCount_eq
    rw [htKind] at hloaded
    exact hdiffer.count_ne hs ht (by simp [hsKind, htKind]) (hcintCnt.symm.trans hloaded)
  · -- the integers that were there before are as many as the instructions
    have hkept := (hround.kept .cint hmem).2
    exact hdiffer.instructions hmem s hs hsKind (hcintCnt.symm.trans hkept)

end CvmbFile.CountsDiffer

/-! ## A section behind types -/

/-- The layout of a file up to a section that has no types in front of it. -/
theorem layout_encode_front (h : HasBytes mem buf file.encode)
    (hsections : file.sections = front ++ back) (hreach : file.Reachable)
    (hfront : ∀ s ∈ front, s.kind ≠ .types) :
    layout mem buf = placed buf file.firstOffset front ++
        layoutFrom mem buf back.length front.length
          (file.firstOffset + (front.flatMap Section.body).length) ∧
      HasBytes mem (hdrAt buf front.length) (back.flatMap Section.header) ∧
      HasBytes mem (buf + (file.firstOffset + (front.flatMap Section.body).length))
        (back.flatMap Section.body) := by
  rcases hasBytes_encode h with ⟨hcount, hheaders, hbodies⟩
  have hwf : ∀ s ∈ front, s.WellFormed := fun s hs =>
    file.wellFormed s (by rw [hsections]; exact List.mem_append_left _ hs)
  rw [hsections] at hheaders hbodies
  rw [CvmbFile.Reachable, hsections, inReach_append] at hreach
  rw [List.flatMap_append, hasBytes_append] at hbodies
  obtain ⟨hlayout, hlast⟩ := layoutFrom_append hheaders hbodies.1 hwf hreach.1 hfront
  rw [Nat.zero_add] at hlayout hlast
  have hstart : layout mem buf =
      layoutFrom mem buf (front ++ back).length 0 file.firstOffset := by
    rw [layout, hcount, ← hsections]
    rfl
  exact ⟨hstart.trans hlayout, hlast, by rw [← Nat.add_assoc]; exact hbodies.2⟩

/-- A section behind types is looked for where the types are, so it gets their count. -/
theorem layout_behind_types {t s : Section} (h : HasBytes mem buf file.encode)
    (hsections : file.sections = front ++ t :: s :: back) (ht : t.kind = .types)
    (hreach : file.Reachable) :
    ∃ before x rest, layout mem buf = before ++ x :: rest ∧ x.kind = s.kind ∧
      x.cnt = t.count ∧ rest.map (·.kind) = back.map Section.kind := by
  have hnodup := file.nodup
  rw [hsections, List.map_append, List.map_cons, List.nodup_append] at hnodup
  have hfront : ∀ x ∈ front, x.kind ≠ .types := fun x hx =>
    ht ▸ hnodup.2.2 _ (List.mem_map_of_mem hx) _ (List.mem_cons_self ..)
  obtain ⟨hlayout, hheaders, hbodies⟩ := layout_encode_front h hsections hreach hfront
  rw [List.flatMap_cons, hasBytes_append] at hbodies
  have hwf := file.wellFormed
  rw [hsections] at hwf
  have htWf := hwf t (by simp)
  obtain ⟨htId, _, hheaders⟩ := secIdAt_of_headers hheaders htWf
  obtain ⟨hsId, hsLen, hheaders⟩ := secIdAt_of_headers hheaders (hwf s (by simp))
  generalize file.firstOffset + (front.flatMap Section.body).length = offset at hlayout hbodies
  refine ⟨placed buf file.firstOffset front ++ [sectionAt mem buf .types offset],
    sectionAt mem buf s.kind offset, _, ?_, rfl, ?_,
    kind_layoutFrom hheaders (fun x hx => hwf x (by simp [hx]))
      (offset + (sectionAt mem buf s.kind offset).advance mem s.data.length)⟩
  · rw [hlayout, List.length_cons, layoutFrom, htId, SectionKind.ofId?_id]
    simp only [List.length_cons, layoutFrom, hsId, SectionKind.ofId?_id, hsLen]
    rw [List.append_assoc, ht]
    rfl
  · exact congrArg SectionAt.cnt (sectionAt_body hbodies.1 htWf)

namespace CvmbFile.CountsDiffer

variable {init : Sections}

/-- Nothing stands behind the types of a file that is loaded back. -/
theorem types_last (hdiffer : file.CountsDiffer init) (h : HasBytes mem buf file.encode)
    (hreach : file.Reachable) (hround : RoundTrip file mem buf init) {t : Section}
    (hsections : file.sections = front ++ t :: back) (ht : t.kind = .types) : back = [] := by
  by_contra hne
  rcases List.exists_cons_of_ne_nil hne with ⟨s, back, rfl⟩
  rcases layout_behind_types h hsections ht hreach with
    ⟨before, x, rest, hlayout, hkind, hcnt, hrest⟩
  have hnodup := file.nodup
  rw [hsections, List.map_append, List.map_cons, List.map_cons] at hnodup
  have htFresh := notMem_behind hnodup
  rw [List.append_cons] at hnodup
  have hsFresh := notMem_behind hnodup
  have hs : s ∈ file.sections := by simp [hsections]
  have hcount : t.count ≠ s.count := by
    refine hdiffer.count_ne (by simp [hsections]) hs fun heq => htFresh ?_
    rw [heq]
    exact List.mem_cons_self ..
  refine not_roundTrip_of_cnt_ne hlayout hs hkind (hcnt ▸ hcount) ?_ init hround
  refine not_disturbs_of_kinds hrest hsFresh fun hcint hinstr => ?_
  -- instructions behind integers have no integers behind them
  rcases List.append_of_mem hinstr with ⟨before', after', hback⟩
  have hkinds : file.kinds = (front.map Section.kind ++ .types :: .cint :: before') ++
      .instructions :: after' := by
    rw [CvmbFile.kinds, hsections]
    simp [ht, hcint, hback]
  have hbehind := hdiffer.cint_behind h hround hkinds
  rw [hback, hcint] at hsFresh
  simp [hbehind] at hsFresh

/-- A file that is loaded back is in order. -/
theorem inOrder (hdiffer : file.CountsDiffer init) (h : HasBytes mem buf file.encode)
    (hreach : file.Reachable) (hround : RoundTrip file mem buf init) : InOrder file.kinds := by
  constructor
  · intro frontKinds backKinds hkinds
    rcases List.map_eq_append_iff.mp hkinds with ⟨front, tail, hsections, _, htail⟩
    rcases List.map_eq_cons_iff.mp htail with ⟨t, back, rfl, ht, hback⟩
    rw [← hback, hdiffer.types_last h hreach hround hsections ht]
    rfl
  · exact fun _ _ hkinds => hdiffer.cint_behind h hround hkinds

end CvmbFile.CountsDiffer

/-! ## A file of every order -/

/-- A section with as many elements as its kind's number. -/
def Section.sample : SectionKind → Section
  | .instructions => .instructions []
  | .cint => .cint [0#64]
  | .cfloat => .cfloat [0#64, 0#64]
  | .cstr => .cstr [[], [], []]
  | .ckey => .ckey [[], [], [], []]
  | .vtables => .vtables (List.replicate 5 ⟨0#32, 0#32, 0#32⟩)
  | .types => .types (List.replicate 6 ⟨0#32, 0#32⟩)

@[simp]
theorem Section.kind_sample (kind : SectionKind) : (sample kind).kind = kind := by
  cases kind <;> rfl

theorem Section.count_sample (kind : SectionKind) : (sample kind).count = kind.id := by
  cases kind <;> rfl

theorem Section.length_body_sample (kind : SectionKind) : (sample kind).body.length ≤ 64 := by
  cases kind <;> decide

theorem Section.wellFormed_sample (kind : SectionKind) : (sample kind).WellFormed := by
  cases kind <;> decide

theorem Section.sizesFit_sample (kind : SectionKind) : (sample kind).SizesFit := by
  cases kind <;> simp [sample, SizesFit]

/-- A file of the given order. -/
def CvmbFile.sample (kinds : List SectionKind) (hnodup : kinds.Nodup) : CvmbFile where
  sections := kinds.map Section.sample
  nodup := by simpa [Function.comp_def] using hnodup
  wellFormed := by
    intro s hs
    rcases List.mem_map.mp hs with ⟨kind, _, rfl⟩
    exact Section.wellFormed_sample kind

theorem inReach_sample {offset : Nat} {kinds : List SectionKind}
    (hlt : offset + 64 * kinds.length + 4 < 2 ^ 32) :
    InReach offset (kinds.map Section.sample) := by
  induction kinds generalizing offset with
  | nil => trivial
  | cons kind kinds ih =>
      have hbody := Section.length_body_sample kind
      rw [List.length_cons] at hlt
      exact ⟨fun _ => by omega, ih (by omega)⟩

namespace CvmbFile

variable {kinds : List SectionKind} (hnodup : kinds.Nodup)

theorem kinds_sample : (sample kinds hnodup).kinds = kinds := by
  simp [CvmbFile.kinds, sample, Function.comp_def]

theorem sizesFit_sample : (sample kinds hnodup).SizesFit := by
  intro s hs
  rcases List.mem_map.mp hs with ⟨kind, _, rfl⟩
  exact Section.sizesFit_sample kind

theorem reachable_sample : (sample kinds hnodup).Reachable := by
  have hle := (sample kinds hnodup).length_sections_le
  have hlength : (sample kinds hnodup).sections.length = kinds.length := by simp [sample]
  apply inReach_sample
  simp only [firstOffset, parseHdrSize, headerOffset]
  omega

/-- The counts of the file are the numbers of its kinds. -/
theorem countsDiffer_sample :
    (sample kinds hnodup).CountsDiffer { Sections.zero with cintCnt := 7 } := by
  constructor
  · have hcounts : (sample kinds hnodup).sections.map Section.count =
        kinds.map SectionKind.id := by
      simp [sample, Function.comp_def, Section.count_sample]
    rw [hcounts]
    exact hnodup.map SectionKind.id_injective
  · intro _ s hs _
    rcases List.mem_map.mp hs with ⟨kind, _, rfl⟩
    rw [Section.count_sample]
    exact Nat.ne_of_lt kind.id_lt

end CvmbFile

/-- Every order that breaks a condition has a file that is not loaded back. -/
theorem exists_not_roundTrip {kinds : List SectionKind} (hnodup : kinds.Nodup)
    (horder : ¬ InOrder kinds) :
    ∃ (file : CvmbFile) (mem : Memory) (buf : Nat) (init : Sections), file.kinds = kinds ∧
      file.SizesFit ∧ file.Reachable ∧ HasBytes mem buf file.encode ∧
        ¬ RoundTrip file mem buf init := by
  have hbytes := hasBytes_ofBytes 0 (CvmbFile.sample kinds hnodup).encode
  refine ⟨.sample kinds hnodup, _, 0, { Sections.zero with cintCnt := 7 },
    CvmbFile.kinds_sample hnodup, CvmbFile.sizesFit_sample hnodup,
    CvmbFile.reachable_sample hnodup, hbytes, fun hround => ?_⟩
  apply horder
  rw [← CvmbFile.kinds_sample hnodup]
  exact (CvmbFile.countsDiffer_sample hnodup).inOrder hbytes
    (CvmbFile.reachable_sample hnodup) hround

/-! ## The round trip -/

/-- A file within reach of the loader that is in order, or whose counts tell its
sections apart, is loaded back exactly when it is in order and the sizes of its types
fit their words.  All files of an order are loaded back, as far as sizes fit and sections
are within reach, exactly when types stand last in it and integers behind the
instructions. -/
theorem parse_roundTrip_iff (file : CvmbFile) :
    (∀ mem buf init, file.Reachable → HasBytes mem buf file.encode →
      InOrder file.kinds ∨ file.CountsDiffer init →
        (RoundTrip file mem buf init ↔ InOrder file.kinds ∧ file.SizesFit)) ∧
    ((∀ other : CvmbFile, other.kinds = file.kinds → other.SizesFit → other.Reachable →
      ∀ mem buf init, HasBytes mem buf other.encode → RoundTrip other mem buf init) ↔
        InOrder file.kinds) := by
  refine ⟨fun mem buf init hreach h hcase => ⟨fun hround => ?_, ?_⟩, ?_, ?_⟩
  · have horder : InOrder file.kinds := by
      rcases hcase with horder | hdiffer
      · exact horder
      · exact hdiffer.inOrder h hreach hround
    exact ⟨horder, (roundTrip_iff_sizesFit h horder hreach init).mp hround⟩
  · rintro ⟨horder, hfit⟩
    exact (roundTrip_iff_sizesFit h horder hreach init).mpr hfit
  · intro hall
    by_contra horder
    rcases exists_not_roundTrip file.nodup horder with
      ⟨other, mem, buf, init, hkinds, hfit, hreach, hbytes, hnot⟩
    exact hnot (hall other hkinds hfit hreach mem buf init hbytes)
  · intro horder other hkinds hfit hreach mem buf init h
    rw [← hkinds] at horder
    exact (roundTrip_iff_sizesFit h horder hreach init).mpr hfit

/-- A file of the usual order with an instruction, a string, a dispatch row and a
type. -/
def sampleFile : CvmbFile where
  sections := [.instructions [.ad 47 0 0], .cint [7], .cstr [[104, 105]],
    .vtables [⟨5, 1, 7⟩], .types [⟨2, 0⟩]]
  nodup := by decide
  wellFormed := by decide

theorem sampleFile_roundTrip :
    RoundTrip sampleFile (ofBytes 100 sampleFile.encode) 100 .zero := by
  have horder : InOrder sampleFile.kinds := by
    have hkinds : sampleFile.kinds =
        [.instructions, .cint, .cstr, .vtables] ++ [.types] := by decide
    rw [hkinds]
    constructor
    · intro front back hsplit
      exact ((@List.append_cons_inj_of_notMem _ [.instructions, .cint, .cstr, .vtables] front []
        back .types .types (by decide) (by decide)).mp hsplit).2.2.symm
    · intro front back hsplit
      rw [← ((@List.append_cons_inj_of_notMem _ [] front [.cint, .cstr, .vtables, .types] back
        .instructions .instructions (by decide) (by decide)).mp hsplit).2.2]
      decide
  have hreach : sampleFile.Reachable :=
    ⟨by decide, by decide, by decide, by decide, by decide, trivial⟩
  refine ((parse_roundTrip_iff sampleFile).1 _ 100 .zero hreach (hasBytes_ofBytes 100 _)
    (.inl horder)).mpr ⟨horder, ?_⟩
  intro s hs
  simp only [sampleFile, List.mem_cons, List.not_mem_nil, or_false] at hs
  rcases hs with rfl | rfl | rfl | rfl | rfl
  · trivial
  · trivial
  · trivial
  · trivial
  · simp [Section.SizesFit]

/-- A file with one instruction. -/
def instructionFile : CvmbFile where
  sections := [.instructions [.ad 47 0 0]]
  nodup := by decide
  wellFormed := by decide

/-- Not every file is loaded back: the number of instructions of a file without
integers is left as its number of integers. -/
theorem instructionFile_not_roundTrip :
    ¬ ∀ (file : CvmbFile) (mem : Memory) (buf : Nat) (init : Sections),
      HasBytes mem buf file.encode → RoundTrip file mem buf init := by
  intro h
  have hkept := (h instructionFile (ofBytes 0 instructionFile.encode) 0 .zero
    (hasBytes_ofBytes 0 _)).kept .cint (by decide)
  have hcnt := hkept.2
  revert hcnt
  decide

end ClojitCvm
