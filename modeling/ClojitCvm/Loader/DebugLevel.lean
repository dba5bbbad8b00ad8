import ClojitCvm.Loader.Bounds
import ClojitCvm.Outcome

/-!
# Loading at two debug levels

The debug level is meant to change only what is printed.  In the instruction case,
however, the braceless ifs around the commented-out output guard the offset update
and the break, so at level zero a section of instructions is loaded a second time
as the table of integers.  And what is printed has to be read: at a positive level the
integers, the doubles and the strings of every section, wherever they lie.

Main results:

- Theorem {lit}`parse_sameTable`: every other table and the return code agree at all
  levels.
- Definition {lit}`parseWithin`: parsing a buffer, outside of which nothing can be read.
- Theorem {lit}`parseWithin_eq`: it is {lit}`parse` as long as all loads stay inside.
- Theorem {lit}`parse_debugLevel_iff`: two levels end the same exactly when a load at level
  zero leaves the buffer, or what is printed lies inside and the integer table does not
  show the fall through at the end.
-/

namespace ClojitCvm

open ByteMemory

/-! ## The last table of a kind -/

/-- Address and count of the last section that satisfies a test, or the table that
was there before. -/
def lastTable (p : SectionAt → Bool) (before : Nat × Nat) (xs : List SectionAt) : Nat × Nat :=
  xs.foldl (fun table s => if p s then (s.data, s.cnt) else table) before

variable {p : SectionAt → Bool} {table : Nat × Nat}

theorem lastTable_of_forall_not {xs : List SectionAt} (h : ∀ s ∈ xs, p s = false) :
    lastTable p table xs = table := by
  induction xs generalizing table with
  | nil => rfl
  | cons s xs ih =>
      rw [List.forall_mem_cons] at h
      rw [lastTable, List.foldl_cons, h.1]
      exact ih h.2

theorem lastTable_append (front back : List SectionAt) :
    lastTable p table (front ++ back) = lastTable p (lastTable p table front) back :=
  List.foldl_append

/-- The section that satisfies the test with none behind it is the last. -/
theorem lastTable_append_cons {front back : List SectionAt} {s : SectionAt}
    (hback : ∀ x ∈ back, p x = false) :
    lastTable p table (front ++ s :: back) =
      if p s then (s.data, s.cnt) else lastTable p table front := by
  rw [lastTable_append]
  exact lastTable_of_forall_not hback

/-- A list has no section that satisfies the test, or it has a last one. -/
theorem forall_not_or_last (p : SectionAt → Bool) (xs : List SectionAt) :
    (∀ s ∈ xs, p s = false) ∨
      ∃ front s back, xs = front ++ s :: back ∧ p s = true ∧ ∀ x ∈ back, p x = false := by
  induction xs with
  | nil => exact .inl fun s hs => absurd hs (by simp)
  | cons t xs ih =>
      rcases ih with hnone | ⟨front, s, back, rfl, hs, hback⟩
      · cases ht : p t with
        | false => exact .inl (List.forall_mem_cons.mpr ⟨ht, hnone⟩)
        | true => exact .inr ⟨[], t, xs, rfl, ht, hnone⟩
      · exact .inr ⟨t :: front, s, back, rfl, hs, hback⟩

/-! ## The integer table at each level -/

/-- The sections the integer table is taken from. -/
def setsCint (debugLevel : Int) (s : SectionAt) : Bool :=
  s.kind == .cint || (s.kind == .instructions && !decide (debugLevel > 0))

theorem load_cint (debugLevel : Int) (mem : Memory) (sec : Sections) (s : SectionAt) :
    ((s.load debugLevel mem sec).cint, (s.load debugLevel mem sec).cintCnt) =
      if setsCint debugLevel s then (s.data, s.cnt) else (sec.cint, sec.cintCnt) := by
  rcases s with ⟨kind, cnt, data⟩
  cases kind with
  | instructions => by_cases h : debugLevel > 0 <;> simp [SectionAt.load, setsCint, h]
  | _ => rfl

/-- After a run the integer table is the last section it was taken from. -/
theorem foldl_load_cint (debugLevel : Int) (mem : Memory) (xs : List SectionAt)
    (sec : Sections) :
    ((xs.foldl (SectionAt.load debugLevel mem) sec).cint,
        (xs.foldl (SectionAt.load debugLevel mem) sec).cintCnt) =
      lastTable (setsCint debugLevel) (sec.cint, sec.cintCnt) xs := by
  induction xs generalizing sec with
  | nil => rfl
  | cons s xs ih =>
      rw [List.foldl_cons, ih, load_cint]
      rfl

/-- What a section does to the tables other than the integer table does not depend
on the debug level. -/
theorem load_congr {d d' : Int} (mem : Memory) (s : SectionAt) {sec sec' : Sections}
    (h : ∀ kind, kind ≠ .cint → SameTable kind sec sec') :
    ∀ kind, kind ≠ .cint →
      SameTable kind (s.load d mem sec) (s.load d' mem sec') := by
  intro kind hkind
  by_cases hown : s.kind = kind
  · subst hown
    rcases s with ⟨skind, cnt, data⟩
    cases skind with
    | cint => exact absurd rfl hkind
    | instructions =>
        by_cases hd : d > 0 <;> by_cases hd' : d' > 0 <;>
          simp [SectionAt.load, SameTable, hd, hd']
    | _ => exact ⟨rfl, rfl⟩
  · have hquiet : ∀ level : Int, ¬ Disturbs level s kind := by
      rintro level (heq | ⟨_, hcint, _⟩)
      · exact hown heq
      · exact hkind hcint
    exact ((load_sameTable (hquiet d) mem sec).trans (h kind hkind)).trans
      (load_sameTable (hquiet d') mem sec').symm

theorem foldl_load_congr {d d' : Int} (mem : Memory) (xs : List SectionAt)
    {sec sec' : Sections} (h : ∀ kind, kind ≠ .cint → SameTable kind sec sec') :
    ∀ kind, kind ≠ .cint →
      SameTable kind (xs.foldl (SectionAt.load d mem) sec)
        (xs.foldl (SectionAt.load d' mem) sec') := by
  induction xs generalizing sec sec' with
  | nil => exact h
  | cons s xs ih => exact ih (load_congr mem s h)

/-- All levels return the same code and leave the same tables, apart from the
integer table. -/
theorem parse_sameTable (d d' : Int) (mem : Memory) (buf : Nat) (sec : Sections) :
    (parse d mem buf sec).1 = (parse d' mem buf sec).1 ∧
      ∀ kind, kind ≠ .cint →
        SameTable kind (parse d mem buf sec).2 (parse d' mem buf sec).2 := by
  simp only [parse_eq_foldl, true_and]
  exact foldl_load_congr mem _ fun kind _ => SameTable.refl kind sec

/-! ## When the levels agree -/

/-- A section that the integer table is never taken from at one level or at the
other. -/
def isCintOrInstructions (s : SectionAt) : Bool :=
  s.kind == .cint || s.kind == .instructions

/-- Whenever instructions have neither instructions nor integers behind them, they
have the count and the address of the last integers in front of them, or of the
table that was there before. -/
def CintKept (sec : Sections) (xs : List SectionAt) : Prop :=
  ∀ front s back, xs = front ++ s :: back → s.kind = .instructions →
    (∀ x ∈ back, isCintOrInstructions x = false) →
      (s.data, s.cnt) = lastTable (fun x => x.kind == .cint) (sec.cint, sec.cintCnt) front

/-- The table taken from integers only and the one taken from instructions too end
up the same exactly when the fall through does not show. -/
theorem lastTable_eq_iff_cintKept (sec : Sections) (xs : List SectionAt) :
    lastTable isCintOrInstructions (sec.cint, sec.cintCnt) xs =
        lastTable (fun x => x.kind == .cint) (sec.cint, sec.cintCnt) xs ↔
      CintKept sec xs := by
  have hcint : ∀ back : List SectionAt, (∀ x ∈ back, isCintOrInstructions x = false) →
      ∀ x ∈ back, (x.kind == .cint) = false := by
    intro back hback x hx
    have := hback x hx
    simp only [isCintOrInstructions, Bool.or_eq_false_iff] at this
    exact this.1
  constructor
  · rintro heq front s back rfl hs hback
    have hsets : isCintOrInstructions s = true := by simp [isCintOrInstructions, hs]
    rw [lastTable_append_cons hback, lastTable_append_cons (hcint back hback),
      if_pos hsets] at heq
    simpa [hs] using heq
  · intro hkept
    rcases forall_not_or_last isCintOrInstructions xs with
      hnone | ⟨front, s, back, rfl, hsets, hback⟩
    · rw [lastTable_of_forall_not hnone, lastTable_of_forall_not (hcint xs hnone)]
    · rw [lastTable_append_cons hback, lastTable_append_cons (hcint back hback),
        if_pos hsets]
      by_cases hs : s.kind = .instructions
      · simpa [hs] using hkept front s back rfl hs hback
      · have hown : s.kind = .cint := by simpa [isCintOrInstructions, hs] using hsets
        simp [hown]

/-- Parsing at level zero and at a positive level gives the same code and the same
sections exactly when the integer table shows no fall through. -/
theorem parse_eq_iff_cintKept (mem : Memory) (buf : Nat) (sec : Sections) {d : Int}
    (hd : 0 < d) :
    parse 0 mem buf sec = parse d mem buf sec ↔ CintKept sec (layout mem buf) := by
  rcases parse_sameTable 0 d mem buf sec with ⟨hcode, hother⟩
  have hzero : setsCint 0 = isCintOrInstructions := by
    funext s
    simp [setsCint, isCintOrInstructions]
  have hpos : setsCint d = fun x => x.kind == .cint := by
    funext s
    simp [setsCint, hd]
  rw [← lastTable_eq_iff_cintKept, ← hzero, ← hpos, ← foldl_load_cint 0 mem,
    ← foldl_load_cint d mem]
  rw [parse_eq_foldl, parse_eq_foldl] at hother ⊢
  constructor
  · intro heq
    rw [(Prod.mk.inj heq).2]
  · intro htable
    rw [Prod.mk.injEq] at htable
    have hsec : (layout mem buf).foldl (SectionAt.load 0 mem) sec =
        (layout mem buf).foldl (SectionAt.load d mem) sec := by
      apply Sections.ext_sameTable
      intro kind
      by_cases hkind : kind = .cint
      · subst hkind
        exact htable
      · exact hother kind hkind
    rw [hsec]

/-! ## Loads that leave the buffer -/

/-- The elements that a section reads at a positive level to print them lie in front of
an address: the integers, the doubles, and the strings up to their NUL. -/
def SectionAt.PrintedFit (mem : Memory) (top : Nat) (s : SectionAt) : Prop :=
  match s.kind with
  | .cint | .cfloat => EndsBy top s.data (8 * s.cnt)
  | .cstr | .ckey => ∀ p ∈ stringPointers mem s.data s.cnt, ∃ x < top, p ≤ x ∧ mem x = 0#8
  | .instructions | .vtables | .types => True

instance (top a n : Nat) : Decidable (EndsBy top a n) :=
  inferInstanceAs (Decidable (_ ∨ _))

instance (top : Nat) : (s : SectionAt) → Decidable (s.RowsFit top)
  | ⟨.instructions, _, _⟩ | ⟨.cint, _, _⟩ | ⟨.cfloat, _, _⟩ => inferInstanceAs (Decidable True)
  | ⟨.cstr, cnt, data⟩ | ⟨.ckey, cnt, data⟩ =>
      inferInstanceAs (Decidable (EndsBy top data (4 * cnt)))
  | ⟨.vtables, cnt, data⟩ => inferInstanceAs (Decidable (EndsBy top data (12 * cnt)))
  | ⟨.types, cnt, data⟩ => inferInstanceAs (Decidable (EndsBy top data (8 * cnt)))

instance (mem : Memory) (top : Nat) : (s : SectionAt) → Decidable (s.PrintedFit mem top)
  | ⟨.cint, cnt, data⟩ | ⟨.cfloat, cnt, data⟩ =>
      inferInstanceAs (Decidable (EndsBy top data (8 * cnt)))
  | ⟨.cstr, cnt, data⟩ | ⟨.ckey, cnt, data⟩ =>
      inferInstanceAs (Decidable
        (∀ p ∈ stringPointers mem data cnt, ∃ x < top, p ≤ x ∧ mem x = 0#8))
  | ⟨.instructions, _, _⟩ | ⟨.vtables, _, _⟩ | ⟨.types, _, _⟩ =>
      inferInstanceAs (Decidable True)

/-- The loads of one turn stay in the buffer: those of the header and of the count, and in
the case of a known kind those of the index or the rows and of what is printed. -/
def TurnFits (debugLevel : Int) (mem : Memory) (buf size i offset : Nat) : Prop :=
  EndsBy (buf + size) (hdrAt buf i) parseHdrSize ∧ EndsBy (buf + size) (buf + offset) 4 ∧
    ∀ kind ∈ SectionKind.ofId? (secIdAt mem buf i),
      (sectionAt mem buf kind offset).RowsFit (buf + size) ∧
        (debugLevel > 0 → (sectionAt mem buf kind offset).PrintedFit mem (buf + size))

instance (debugLevel : Int) (mem : Memory) (buf size i offset : Nat) :
    Decidable (TurnFits debugLevel mem buf size i offset) :=
  inferInstanceAs (Decidable (_ ∧ _ ∧ ∀ kind ∈ SectionKind.ofId? (secIdAt mem buf i), _))

/-- The loop of {lit}`parse` over a buffer of so many bytes. -/
def parseFromWithin (debugLevel : Int) (mem : Memory) (buf size : Nat) :
    (remaining i offset : Nat) → Sections → Outcome Sections (Nat × Sections)
  | 0, _, _, sec => .ok (0, sec)
  | remaining + 1, i, offset, sec =>
      if TurnFits debugLevel mem buf size i offset then
        match parseSection debugLevel mem buf (secIdAt mem buf i) (secLenAt mem buf i) offset
          sec with
        | none => .ok (einval, sec)
        | some (offset, sec) =>
            parseFromWithin debugLevel mem buf size remaining (i + 1) offset sec
      else .error (.fault .wildRead)

/-- The function {lit}`parse` over a buffer of so many bytes.  A load outside the buffer is
a fault, also if it is made only to print. -/
def parseWithin (debugLevel : Int) (mem : Memory) (buf size : Nat) (sec : Sections) :
    Outcome Sections (Nat × Sections) :=
  if EndsBy (buf + size) buf 4 then
    let hdrSize := ntohlAt mem buf
    parseFromWithin debugLevel mem buf size hdrSize 0 (hdrSize * parseHdrSize + headerOffset) sec
  else .error (.fault .wildRead)

/-- All loads of the loop at a level stay in the buffer: the bytes that are read at every
level, and the elements that are printed. -/
def LoadsFit (debugLevel : Int) (mem : Memory) (buf size remaining i offset : Nat)
    (sec : Sections) : Prop :=
  readsFrom mem buf remaining i offset sec ⊆ Set.Ico buf (buf + size) ∧
    (debugLevel > 0 → ∀ s ∈ layoutFrom mem buf remaining i offset,
      s.PrintedFit mem (buf + size))

section Within

variable {mem : Memory} {buf size : Nat} {debugLevel : Int}

/-- The loads of a turn are the bytes that {lit}`sectionReads` lists, and what is printed. -/
theorem turnFits_iff {i offset : Nat} :
    TurnFits debugLevel mem buf size i offset ↔
      sectionReads mem buf i offset ⊆ Set.Ico buf (buf + size) ∧
        (debugLevel > 0 → ∀ kind ∈ SectionKind.ofId? (secIdAt mem buf i),
          (sectionAt mem buf kind offset).PrintedFit mem (buf + size)) := by
  have hheader : Set.Ico (hdrAt buf i) (hdrAt buf i + parseHdrSize) ⊆
      Set.Ico buf (buf + size) ↔ EndsBy (buf + size) (hdrAt buf i) parseHdrSize :=
    Ico_subset_iff (by unfold hdrAt; omega)
  have hcount : Set.Ico (buf + offset) (buf + offset + 4) ⊆ Set.Ico buf (buf + size) ↔
      EndsBy (buf + size) (buf + offset) 4 :=
    Ico_subset_iff (Nat.le_add_right _ _)
  rw [TurnFits, sectionReads, Set.union_subset_iff, Set.union_subset_iff, hheader, hcount]
  cases SectionKind.ofId? (secIdAt mem buf i) with
  | none => simp
  | some kind =>
      have hrows := @SectionAt.reads_subset_iff buf (buf + size) (sectionAt mem buf kind offset)
        (Nat.le_add_right _ _)
      simp only [hrows, Option.mem_some_iff, forall_eq']
      tauto

/-- What the loop reads does not depend on the sections it has so far. -/
theorem readsFrom_congr (remaining i offset : Nat) (sec sec' : Sections) :
    readsFrom mem buf remaining i offset sec = readsFrom mem buf remaining i offset sec' := by
  induction remaining generalizing i offset sec sec' with
  | zero => rfl
  | succ remaining ih =>
      rw [readsFrom, readsFrom, parseSection_eq, parseSection_eq]
      cases SectionKind.ofId? (secIdAt mem buf i) with
      | none => rfl
      | some kind =>
          simp only [Option.map_some]
          rw [ih]

/-- The loads of the loop are those of its first turn and those of the turns behind it. -/
theorem loadsFit_succ (remaining i offset : Nat) (sec sec' : Sections) :
    LoadsFit debugLevel mem buf size (remaining + 1) i offset sec ↔
      TurnFits debugLevel mem buf size i offset ∧
        ∀ kind ∈ SectionKind.ofId? (secIdAt mem buf i),
          LoadsFit debugLevel mem buf size remaining (i + 1)
            (offset + (sectionAt mem buf kind offset).advance mem (secLenAt mem buf i)) sec' := by
  rw [LoadsFit, turnFits_iff, readsFrom, layoutFrom, parseSection_eq, Set.union_subset_iff]
  cases SectionKind.ofId? (secIdAt mem buf i) with
  | none => simp
  | some kind =>
      simp only [Option.map_some, Option.mem_some_iff, forall_eq', List.forall_mem_cons, LoadsFit]
      rw [readsFrom_congr remaining _ _ _ sec']
      tauto

/-- The loop over a buffer is the loop of {lit}`parse` as long as its loads stay inside,
and otherwise a fault. -/
theorem parseFromWithin_cases (remaining i offset : Nat) (sec : Sections) :
    LoadsFit debugLevel mem buf size remaining i offset sec ∧
        parseFromWithin debugLevel mem buf size remaining i offset sec =
          .ok (parseFrom debugLevel mem buf remaining i offset sec) ∨
      ¬ LoadsFit debugLevel mem buf size remaining i offset sec ∧
        parseFromWithin debugLevel mem buf size remaining i offset sec =
          .error (.fault .wildRead) := by
  induction remaining generalizing i offset sec with
  | zero =>
      exact .inl ⟨⟨Set.empty_subset _, fun _ s hs => absurd hs List.not_mem_nil⟩, rfl⟩
  | succ remaining ih =>
      rw [parseFromWithin, parseFrom, parseSection_eq]
      by_cases hturn : TurnFits debugLevel mem buf size i offset
      · rw [if_pos hturn]
        cases hkind : SectionKind.ofId? (secIdAt mem buf i) with
        | none =>
            refine .inl ⟨(loadsFit_succ remaining i offset sec sec).mpr ⟨hturn, ?_⟩, rfl⟩
            rw [hkind]
            exact fun kind hmem => absurd hmem (Option.not_mem_none kind)
        | some kind =>
            have hsucc := @loadsFit_succ mem buf size debugLevel remaining i offset sec
              ((sectionAt mem buf kind offset).load debugLevel mem sec)
            rw [hkind, and_iff_right hturn] at hsucc
            simp only [Option.mem_some_iff, forall_eq'] at hsucc
            rw [hsucc]
            exact ih _ _ _
      · rw [if_neg hturn]
        refine .inr ⟨fun hfits => ?_, rfl⟩
        exact hturn ((loadsFit_succ remaining i offset sec sec).mp hfits).1

/-- Parsing a buffer is {lit}`parse` if all its loads stay inside, and otherwise a fault. -/
theorem parseWithin_eq (sec : Sections) :
    (parseReads mem buf sec ⊆ Set.Ico buf (buf + size) ∧
        (debugLevel > 0 → ∀ s ∈ layout mem buf, s.PrintedFit mem (buf + size)) ∧
        parseWithin debugLevel mem buf size sec = .ok (parse debugLevel mem buf sec)) ∨
      ¬ (parseReads mem buf sec ⊆ Set.Ico buf (buf + size) ∧
        (debugLevel > 0 → ∀ s ∈ layout mem buf, s.PrintedFit mem (buf + size))) ∧
        parseWithin debugLevel mem buf size sec = .error (.fault .wildRead) := by
  rw [parseReads, Set.union_subset_iff, Ico_subset_iff (Nat.le_refl buf), parseWithin]
  by_cases hfirst : EndsBy (buf + size) buf 4
  · rw [if_pos hfirst, and_iff_right hfirst, ← and_assoc]
    exact parseFromWithin_cases _ _ _ _
  · rw [if_neg hfirst]
    exact .inr ⟨fun h => hfirst h.1.1, rfl⟩

end Within

/-- Parsing a buffer at level zero and at a positive level gives the same code and the same
sections, or the same fault, exactly when a load at level zero leaves the buffer, or else all
that is printed lies in the buffer and the integer table shows no fall through. -/
theorem parse_debugLevel_iff (mem : Memory) (buf size : Nat) (sec : Sections) {d : Int}
    (hd : 0 < d) :
    parseWithin 0 mem buf size sec = parseWithin d mem buf size sec ↔
      (parseReads mem buf sec ⊆ Set.Ico buf (buf + size) →
        (∀ s ∈ layout mem buf, s.PrintedFit mem (buf + size)) ∧
          CintKept sec (layout mem buf)) := by
  have hzero := @parseWithin_eq mem buf size 0 sec
  have hpos := @parseWithin_eq mem buf size d sec
  simp only [gt_iff_lt, Int.lt_irrefl, false_imp_iff, true_and, and_true] at hzero
  simp only [gt_iff_lt, hd, true_imp_iff] at hpos
  rcases hzero with ⟨hreads, hzero⟩ | ⟨hreads, hzero⟩
  · rw [hzero, imp_iff_right hreads, ← parse_eq_iff_cintKept mem buf sec hd]
    rcases hpos with ⟨_, hprinted, hpos⟩ | ⟨hleaves, hpos⟩
    · rw [hpos, and_iff_right hprinted, Except.ok.injEq]
    · rw [hpos]
      exact iff_of_false (fun heq => by cases heq) fun h => hleaves ⟨hreads, h.1⟩
  · -- a load that leaves the buffer is made at every level
    rcases hpos with ⟨hreads', _⟩ | ⟨_, hpos⟩
    · exact absurd hreads' hreads
    · rw [hzero, hpos]
      exact iff_of_true rfl fun hreads' => absurd hreads' hreads

/-- A file with one instruction in front of an empty table of integers. -/
def instructionsThenCint : Memory :=
  ofBytes 0 [0, 0, 0, 2, 0, 0, 0, 0, 0, 0, 0, 4, 0, 0, 0, 1, 0, 0, 0, 0,
    0, 0, 0, 1, 47, 0, 0, 0, 0, 0, 0, 0]

/-- With integers behind the instructions both levels load the same. -/
theorem parse_instructionsThenCint :
    parseWithin 0 instructionsThenCint 0 32 .zero =
      parseWithin 1 instructionsThenCint 0 32 .zero := by
  refine (parse_debugLevel_iff instructionsThenCint 0 32 .zero
    (show (0 : Int) < 1 by decide)).mpr fun _ => ⟨by decide, ?_⟩
  have hlayout : layout instructionsThenCint 0 =
      [⟨.instructions, 1, 24⟩, ⟨.cint, 0, 32⟩] := by decide
  rw [hlayout]
  intro front s back hsplit hs hback
  rcases front with _ | ⟨first, front⟩
  · cases hsplit
    exact absurd (hback _ (List.mem_singleton.mpr rfl)) (by decide)
  · rcases front with _ | ⟨second, front⟩
    · cases hsplit
      exact absurd hs (by decide)
    · simp at hsplit

/-- A file with one instruction and no other section. -/
def instructionsOnly : Memory :=
  ofBytes 0 [0, 0, 0, 1, 0, 0, 0, 0, 0, 0, 0, 4, 0, 0, 0, 1, 47, 0, 0, 0]

/-- The code and the number of integers of a run that does not fault. -/
def cintCntOf (x : Outcome Sections (Nat × Sections)) : Option (Nat × Nat) :=
  x.toOption.map fun result => (result.1, result.2.cintCnt)

/-- The levels do not always end the same.  A file that has no integers has as many as
instructions at level zero, and integers that lie behind the end of the file are read, and
the process dies, only where they are printed. -/
theorem debugLevel_changes_cintCnt :
    (¬ ∀ (mem : Memory) (buf size : Nat) (sec : Sections) (d : Int), 0 < d →
      parseWithin 0 mem buf size sec = parseWithin d mem buf size sec) ∧
    cintCntOf (parseWithin 0 instructionsOnly 0 20 .zero) = some (0, 1) ∧
    cintCntOf (parseWithin 1 instructionsOnly 0 20 .zero) = some (0, 0) ∧
    cintCntOf (parseWithin 0 (ofBytes 0 fiveMissingInts) 0 16 .zero) = some (0, 5) ∧
    parseWithin 1 (ofBytes 0 fiveMissingInts) 0 16 .zero = .error (.fault .wildRead) := by
  refine ⟨fun h => ?_, by decide, by decide, by decide, by rfl⟩
  have hcnt := congrArg cintCntOf (h instructionsOnly 0 20 .zero 1 (by decide))
  exact absurd hcnt (by decide)

end ClojitCvm
