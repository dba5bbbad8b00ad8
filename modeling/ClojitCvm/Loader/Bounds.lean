import ClojitCvm.Loader.Layout
import Mathlib.Order.Interval.Set.Basic

/-!
# The bounds of a file

The function {lit}`parse` is not told how long its buffer is.  It follows the counts, lengths
and indices of the file wherever they lead, and the only thing it refuses is a section with
an unknown id.

Main results:

- Definition {lit}`parseReads`: the bytes that {lit}`parse` reads.
- Definition {lit}`Sections.tableBytes`: the bytes of the tables it leaves behind.
- Theorem {lit}`parse_congr_of_reads`: no other byte matters to the result.
- Theorem {lit}`parse_inside_iff`: for which files all of them are bytes of the file.
-/

namespace ClojitCvm

open ByteMemory

/-! ## Bytes that are read -/

/-- The words of the index that the case of a string table reads: for every string but the
first the one before, and the last one for the next section. -/
def indexReads (startOfIndex cnt : Nat) : Set Nat :=
  {x | (∃ j < cnt, j ≠ 0 ∧
      x ∈ Set.Ico (startOfIndex + 4 * (j - 1)) (startOfIndex + 4 * (j - 1) + 4)) ∨
    cnt ≠ 0 ∧ x ∈ Set.Ico (startOfIndex + 4 * (cnt - 1)) (startOfIndex + 4 * (cnt - 1) + 4)}

/-- The rows that a loop over a section reads. -/
def rowReads (sectionData width cnt : Nat) : Set Nat :=
  {x | ∃ j < cnt, x ∈ Set.Ico (sectionData + width * j) (sectionData + width * j + width)}

/-- The bytes that the case of a section reads behind the count, at debug level zero. -/
def SectionAt.reads (s : SectionAt) : Set Nat :=
  match s.kind with
  | .instructions | .cint | .cfloat => ∅
  | .cstr | .ckey => indexReads s.data s.cnt
  | .vtables => rowReads s.data 12 s.cnt
  | .types => rowReads s.data 8 s.cnt

/-- The bytes that one turn of the loop reads: the header, the count and the section. -/
def sectionReads (mem : Memory) (buf i offset : Nat) : Set Nat :=
  Set.Ico (hdrAt buf i) (hdrAt buf i + parseHdrSize) ∪
    (Set.Ico (buf + offset) (buf + offset + 4) ∪
      match SectionKind.ofId? (secIdAt mem buf i) with
      | some kind => (sectionAt mem buf kind offset).reads
      | none => ∅)

/-- The bytes that the loop reads from header number {lit}`i` on. -/
def readsFrom (mem : Memory) (buf : Nat) :
    (remaining i offset : Nat) → Sections → Set Nat
  | 0, _, _, _ => ∅
  | remaining + 1, i, offset, sec =>
      sectionReads mem buf i offset ∪
        match parseSection 0 mem buf (secIdAt mem buf i) (secLenAt mem buf i) offset sec with
        | none => ∅
        | some (offset, sec) => readsFrom mem buf remaining (i + 1) offset sec

/-- The bytes that {lit}`parse` reads. -/
def parseReads (mem : Memory) (buf : Nat) (sec : Sections) : Set Nat :=
  let hdrSize := ntohlAt mem buf
  Set.Ico buf (buf + 4) ∪
    readsFrom mem buf hdrSize 0 (hdrSize * parseHdrSize + headerOffset) sec

/-! ## Bytes of tables -/

/-- The bytes of a string up to its terminating NUL. -/
def stringBytes (mem : Memory) (p : Nat) : Set Nat :=
  {x | p ≤ x ∧ ∀ y, p ≤ y → y < x → mem y ≠ 0#8}

/-- The bytes of the file that belong to a table.  The rows of the other tables are
copied. -/
def Sections.tableBytes (mem : Memory) (sec : Sections) : SectionKind → Set Nat
  | .instructions => Set.Ico sec.instr (sec.instr + 4 * sec.instrCnt)
  | .cint => Set.Ico sec.cint (sec.cint + 8 * sec.cintCnt)
  | .cfloat => Set.Ico sec.cfloat (sec.cfloat + 8 * sec.cfloatCnt)
  | .cstr => {x | ∃ p ∈ sec.cstr, x ∈ stringBytes mem p}
  | .ckey => {x | ∃ p ∈ sec.ckey, x ∈ stringBytes mem p}
  | .vtables | .types => ∅

/-- The section that the table of a kind is taken from, the last one that sets it. -/
def tableSection (kind : SectionKind) (xs : List SectionAt) : Option SectionAt :=
  xs.reverse.find? fun s => decide (Disturbs 0 s kind)

/-- The table of a kind is not the one that instructions leave behind as integers. -/
def OwnTable (mem : Memory) (buf : Nat) (kind : SectionKind) : Prop :=
  ∀ s ∈ tableSection kind (layout mem buf), s.kind = kind

/-- All bytes that {lit}`parse` reads and the bytes of all tables are bytes of the file. -/
structure ParseInside (mem : Memory) (buf size : Nat) : Prop where
  reads : parseReads mem buf .zero ⊆ Set.Ico buf (buf + size)
  tables : ∀ kind, OwnTable mem buf kind →
    (parse 0 mem buf .zero).2.tableBytes mem kind ⊆ Set.Ico buf (buf + size)

/-! ## Files that keep inside -/

/-- The offset at which section number {lit}`i` is looked for. -/
def sectionStart (mem : Memory) (buf : Nat) : Nat → Nat
  | 0 => ntohlAt mem buf * parseHdrSize + headerOffset
  | i + 1 =>
      let start := sectionStart mem buf i
      match SectionKind.ofId? (secIdAt mem buf i) with
      | some kind => start + (sectionAt mem buf kind start).advance mem (secLenAt mem buf i)
      | none => start

/-- So many bytes from an address end before another address. -/
def EndsBy (top a n : Nat) : Prop :=
  n = 0 ∨ a + n ≤ top

namespace SectionAt

/-- The index or the rows of a section end in the file. -/
def RowsFit (top : Nat) (s : SectionAt) : Prop :=
  match s.kind with
  | .instructions | .cint | .cfloat => True
  | .cstr | .ckey => EndsBy top s.data (4 * s.cnt)
  | .vtables => EndsBy top s.data (12 * s.cnt)
  | .types => EndsBy top s.data (8 * s.cnt)

/-- The elements of a section end in the file, and so does each of its strings. -/
def ElementsFit (mem : Memory) (top : Nat) (s : SectionAt) : Prop :=
  match s.kind with
  | .instructions => EndsBy top s.data (4 * s.cnt)
  | .cint | .cfloat => EndsBy top s.data (8 * s.cnt)
  | .cstr | .ckey => ∀ p ∈ stringPointers mem s.data s.cnt, ∃ x < top, p ≤ x ∧ mem x = 0#8
  | .vtables | .types => True

end SectionAt

/-- The parts of a file lie where its counts, lengths and indices say: the headers, the count
of every section, the index or the rows of every section, and the elements of the sections
that tables are taken from. -/
structure Consistent (mem : Memory) (buf size : Nat) : Prop where
  headers : headerOffset + parseHdrSize * ntohlAt mem buf ≤ size
  counts : ∀ i < ntohlAt mem buf, sectionStart mem buf i + 4 ≤ size
  rows : ∀ s ∈ layout mem buf, s.RowsFit (buf + size)
  elements : ∀ kind, ∀ s ∈ tableSection kind (layout mem buf), s.kind = kind →
    s.ElementsFit mem (buf + size)

/-! ## Ranges of bytes -/

section Ranges

variable {mem : Memory} {a n width cnt bottom top p : Nat}

theorem Ico_subset_iff (hbottom : bottom ≤ a) :
    Set.Ico a (a + n) ⊆ Set.Ico bottom top ↔ EndsBy top a n := by
  unfold EndsBy
  by_cases hn : n = 0
  · simp [hn]
  · rw [Set.Ico_subset_Ico_iff (by omega)]
    omega

/-- The rows lie one behind the other. -/
theorem rowReads_eq (hwidth : 0 < width) :
    rowReads a width cnt = Set.Ico a (a + width * cnt) := by
  ext x
  simp only [rowReads, Set.mem_ofPred_eq, Set.mem_Ico]
  constructor
  · rintro ⟨j, hj, hle, hlt⟩
    have hmul : width * (j + 1) ≤ width * cnt := Nat.mul_le_mul_left width hj
    rw [Nat.mul_succ] at hmul
    omega
  · rintro ⟨hle, hlt⟩
    have hdiv := Nat.div_add_mod (x - a) width
    have hmod := Nat.mod_lt (x - a) hwidth
    refine ⟨(x - a) / width, ?_, by omega, by omega⟩
    rw [Nat.div_lt_iff_lt_mul hwidth, Nat.mul_comm]
    omega

/-- Together the reads of the index are its rows. -/
theorem indexReads_eq : indexReads a cnt = rowReads a 4 cnt := by
  ext x
  simp only [indexReads, rowReads, Set.mem_ofPred_eq]
  constructor
  · rintro (⟨j, hj, hne, hx⟩ | ⟨hne, hx⟩)
    · exact ⟨j - 1, by omega, hx⟩
    · exact ⟨cnt - 1, by omega, hx⟩
  · rintro ⟨j, hj, hx⟩
    by_cases hlast : j = cnt - 1
    · exact .inr ⟨by omega, hlast ▸ hx⟩
    · exact .inl ⟨j + 1, by omega, by omega, hx⟩

/-- The bytes of a string end with its first NUL. -/
theorem stringBytes_subset_iff (hbottom : bottom ≤ p) :
    stringBytes mem p ⊆ Set.Ico bottom top ↔ ∃ x < top, p ≤ x ∧ mem x = 0#8 := by
  constructor
  · intro hsubset
    by_contra hnone
    have hbytes : ∀ y, p ≤ y → y < top → mem y ≠ 0#8 := fun y hle hlt hzero =>
      hnone ⟨y, hlt, hle, hzero⟩
    have hp : p < top := (hsubset ⟨Nat.le_refl p, fun y hle hlt => by omega⟩).2
    exact Nat.lt_irrefl top (hsubset ⟨Nat.le_of_lt hp, hbytes⟩).2
  · rintro ⟨x, hx, hle, hzero⟩ y ⟨hpy, hbytes⟩
    refine ⟨by omega, ?_⟩
    by_contra hge
    exact hbytes x hle (by omega) hzero

end Ranges

/-! ## Parsing depends only on the bytes it reads -/

section Agreement

variable {mem mem' : Memory} {buf : Nat} {s : SectionAt}

/-- Two memories have the same bytes at the addresses of a set. -/
def AgreeOn (bytes : Set Nat) (mem mem' : Memory) : Prop :=
  ∀ x ∈ bytes, mem x = mem' x

theorem AgreeOn.mono {bytes bytes' : Set Nat} (h : AgreeOn bytes mem mem')
    (hsubset : bytes' ⊆ bytes) : AgreeOn bytes' mem mem' :=
  fun x hx => h x (hsubset hx)

theorem AgreeOn.ntohlAt_eq {a : Nat} (h : AgreeOn (Set.Ico a (a + 4)) mem mem') :
    ntohlAt mem a = ntohlAt mem' a :=
  loadBE_congr fun x hle hlt => h x ⟨hle, hlt⟩

/-- A word in a row that is read. -/
theorem AgreeOn.row_eq {a width cnt j k : Nat} (h : AgreeOn (rowReads a width cnt) mem mem')
    (hj : j < cnt) (hk : k + 4 ≤ width) :
    ntohlAt mem (a + width * j + k) = ntohlAt mem' (a + width * j + k) := by
  apply ntohlAt_eq
  rintro x ⟨hle, hlt⟩
  exact h x ⟨j, hj, by omega, by omega⟩

theorem bytesOfStr_congr {a cnt : Nat} (h : AgreeOn (indexReads a cnt) mem mem') :
    bytesOfStr mem a cnt = bytesOfStr mem' a cnt := by
  unfold bytesOfStr
  split
  · next hcnt =>
      rw [indexReads_eq] at h
      exact h.row_eq (by omega) (Nat.le_refl 4) (k := 0)
  · rfl

theorem stringPointers_congr {a cnt : Nat} (h : AgreeOn (indexReads a cnt) mem mem') :
    stringPointers mem a cnt = stringPointers mem' a cnt := by
  rw [indexReads_eq] at h
  apply List.map_congr_left
  intro j hj
  have hlt := List.mem_range.mp hj
  have hskip : charskip mem a j = charskip mem' a j := by
    unfold charskip
    split
    · exact h.row_eq (by omega) (Nat.le_refl 4) (k := 0)
    · rfl
  rw [hskip]

theorem vtableRecordAt_congr {a cnt j : Nat} (h : AgreeOn (rowReads a 12 cnt) mem mem')
    (hj : j < cnt) : vtableRecordAt mem (a + 12 * j) = vtableRecordAt mem' (a + 12 * j) := by
  have hjump := h.row_eq hj (show 0 + 4 ≤ 12 by decide)
  have hprotocol := h.row_eq hj (show 4 + 4 ≤ 12 by decide)
  have htype := h.row_eq hj (show 8 + 4 ≤ 12 by decide)
  rw [Nat.add_zero] at hjump
  rw [vtableRecordAt, vtableRecordAt, hjump, hprotocol, htype]

theorem typeRecordAt_congr {a cnt j : Nat} (h : AgreeOn (rowReads a 8 cnt) mem mem')
    (hj : j < cnt) : typeRecordAt mem (a + 8 * j) = typeRecordAt mem' (a + 8 * j) := by
  have hsize := h.row_eq hj (show 0 + 4 ≤ 8 by decide)
  have hid := h.row_eq hj (show 4 + 4 ≤ 8 by decide)
  rw [Nat.add_zero] at hsize
  rw [typeRecordAt, typeRecordAt, hsize, hid]

namespace SectionAt

theorem advance_congr (h : AgreeOn s.reads mem mem') (len : Nat) :
    s.advance mem len = s.advance mem' len := by
  rcases s with ⟨kind, cnt, data⟩
  cases kind with
  | cstr | ckey => rw [advance, advance, bytesOfStr_congr h]
  | _ => rfl

theorem load_congr_reads (h : AgreeOn s.reads mem mem') (sec : Sections) :
    s.load 0 mem sec = s.load 0 mem' sec := by
  rcases s with ⟨kind, cnt, data⟩
  cases kind with
  | cstr | ckey => rw [load, load, stringPointers_congr h]
  | vtables =>
      rw [load, load, vtableRecords, vtableRecords]
      have hrows : (List.range cnt).map (fun j => vtableRecordAt mem (data + 12 * j)) =
          (List.range cnt).map fun j => vtableRecordAt mem' (data + 12 * j) :=
        List.map_congr_left fun j hj => vtableRecordAt_congr h (List.mem_range.mp hj)
      rw [hrows]
  | types =>
      rw [load, load, typeRecords, typeRecords]
      have hrows : (List.range cnt).map (fun j => typeRecordAt mem (data + 8 * j)) =
          (List.range cnt).map fun j => typeRecordAt mem' (data + 8 * j) :=
        List.map_congr_left fun j hj => typeRecordAt_congr h (List.mem_range.mp hj)
      rw [hrows]
  | _ => rfl

end SectionAt

/-- One turn of the loop sees no bytes but those it reads. -/
theorem parseSection_congr {i offset : Nat}
    (h : AgreeOn (sectionReads mem buf i offset) mem mem') (sec : Sections) :
    secIdAt mem buf i = secIdAt mem' buf i ∧
      parseSection 0 mem buf (secIdAt mem buf i) (secLenAt mem buf i) offset sec =
        parseSection 0 mem' buf (secIdAt mem buf i) (secLenAt mem' buf i) offset sec := by
  have hid : secIdAt mem buf i = secIdAt mem' buf i := by
    refine AgreeOn.ntohlAt_eq (h.mono fun x hx => .inl ⟨hx.1, ?_⟩)
    have := hx.2
    simp only [parseHdrSize]
    omega
  have hlen : secLenAt mem buf i = secLenAt mem' buf i := by
    refine AgreeOn.ntohlAt_eq (h.mono fun x hx => .inl ?_)
    rcases hx with ⟨hle, hlt⟩
    simp only [Set.mem_Ico, parseHdrSize]
    omega
  have hcnt : ntohlAt mem (buf + offset) = ntohlAt mem' (buf + offset) :=
    AgreeOn.ntohlAt_eq (h.mono fun x hx => .inr (.inl hx))
  refine ⟨hid, ?_⟩
  rw [parseSection_eq, parseSection_eq, hlen]
  cases hkind : SectionKind.ofId? (secIdAt mem buf i) with
  | none => rfl
  | some kind =>
      have hsection : sectionAt mem buf kind offset = sectionAt mem' buf kind offset := by
        rw [sectionAt, sectionAt, hcnt]
      have hreads : AgreeOn (sectionAt mem buf kind offset).reads mem mem' := by
        refine h.mono fun x hx => .inr (.inr ?_)
        rw [hkind]
        exact hx
      simp only [Option.map_some, ← hsection, SectionAt.advance_congr hreads,
        SectionAt.load_congr_reads hreads]

theorem parseFrom_congr {remaining i offset : Nat} {sec : Sections}
    (h : AgreeOn (readsFrom mem buf remaining i offset sec) mem mem') :
    parseFrom 0 mem buf remaining i offset sec =
      parseFrom 0 mem' buf remaining i offset sec := by
  induction remaining generalizing i offset sec with
  | zero => rfl
  | succ remaining ih =>
      rw [readsFrom] at h
      rcases parseSection_congr (h.mono Set.subset_union_left) sec with ⟨hid, hturn⟩
      rw [parseFrom, parseFrom, ← hid, ← hturn]
      cases hnext : parseSection 0 mem buf (secIdAt mem buf i) (secLenAt mem buf i) offset
        sec with
      | none => rfl
      | some next =>
          rw [hnext] at h
          exact ih (h.mono Set.subset_union_right)

/-- Buffers that agree on the bytes {lit}`parse` reads of one of them are parsed the same. -/
theorem parse_congr_of_reads {sec : Sections} (h : AgreeOn (parseReads mem buf sec) mem mem') :
    parse 0 mem buf sec = parse 0 mem' buf sec := by
  have hcount : ntohlAt mem buf = ntohlAt mem' buf :=
    AgreeOn.ntohlAt_eq (h.mono Set.subset_union_left)
  rw [parse, parse, ← hcount]
  exact parseFrom_congr (h.mono Set.subset_union_right)

end Agreement

/-! ## Reads and sections -/

section Reads

variable {mem : Memory} {buf size bottom top : Nat}

theorem SectionAt.reads_subset_iff {s : SectionAt} (hbottom : bottom ≤ s.data) :
    s.reads ⊆ Set.Ico bottom top ↔ s.RowsFit top := by
  unfold SectionAt.reads SectionAt.RowsFit
  cases s.kind with
  | instructions | cint | cfloat => exact iff_of_true (Set.empty_subset _) trivial
  | cstr | ckey =>
      dsimp only
      rw [indexReads_eq, rowReads_eq (by decide), Ico_subset_iff hbottom]
  | vtables | types =>
      dsimp only
      rw [rowReads_eq (by decide), Ico_subset_iff hbottom]

/-- The reads of the loop are those of headers, counts and the sections found. -/
theorem readsFrom_subset_iff {remaining i : Nat} {sec : Sections} {file : Set Nat}
    (hknown : ∀ k < remaining, (SectionKind.ofId? (secIdAt mem buf (i + k))).isSome = true) :
    readsFrom mem buf remaining i (sectionStart mem buf i) sec ⊆ file ↔
      (∀ k < remaining,
        Set.Ico (hdrAt buf (i + k)) (hdrAt buf (i + k) + parseHdrSize) ⊆ file ∧
        Set.Ico (buf + sectionStart mem buf (i + k)) (buf + sectionStart mem buf (i + k) + 4) ⊆
          file) ∧
      ∀ s ∈ layoutFrom mem buf remaining i (sectionStart mem buf i), s.reads ⊆ file := by
  induction remaining generalizing i sec with
  | zero => simp [readsFrom, layoutFrom]
  | succ remaining ih =>
      have hfirst := hknown 0 (Nat.succ_pos _)
      rcases Option.isSome_iff_exists.mp hfirst with ⟨kind, hkind⟩
      rw [Nat.add_zero] at hkind
      have hnext : sectionStart mem buf (i + 1) = sectionStart mem buf i +
          (sectionAt mem buf kind (sectionStart mem buf i)).advance mem (secLenAt mem buf i) := by
        rw [sectionStart, hkind]
      have hrest : ∀ k < remaining,
          (SectionKind.ofId? (secIdAt mem buf (i + 1 + k))).isSome = true := by
        intro k hk
        rw [Nat.add_right_comm]
        exact hknown (k + 1) (by omega)
      have hih := @ih (i + 1)
        ((sectionAt mem buf kind (sectionStart mem buf i)).load 0 mem sec) hrest
      rw [hnext] at hih
      rw [readsFrom, sectionReads, layoutFrom, parseSection_eq, hkind]
      dsimp only [Option.map_some]
      rw [Set.union_subset_iff, Set.union_subset_iff, Set.union_subset_iff, hih,
        List.forall_mem_cons, Nat.forall_lt_succ_left]
      simp only [Nat.add_zero, Nat.add_right_comm i 1, ← Nat.add_assoc]
      tauto

/-- The elements of a section lie behind the start of the buffer. -/
theorem le_data_of_mem_layoutFrom {remaining i offset : Nat} {s : SectionAt}
    (hs : s ∈ layoutFrom mem buf remaining i offset) : buf ≤ s.data := by
  induction remaining generalizing i offset with
  | zero => cases hs
  | succ remaining ih =>
      rw [layoutFrom] at hs
      split at hs
      · cases hs
      · rcases List.mem_cons.mp hs with rfl | hs
        · exact Nat.le_add_right _ _
        · exact ih hs

/-- A header list ends in the file exactly when all headers do. -/
theorem headers_inside_iff {n : Nat} :
    (EndsBy (buf + size) buf 4 ∧ ∀ k < n, EndsBy (buf + size) (hdrAt buf k) parseHdrSize) ↔
      headerOffset + parseHdrSize * n ≤ size := by
  simp only [EndsBy, hdrAt, headerOffset, parseHdrSize]
  constructor
  · rintro ⟨hfirst, hall⟩
    cases n with
    | zero => omega
    | succ n =>
        have hlast := hall n (Nat.lt_succ_self n)
        omega
  · intro hle
    exact ⟨by omega, fun k hk => by omega⟩

/-- For an accepted file the bytes that are read are bytes of the file exactly when the
headers, the counts and the rows are. -/
theorem parseReads_subset_iff (hknown : KnownIds mem buf) (sec : Sections) :
    parseReads mem buf sec ⊆ Set.Ico buf (buf + size) ↔
      headerOffset + parseHdrSize * ntohlAt mem buf ≤ size ∧
        (∀ i < ntohlAt mem buf, sectionStart mem buf i + 4 ≤ size) ∧
        ∀ s ∈ layout mem buf, s.RowsFit (buf + size) := by
  have hloop : readsFrom mem buf (ntohlAt mem buf) 0 (sectionStart mem buf 0) sec ⊆
        Set.Ico buf (buf + size) ↔ _ :=
    readsFrom_subset_iff fun k hk => by rw [Nat.zero_add]; exact hknown k hk
  have hheaders := @headers_inside_iff buf size (ntohlAt mem buf)
  have hrows : (∀ s ∈ layout mem buf, s.reads ⊆ Set.Ico buf (buf + size)) ↔
      ∀ s ∈ layout mem buf, s.RowsFit (buf + size) :=
    forall₂_congr fun s hs => SectionAt.reads_subset_iff (le_data_of_mem_layoutFrom hs)
  have hcount : ∀ i, Set.Ico (buf + sectionStart mem buf i)
        (buf + sectionStart mem buf i + 4) ⊆ Set.Ico buf (buf + size) ↔
      sectionStart mem buf i + 4 ≤ size := by
    intro i
    rw [Ico_subset_iff (Nat.le_add_right _ _), EndsBy]
    omega
  have hheader : ∀ i, Set.Ico (hdrAt buf i) (hdrAt buf i + parseHdrSize) ⊆
      Set.Ico buf (buf + size) ↔ EndsBy (buf + size) (hdrAt buf i) parseHdrSize :=
    fun i => Ico_subset_iff (by unfold hdrAt; omega)
  simp only [Nat.zero_add, hcount, hheader, forall_and] at hloop
  rw [parseReads, Set.union_subset_iff, Ico_subset_iff (Nat.le_refl buf), ← hheaders, ← hrows]
  exact (and_congr_right fun _ => hloop).trans (by tauto)

end Reads

/-! ## Tables and elements -/

section Tables

variable {mem : Memory} {buf bottom top : Nat} {sec sec' : Sections} {kind : SectionKind}

/-- The bytes of a table are given by its pointers and counts. -/
theorem tableBytes_congr (h : SameTable kind sec sec') :
    sec.tableBytes mem kind = sec'.tableBytes mem kind := by
  cases kind with
  | instructions | cint | cfloat => rw [Sections.tableBytes, Sections.tableBytes, h.1, h.2]
  | cstr | ckey => rw [Sections.tableBytes, Sections.tableBytes, h.1]
  | vtables | types => rfl

/-- The sections that {lit}`start` begins with have no bytes. -/
theorem tableBytes_zero : Sections.zero.tableBytes mem kind = ∅ := by
  cases kind with
  | instructions | cint | cfloat => exact Set.Ico_self 0
  | cstr | ckey =>
      ext x
      simp [Sections.tableBytes, Sections.zero]
  | vtables | types => rfl

/-- The strings of a section lie behind its index. -/
theorem le_of_mem_stringPointers {a cnt p : Nat} (hp : p ∈ stringPointers mem a cnt) :
    a ≤ p := by
  rcases List.mem_map.mp hp with ⟨j, _, rfl⟩
  omega

theorem strings_subset_iff {ps : List Nat} (hbottom : ∀ p ∈ ps, bottom ≤ p) :
    {x | ∃ p ∈ ps, x ∈ stringBytes mem p} ⊆ Set.Ico bottom top ↔
      ∀ p ∈ ps, ∃ x < top, p ≤ x ∧ mem x = 0#8 := by
  constructor
  · intro hsubset p hp
    exact (stringBytes_subset_iff (hbottom p hp)).mp fun x hx => hsubset ⟨p, hp, hx⟩
  · rintro hall x ⟨p, hp, hx⟩
    exact (stringBytes_subset_iff (hbottom p hp)).mpr (hall p hp) hx

/-- The table that a section leaves behind has the elements of the section. -/
theorem SectionAt.tableBytes_load_subset_iff {s : SectionAt} (hbottom : bottom ≤ s.data) :
    (s.load 0 mem sec).tableBytes mem s.kind ⊆ Set.Ico bottom top ↔
      s.ElementsFit mem top := by
  rcases s with ⟨kind, cnt, data⟩
  cases kind with
  | instructions | cint | cfloat => exact Ico_subset_iff hbottom
  | cstr | ckey =>
      exact strings_subset_iff fun p hp => Nat.le_trans hbottom (le_of_mem_stringPointers hp)
  | vtables | types => exact iff_of_true (Set.empty_subset _) trivial

/-- The table of a kind is the one that the last section that sets it leaves behind. -/
theorem foldl_load_tableSection {xs : List SectionAt} {s : SectionAt}
    (hs : s ∈ tableSection kind xs) (sec : Sections) :
    ∃ before : Sections,
      SameTable kind (xs.foldl (SectionAt.load 0 mem) sec) (s.load 0 mem before) := by
  rcases List.find?_eq_some_iff_append.mp hs with ⟨_, back, front, hsplit, hback⟩
  rw [List.reverse_eq_iff, List.reverse_append, List.reverse_cons, List.append_assoc,
    List.singleton_append] at hsplit
  rw [hsplit, List.foldl_append, List.foldl_cons]
  refine ⟨_, foldl_load_sameTable mem (fun x hx => ?_) _⟩
  simpa using hback x (List.mem_reverse.mp hx)

/-- With no section that sets it the table of a kind stays as it was. -/
theorem foldl_load_of_tableSection_eq_none {xs : List SectionAt}
    (hnone : tableSection kind xs = none) (sec : Sections) :
    SameTable kind (xs.foldl (SectionAt.load 0 mem) sec) sec := by
  apply foldl_load_sameTable
  intro s hs
  simpa using List.find?_eq_none.mp hnone s (List.mem_reverse.mpr hs)

theorem mem_of_mem_tableSection {xs : List SectionAt} {s : SectionAt}
    (hs : s ∈ tableSection kind xs) : s ∈ xs :=
  List.mem_reverse.mp (List.mem_of_find?_eq_some hs)

/-- A table that is taken from a section of its own kind is inside exactly when the elements
of the section are. -/
theorem table_subset_iff (hown : OwnTable mem buf kind) :
    (parse 0 mem buf .zero).2.tableBytes mem kind ⊆ Set.Ico buf top ↔
      ∀ s ∈ tableSection kind (layout mem buf), s.ElementsFit mem top := by
  rw [parse_eq_foldl]
  dsimp only
  cases hsection : tableSection kind (layout mem buf) with
  | none =>
      rw [tableBytes_congr (foldl_load_of_tableSection_eq_none hsection _), tableBytes_zero]
      exact iff_of_true (Set.empty_subset _) (fun s hs => by cases hs)
  | some s =>
      have hs : s ∈ tableSection kind (layout mem buf) := hsection
      have hlast : ∃ before : Sections,
          SameTable kind ((layout mem buf).foldl (SectionAt.load 0 mem) .zero)
            (s.load 0 mem before) :=
        foldl_load_tableSection hs _
      rcases hlast with ⟨before, hsame⟩
      have hbottom := le_data_of_mem_layoutFrom (mem_of_mem_tableSection hs)
      rw [tableBytes_congr hsame, ← hown s hs, SectionAt.tableBytes_load_subset_iff hbottom]
      simp

end Tables

/-! ## Files that parse keeps inside -/

/-- The function {lit}`parse` refuses a file exactly when an id is unknown.  What it reads of
the other files, and the tables it leaves behind, lie inside exactly when the file is
consistent. -/
theorem parse_inside_iff (mem : Memory) (buf size : Nat) :
    ((parse 0 mem buf .zero).1 = 0 ↔ KnownIds mem buf) ∧
      ((parse 0 mem buf .zero).1 ≠ 0 ∨
        (ParseInside mem buf size ↔ Consistent mem buf size)) := by
  refine ⟨parse_eq_zero_iff 0 mem buf .zero, ?_⟩
  by_cases hzero : (parse 0 mem buf .zero).1 = 0
  · right
    have hknown := (parse_eq_zero_iff 0 mem buf .zero).mp hzero
    constructor
    · rintro ⟨hreads, htables⟩
      rcases (parseReads_subset_iff hknown .zero).mp hreads with ⟨hheaders, hcounts, hrows⟩
      refine ⟨hheaders, hcounts, hrows, fun kind s hs hkind => ?_⟩
      have hown : OwnTable mem buf kind := by
        intro s' hs'
        rw [Option.mem_unique hs' hs, hkind]
      exact (table_subset_iff hown).mp (htables kind hown) s hs
    · rintro ⟨hheaders, hcounts, hrows, helements⟩
      refine ⟨(parseReads_subset_iff hknown .zero).mpr ⟨hheaders, hcounts, hrows⟩, ?_⟩
      intro kind hown
      exact (table_subset_iff hown).mpr fun s hs => helements kind s hs (hown s hs)
  · exact .inl hzero

/-- A file of sixteen bytes with a section of five integers and none of the integers. -/
def fiveMissingInts : List Byte :=
  [0, 0, 0, 1, 0, 0, 0, 1, 0, 0, 0, 0, 0, 0, 0, 5]

/-- A file can be accepted although its integers are not in it. -/
theorem fiveMissingInts_not_inside :
    ¬ ∀ (bytes : List Byte) (buf : Nat),
      (parse 0 (ofBytes buf bytes) buf .zero).1 ≠ 0 ∨
        parseReads (ofBytes buf bytes) buf .zero ⊆ Set.Ico buf (buf + bytes.length) ∧
        ∀ kind, (parse 0 (ofBytes buf bytes) buf .zero).2.tableBytes (ofBytes buf bytes) kind ⊆
          Set.Ico buf (buf + bytes.length) := by
  intro h
  rcases h fiveMissingInts 0 with hcode | ⟨_, htables⟩
  · exact hcode (by decide)
  · have hcint : (parse 0 (ofBytes 0 fiveMissingInts) 0 .zero).2.cint = 16 := by decide
    have hcnt : (parse 0 (ofBytes 0 fiveMissingInts) 0 .zero).2.cintCnt = 5 := by decide
    have hsubset := htables .cint
    rw [Sections.tableBytes, hcint, hcnt] at hsubset
    have hlast : (16 : Nat) ∈ Set.Ico 0 (0 + fiveMissingInts.length) :=
      hsubset ⟨by decide, by decide⟩
    exact absurd hlast.2 (by decide)

end ClojitCvm
