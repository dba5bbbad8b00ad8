import ClojitCvm.Loader.Layout
import ClojitCvm.Machine.BumpHost
import ClojitCvm.Machine.Effects

/-!
# Keyword constants

The loader keeps strings and keywords in two tables of one shape, and {lit}`CKEY` reads
its constant from the table of strings.

Main results:

- Theorem {lit}`loadsText_iff`: the text that a {lit}`CKEY` loads is that of a string.
- Theorem {lit}`loadsKeyword_iff`: it is the text of the keyword, in one run or in two runs
  with the same keywords, exactly when the string with the number of the keyword has the
  keyword's text.
-/

namespace ClojitCvm

open ByteMemory CellArray Slot

/-! ## Pointers of the string table -/

/-- A section as {lit}`parse` finds it has no more than a word's number of elements, and
they begin in the four gigabytes that a 32-bit offset reaches. -/
theorem lt_of_mem_layoutFrom {mem : Memory} {buf remaining i offset : Nat} {s : SectionAt}
    (hs : s ∈ layoutFrom mem buf remaining i offset) :
    s.cnt < 2 ^ 32 ∧ s.data < buf + 2 ^ 32 := by
  induction remaining generalizing i offset with
  | zero => cases hs
  | succ remaining ih =>
      rw [layoutFrom] at hs
      split at hs
      · cases hs
      · rcases List.mem_cons.mp hs with rfl | hs
        · refine ⟨loadBE_lt mem _ 4, ?_⟩
          have := Nat.mod_lt (offset + 4) (show 0 < 2 ^ 32 by decide)
          simp only [sectionAt]
          omega
        · exact ih hs

/-- The pointers of a table of strings are addresses. -/
theorem lt_of_mem_stringPointers {mem : Memory} {a cnt p : Nat} (hcnt : cnt < 2 ^ 32)
    (hp : p ∈ stringPointers mem a cnt) : p < a + 2 ^ 36 := by
  rcases List.mem_map.mp hp with ⟨j, _, rfl⟩
  have hskip : charskip mem a j < 2 ^ 32 := by
    unfold charskip
    split
    · exact loadBE_lt mem _ 4
    · decide
  omega

/-- The sections of a layout leave only such pointers behind. -/
theorem lt_of_mem_foldl_load {mem : Memory} {buf : Nat} {xs : List SectionAt}
    (hxs : ∀ s ∈ xs, s.cnt < 2 ^ 32 ∧ s.data < buf + 2 ^ 32) {sec : Sections}
    (hsec : ∀ p ∈ sec.cstr, p < buf + 2 ^ 37) :
    ∀ p ∈ (xs.foldl (SectionAt.load 0 mem) sec).cstr, p < buf + 2 ^ 37 := by
  induction xs generalizing sec with
  | nil => exact hsec
  | cons s xs ih =>
      rw [List.forall_mem_cons] at hxs
      refine ih hxs.2 fun p hp => ?_
      by_cases hkind : s.kind = .cstr
      · have hcstr : (s.load 0 mem sec).cstr = stringPointers mem s.data s.cnt := by
          simp only [SectionAt.load, hkind]
        rw [hcstr] at hp
        have := lt_of_mem_stringPointers hxs.1.1 hp
        have := hxs.1.2
        omega
      · have hquiet : ¬ Disturbs 0 s .cstr := by
          rintro (h | ⟨_, h, _⟩)
          · exact hkind h
          · cases h
        rw [(load_sameTable hquiet mem sec).1] at hp
        exact hsec p hp

/-- A pointer of the string table fits a slot. -/
theorem toNat_of_mem_cstr (host : Host) {p : Nat} (hp : p ∈ (loadfile host).cstr) :
    (BitVec.ofNat 64 p).toNat = p := by
  rw [loadfile, parse_eq_foldl] at hp
  have hlt := lt_of_mem_foldl_load (fun s hs => lt_of_mem_layoutFrom hs)
    (fun p hp => absurd hp List.not_mem_nil) p hp
  have hfile := host.file_le
  rw [BitVec.toNat_ofNat]
  exact Nat.mod_eq_of_lt (by omega)

/-! ## What a CKEY loads -/

/-- The text of a keyword. -/
def keywordText? (host : Host) (d : BitVec 16) : Option (List Byte) :=
  (loadfile host).ckey[d.toNat]?.bind host.cString

/-- The instruction {lit}`CKEY a d` puts a reference to the text into slot {lit}`a`. -/
def LoadsText (host : Host) (vm : VM) (a : Nat) (d : BitVec 16) (text : List Byte) : Prop :=
  ∃ vm' word, execCkey (loadfile host) vm a d = .ok vm' ∧
    vm'.words[vm.base + a]? = some word ∧ host.cString word.toNat = some text

/-- The text is that of the string with the number, whatever the keywords are. -/
theorem loadsText_iff {host : Host} {vm : VM} (h : vm.WellFramed) {a : Nat} (ha : a < 256)
    {d : BitVec 16} {text : List Byte} :
    LoadsText host vm a d text ↔
      vm.base + a < maxCapacity ∧ nameOf? host (loadfile host) d = some text := by
  unfold LoadsText nameOf? execCkey cstrAt
  cases hp : (loadfile host).cstr[d.toNat]? with
  | none =>
      refine iff_of_false ?_ (fun hname => by cases hname.2)
      rintro ⟨vm', word, hok, -⟩
      cases hok
  | some p =>
      have hp64 := toNat_of_mem_cstr host (List.mem_of_getElem? hp)
      have hset := h.set_spec (i := a) (by omega) (.ofNat 64 p)
      simp only [bind, Except.bind, Option.bind_some]
      by_cases hlt : vm.base + a < maxCapacity
      · rw [if_pos hlt] at hset
        rcases hset with ⟨stored, hok, hacts⟩
        have hword : stored.next.words[vm.base + a]? = some (.ofNat 64 p) := by
          change stored.words[vm.base + a]? = _
          rw [hacts.toMoves.of_assign.1, getElem?_assign_self]
        rw [hok]
        constructor
        · rintro ⟨vm', word, hvm', hword', htext⟩
          cases hvm'
          rw [hword] at hword'
          cases hword'
          rw [hp64] at htext
          exact ⟨hlt, htext⟩
        · rintro ⟨_, htext⟩
          exact ⟨_, _, rfl, hword, by rwa [hp64]⟩
      · rw [if_neg hlt] at hset
        refine iff_of_false ?_ (fun hroom => hlt hroom.1)
        rintro ⟨vm', word, hok, -⟩
        rw [hset] at hok
        cases hok

/-! ## When it is the keyword -/

/-- The instruction {lit}`CKEY a d` loads keyword {lit}`d`. -/
def LoadsKeyword (host : Host) (vm : VM) (a : Nat) (d : BitVec 16) : Prop :=
  ∃ text, keywordText? host d = some text ∧ LoadsText host vm a d text

/-- Both programs load the same keyword. -/
def LoadSameKeyword (host host' : Host) (vm vm' : VM) (a a' : Nat) (d : BitVec 16) : Prop :=
  ∃ text, keywordText? host d = some text ∧ keywordText? host' d = some text ∧
    LoadsText host vm a d text ∧ LoadsText host' vm' a' d text

/-- The string with the number of the keyword has the keyword's text. -/
def StringIsKeyword (host : Host) (d : BitVec 16) : Prop :=
  ∃ text, keywordText? host d = some text ∧ nameOf? host (loadfile host) d = some text

/-- A {lit}`CKEY` loads its keyword exactly when the string with the number has the same
text.  Two programs with the same keywords load the same one exactly when this holds of
both. -/
theorem loadsKeyword_iff {host host' : Host} {vm vm' : VM}
    (h : Reachable host (loadfile host) vm) (h' : Reachable host' (loadfile host') vm')
    (hkeys : ∀ d : BitVec 16, d.toNat < (loadfile host).ckeyCnt →
      keywordText? host' d = keywordText? host d)
    {a a' : Nat} (ha : a < 256) (ha' : a' < 256) {d : BitVec 16}
    (hd : d.toNat < (loadfile host).ckeyCnt) :
    (LoadsKeyword host vm a d ↔ vm.base + a < maxCapacity ∧ StringIsKeyword host d) ∧
      (LoadSameKeyword host host' vm vm' a a' d ↔
        (vm.base + a < maxCapacity ∧ StringIsKeyword host d) ∧
          vm'.base + a' < maxCapacity ∧ StringIsKeyword host' d) := by
  have hloads (text : List Byte) :
      LoadsText host vm a d text ↔
        vm.base + a < maxCapacity ∧ nameOf? host (loadfile host) d = some text :=
    loadsText_iff h.wellFormed.toWellFramed ha
  have hloads' (text : List Byte) :
      LoadsText host' vm' a' d text ↔
        vm'.base + a' < maxCapacity ∧ nameOf? host' (loadfile host') d = some text :=
    loadsText_iff h'.wellFormed.toWellFramed ha'
  constructor
  · constructor
    · rintro ⟨text, hkey, hload⟩
      rcases (hloads text).mp hload with ⟨hlt, hname⟩
      exact ⟨hlt, text, hkey, hname⟩
    · rintro ⟨hlt, text, hkey, hname⟩
      exact ⟨text, hkey, (hloads text).mpr ⟨hlt, hname⟩⟩
  · constructor
    · rintro ⟨text, hkey, hkey', hload, hload'⟩
      rcases (hloads text).mp hload with ⟨hlt, hname⟩
      rcases (hloads' text).mp hload' with ⟨hlt', hname'⟩
      exact ⟨⟨hlt, text, hkey, hname⟩, hlt', text, hkey', hname'⟩
    · rintro ⟨⟨hlt, text, hkey, hname⟩, hlt', text', hkey', hname'⟩
      have hsame : text' = text := by
        rw [hkeys d hd, hkey] at hkey'
        exact (Option.some.inj hkey').symm
      subst hsame
      exact ⟨text', hkey, hkey', (hloads text').mpr ⟨hlt, hname⟩,
        (hloads' text').mpr ⟨hlt', hname'⟩⟩

/-- A program that loads keyword 0, with the keyword {lit}`k`. -/
def keywordProgram (strings : List (List Byte)) (hstrings : (Section.cstr strings).WellFormed) :
    CvmbFile where
  sections := [.instructions [.ad Opcode.ckey.number 0 0], .cint [], .cstr strings,
    .ckey [[107#8]]]
  nodup := by
    simp only [List.map_cons, List.map_nil, Section.kind]
    decide
  wellFormed := by
    rw [List.forall_mem_cons, List.forall_mem_cons, List.forall_mem_cons, List.forall_mem_singleton]
    exact ⟨by decide, by decide, hstrings, by decide⟩

/-- The program with the string {lit}`k`. -/
def sameTextHost : Host :=
  bumpHost (keywordProgram [[107#8]] (by decide)) (by decide)

/-- The program with the strings {lit}`k` and {lit}`s`. -/
def moreTextHost : Host :=
  bumpHost (keywordProgram [[107#8], [115#8]] (by decide)) (by decide)

/-- The program with the string {lit}`s`. -/
def otherTextHost : Host :=
  bumpHost (keywordProgram [[115#8]] (by decide)) (by decide)

theorem sameText_loaded :
    LoadSameKeyword sameTextHost moreTextHost (vmInit sameTextHost) (vmInit moreTextHost) 0 0 0 :=
  (loadsKeyword_iff .init .init
      (by
        intro d hd
        have hcnt : (loadfile sameTextHost).ckeyCnt = 1 := by decide
        have hzero : d = 0#16 := by
          apply BitVec.eq_of_toNat_eq
          simp only [BitVec.toNat_ofNat]
          omega
        subst hzero
        decide)
      (by decide) (by decide) (by decide)).2.mpr
    ⟨⟨by decide, [107#8], by decide, by decide⟩, by decide, [107#8], by decide, by decide⟩

/-- The program with the string {lit}`s` loads {lit}`s` for the keyword {lit}`k`. -/
theorem otherText_loaded :
    0 < (loadfile otherTextHost).ckeyCnt ∧
      LoadsText otherTextHost (vmInit otherTextHost) 0 0 [115#8] ∧
      ¬ LoadsKeyword otherTextHost (vmInit otherTextHost) 0 0 ∧
      ¬ LoadSameKeyword sameTextHost otherTextHost (vmInit sameTextHost) (vmInit otherTextHost)
        0 0 0 := by
  have hkey : keywordText? otherTextHost 0 = some [107#8] := by decide
  have hwf := VM.vmInit_wellFramed otherTextHost
  have hnot : ¬ LoadsText otherTextHost (vmInit otherTextHost) 0 0 [107#8] := by
    intro hload
    have hname := ((loadsText_iff hwf (by decide)).mp hload).2
    revert hname
    decide
  refine ⟨by decide, (loadsText_iff hwf (by decide)).mpr ⟨by decide, by decide⟩, ?_, ?_⟩
  · rintro ⟨text, htext, hload⟩
    rw [hkey] at htext
    cases htext
    exact hnot hload
  · rintro ⟨text, _, htext, _, hload⟩
    rw [hkey] at htext
    cases htext
    exact hnot hload

end ClojitCvm
