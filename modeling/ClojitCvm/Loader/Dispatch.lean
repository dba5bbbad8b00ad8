import ClojitCvm.Loader.Layout

/-!
# Protocol dispatch

A dispatch record is added to the hash table under the address of its 64-bit pair of
protocol and type, but the table is told that keys are {lit}`sizeof(int)` bytes long.
The key of a pair is therefore its type alone, and records of one type hide each
other.

Main results:

- Theorem {lit}`getVtableRecord_parse`: after parsing, a lookup returns the front one
  of the rows of its type, whatever the protocol.
- Theorem {lit}`getVtableRecord_exact_iff`: a lookup is exact when that row is the one
  asked for, and a whole table is exact only when it is empty.
-/

namespace ClojitCvm

open ByteMemory ChainedHash

/-! ## Pairs of protocol and type -/

/-- The key {lit}`protocol << 32 | type`. -/
def lookUpPair (protocol type : BitVec 32) : BitVec 64 :=
  (protocol.setWidth 64 <<< 32) ||| type.setWidth 64

theorem lookUpPair_eq_pack (protocol type : BitVec 32) :
    lookUpPair protocol type = TaggedWord.pack protocol type := by
  have h := TaggedWord.shiftedTag_or_setWidth (t := 32) (p := 32) protocol type (Nat.le_refl 32)
  rwa [BitVec.setWidth_eq] at h

theorem lookUpPair_inj {p p' t t' : BitVec 32} :
    lookUpPair p t = lookUpPair p' t' ↔ p = p' ∧ t = t' := by
  rw [lookUpPair_eq_pack, lookUpPair_eq_pack]
  exact TaggedWord.pack_inj

/-- The four bytes that are hashed and compared are the type. -/
@[simp]
theorem setWidth_lookUpPair (protocol type : BitVec 32) :
    (lookUpPair protocol type).setWidth 32 = type := by
  rw [lookUpPair_eq_pack]
  exact TaggedWord.payloadOf_pack protocol type

/-! ## Lookups after parsing -/

/-- The rows of one type in the order a lookup meets them: newest first, turned
around every time the table doubles. -/
def rowsOfType (rows : List VtableRecord) (type : BitVec 32) : List VtableRecord :=
  order vtableHashing type none [] rows

/-- The last section of dispatch rows is the table that parsing leaves. -/
theorem vtable_parse (debugLevel : Int) {mem : Memory} {buf : Nat} (sec : Sections)
    {front back : List SectionAt} {s : SectionAt}
    (hlayout : layout mem buf = front ++ s :: back) (hs : s.kind = .vtables)
    (hback : ∀ x ∈ back, x.kind ≠ .vtables) :
    (parse debugLevel mem buf sec).2.vtable =
      addAll vtableHashing (s.vtableRecords mem) := by
  have hquiet : ∀ x ∈ back, ¬ Disturbs debugLevel x .vtables := by
    rintro x hx (hkind | ⟨_, hcint, _⟩)
    · exact hback x hx hkind
    · exact absurd hcint (by decide)
  rw [parse_eq_foldl, hlayout, List.foldl_append, List.foldl_cons]
  have hkept := foldl_load_sameTable mem hquiet
    (s.load debugLevel mem (front.foldl (SectionAt.load debugLevel mem) sec))
  rw [hkept.1]
  simp only [SectionAt.load, hs]

/-- A lookup returns the front row of the type, whatever the protocol. -/
theorem getVtableRecord_parse (debugLevel : Int) {mem : Memory} {buf : Nat} (sec : Sections)
    {front back : List SectionAt} {s : SectionAt}
    (hlayout : layout mem buf = front ++ s :: back) (hs : s.kind = .vtables)
    (hback : ∀ x ∈ back, x.kind ≠ .vtables) (p t : BitVec 32) :
    getVtableRecord (parse debugLevel mem buf sec).2 (lookUpPair p t) =
      (rowsOfType (s.vtableRecords mem) t).head? := by
  rw [getVtableRecord, vtable_parse debugLevel sec hlayout hs hback, setWidth_lookUpPair,
    find_addAll]
  rfl

/-! ## When a lookup is exact -/

/-- The lookup gives the row of the pair, and nothing when there is none. -/
def ExactFor (rows : List VtableRecord) (p t : BitVec 32) (found : Option VtableRecord) : Prop :=
  found = rows.find? fun row => row.lookUpPair = lookUpPair p t

/-- If the type has rows, the front one has the protocol asked for. -/
def FrontHasProtocol (rows : List VtableRecord) (p t : BitVec 32) : Prop :=
  ∀ row, (rowsOfType rows t).head? = some row → row.lookUpPair = lookUpPair p t

theorem mem_rowsOfType {rows : List VtableRecord} {t : BitVec 32} {row : VtableRecord} :
    row ∈ rowsOfType rows t ↔ row ∈ rows ∧ row.lookUpPair.setWidth 32 = t :=
  mem_order vtableHashing t

/-- The front row is the exact answer when it is the row asked for, or when no row
has the type. -/
theorem exactFor_head_iff {rows : List VtableRecord}
    (hdistinct : (rows.map (·.lookUpPair)).Nodup) (p t : BitVec 32) :
    ExactFor rows p t (rowsOfType rows t).head? ↔ FrontHasProtocol rows p t := by
  unfold ExactFor FrontHasProtocol
  cases hfront : (rowsOfType rows t).head? with
  | none =>
      have hnone : rows.find? (fun row => row.lookUpPair = lookUpPair p t) = none := by
        rw [List.head?_eq_none_iff] at hfront
        rw [List.find?_eq_none]
        intro row hrow hpair
        have hmem : row ∈ rowsOfType rows t := by
          rw [mem_rowsOfType]
          exact ⟨hrow, by rw [of_decide_eq_true hpair, setWidth_lookUpPair]⟩
        rw [hfront] at hmem
        exact absurd hmem (by simp)
      simp [hnone]
  | some row =>
      constructor
      · intro hexact row' hrow'
        cases hrow'
        have hpair := List.find?_some hexact.symm
        exact of_decide_eq_true hpair
      · intro hpair
        have hrow := (mem_rowsOfType.mp (List.mem_of_head? hfront)).1
        have hpair := hpair row rfl
        have hexists : rows.find? (fun row => row.lookUpPair = lookUpPair p t) ≠ none := by
          rw [Ne, List.find?_eq_none]
          intro hnone
          exact hnone row hrow (decide_eq_true hpair)
        obtain ⟨found, hfound⟩ := Option.ne_none_iff_exists'.mp hexists
        have hfoundPair := List.find?_some hfound
        have hsame : row.lookUpPair = found.lookUpPair :=
          hpair.trans (of_decide_eq_true hfoundPair).symm
        have hfoundMem := List.mem_of_find?_eq_some hfound
        rw [hfound, List.inj_on_of_nodup_map hdistinct hrow hfoundMem hsame]

/-- The row of a type added last is the front one as long as the table cannot have
doubled. -/
theorem head?_rowsOfType_of_small {rows : List VtableRecord}
    (hsmall : rows.length < bucketCapacityThresh) (t : BitVec 32) :
    (rowsOfType rows t).head? =
      (rows.filter fun row => row.lookUpPair.setWidth 32 = t).getLast? := by
  have h := find_addAll_of_small vtableHashing t hsmall
  rw [find_addAll] at h
  exact h

/-- A row is hidden from every protocol but one, so only an empty table answers all
lookups exactly. -/
theorem forall_frontHasProtocol_iff {rows : List VtableRecord} :
    (∀ p t, FrontHasProtocol rows p t) ↔ rows = [] := by
  constructor
  · intro h
    by_contra hne
    rcases List.exists_mem_of_ne_nil rows hne with ⟨row, hrow⟩
    have hmem : row ∈ rowsOfType rows (row.lookUpPair.setWidth 32) :=
      mem_rowsOfType.mpr ⟨hrow, rfl⟩
    cases hfront : (rowsOfType rows (row.lookUpPair.setWidth 32)).head? with
    | none =>
        rw [List.head?_eq_none_iff] at hfront
        rw [hfront] at hmem
        exact absurd hmem (by simp)
    | some first =>
        have hzero := h 0#32 _ first hfront
        have hone := h 1#32 _ first hfront
        have hpair := lookUpPair_inj.mp (hzero.symm.trans hone)
        exact absurd hpair.1 (by decide)
  · rintro rfl p t row hrow
    exact absurd hrow (by simp [rowsOfType, order])

/-- For a section of distinct pairs that is the last of its kind, a lookup after
parsing is exact if and only if the front row of the type, if there is one, has the
protocol asked for.  In a section of fewer than ten rows the front row is the last
one of the type.  All lookups are exact only for the empty section. -/
theorem getVtableRecord_exact_iff (debugLevel : Int) {mem : Memory} {buf : Nat}
    (sec : Sections) {front back : List SectionAt} {s : SectionAt}
    (hlayout : layout mem buf = front ++ s :: back) (hs : s.kind = .vtables)
    (hback : ∀ x ∈ back, x.kind ≠ .vtables)
    (hdistinct : ((s.vtableRecords mem).map (·.lookUpPair)).Nodup) :
    (∀ p t, ExactFor (s.vtableRecords mem) p t
        (getVtableRecord (parse debugLevel mem buf sec).2 (lookUpPair p t)) ↔
      FrontHasProtocol (s.vtableRecords mem) p t) ∧
    (s.cnt < 10 → ∀ t, (rowsOfType (s.vtableRecords mem) t).head? =
      ((s.vtableRecords mem).filter fun row => row.lookUpPair.setWidth 32 = t).getLast?) ∧
    ((∀ p t, ExactFor (s.vtableRecords mem) p t
        (getVtableRecord (parse debugLevel mem buf sec).2 (lookUpPair p t))) ↔
      s.cnt = 0) := by
  have hexact : ∀ p t, ExactFor (s.vtableRecords mem) p t
      (getVtableRecord (parse debugLevel mem buf sec).2 (lookUpPair p t)) ↔
        FrontHasProtocol (s.vtableRecords mem) p t := by
    intro p t
    rw [getVtableRecord_parse debugLevel sec hlayout hs hback]
    exact exactFor_head_iff hdistinct p t
  refine ⟨hexact, ?_, ?_⟩
  · intro hsmall
    apply head?_rowsOfType_of_small
    simpa [SectionAt.vtableRecords, bucketCapacityThresh] using hsmall
  · simp only [hexact, forall_frontHasProtocol_iff]
    simp [SectionAt.vtableRecords]

/-! ## A type with two protocols -/

/-- A file with the dispatch rows (offset 5, protocol 1, type 7) and (offset 6,
protocol 2, type 7). -/
def twoProtocols : Memory :=
  ofBytes 0 [0, 0, 0, 1, 0, 0, 0, 5, 0, 0, 0, 24, 0, 0, 0, 2,
    0, 0, 0, 5, 0, 0, 0, 1, 0, 0, 0, 7,
    0, 0, 0, 6, 0, 0, 0, 2, 0, 0, 0, 7]

theorem layout_twoProtocols : layout twoProtocols 0 = [⟨.vtables, 2, 16⟩] := by
  decide

theorem distinct_twoProtocols :
    (((⟨.vtables, 2, 16⟩ : SectionAt).vtableRecords twoProtocols).map
      (·.lookUpPair)).Nodup := by
  decide

/-- The second protocol of the type is found. -/
theorem second_protocol_exact :
    ExactFor ((⟨.vtables, 2, 16⟩ : SectionAt).vtableRecords twoProtocols) 2 7
      (getVtableRecord (parse 0 twoProtocols 0 .zero).2 (lookUpPair 2 7)) := by
  have h := @getVtableRecord_exact_iff 0 twoProtocols 0 .zero [] [] _ layout_twoProtocols
    rfl (by simp) distinct_twoProtocols
  rw [h.1]
  intro row hrow
  have hlast : ((⟨.vtables, 2, 16⟩ : SectionAt).vtableRecords twoProtocols |>.filter
      fun row => row.lookUpPair.setWidth 32 = 7#32).getLast? = some ⟨lookUpPair 2 7, 6⟩ := by
    decide
  rw [h.2.1 (by decide), show (7 : BitVec 32) = 7#32 from rfl, hlast] at hrow
  cases hrow
  rfl

/-- The first protocol of the type is answered with the row of the second. -/
theorem first_protocol_hidden :
    ¬ ∀ (debugLevel : Int) (mem : Memory) (buf : Nat) (sec : Sections)
      (front back : List SectionAt) (s : SectionAt),
      layout mem buf = front ++ s :: back → s.kind = .vtables →
      (∀ x ∈ back, x.kind ≠ .vtables) →
      ((s.vtableRecords mem).map (·.lookUpPair)).Nodup →
      ∀ p t, ExactFor (s.vtableRecords mem) p t
        (getVtableRecord (parse debugLevel mem buf sec).2 (lookUpPair p t)) := by
  intro h
  have hfirst := h 0 twoProtocols 0 .zero [] [] _ layout_twoProtocols rfl (by simp)
    distinct_twoProtocols 1 7
  revert hfirst
  unfold ExactFor
  decide

end ClojitCvm
