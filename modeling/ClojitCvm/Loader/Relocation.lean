import ClojitCvm.Loader.Bounds

/-!
# Where a file is mapped

The system maps a file wherever it likes.  The pointers that {lit}`parse` leaves behind lie
at the same places of the file, and everything else it leaves behind is the same.

Main results:

- Definition {lit}`Relocated`: sections whose pointers lie at the same places behind two
  addresses.
- Theorem {lit}`parse_relocated`: two copies of a file are parsed into such sections.
-/

namespace ClojitCvm

open ByteMemory ChainedHash

/-! ## Places in a file -/

/-- Two pointers to the same place behind two addresses. -/
def Behind (buf buf' p p' : Nat) : Prop :=
  ∃ offset, p = buf + offset ∧ p' = buf' + offset

/-- Two pointers that are null or to the same place behind two addresses. -/
def SamePlace (buf buf' p p' : Nat) : Prop :=
  (p = 0 ∧ p' = 0) ∨ Behind buf buf' p p'

/-- The same sections, with the pointers behind two addresses. -/
structure Relocated (buf buf' : Nat) (sec sec' : Sections) : Prop where
  instr : SamePlace buf buf' sec.instr sec'.instr
  cint : SamePlace buf buf' sec.cint sec'.cint
  cfloat : SamePlace buf buf' sec.cfloat sec'.cfloat
  cstr : List.Forall₂ (Behind buf buf') sec.cstr sec'.cstr
  ckey : List.Forall₂ (Behind buf buf') sec.ckey sec'.ckey
  vtable : sec.vtable = sec'.vtable
  types : sec.types = sec'.types
  instrCnt : sec.instrCnt = sec'.instrCnt
  cintCnt : sec.cintCnt = sec'.cintCnt
  cfloatCnt : sec.cfloatCnt = sec'.cfloatCnt
  cstrCnt : sec.cstrCnt = sec'.cstrCnt
  ckeyCnt : sec.ckeyCnt = sec'.ckeyCnt
  vtableCnt : sec.vtableCnt = sec'.vtableCnt
  typesCnt : sec.typesCnt = sec'.typesCnt

/-- The same section behind two addresses. -/
structure SectionAt.Relocated (buf buf' : Nat) (s s' : SectionAt) : Prop where
  kind : s.kind = s'.kind
  cnt : s.cnt = s'.cnt
  data : Behind buf buf' s.data s'.data

/-- Before the loader both have no pointers. -/
theorem Relocated.zero (buf buf' : Nat) : Relocated buf buf' .zero .zero where
  instr := .inl ⟨rfl, rfl⟩
  cint := .inl ⟨rfl, rfl⟩
  cfloat := .inl ⟨rfl, rfl⟩
  cstr := .nil
  ckey := .nil
  vtable := rfl
  types := rfl
  instrCnt := rfl
  cintCnt := rfl
  cfloatCnt := rfl
  cstrCnt := rfl
  ckeyCnt := rfl
  vtableCnt := rfl
  typesCnt := rfl

namespace Behind

variable {buf buf' p p' : Nat}

/-- So many bytes behind two addresses in the same place. -/
theorem add (h : Behind buf buf' p p') (k : Nat) : Behind buf buf' (p + k) (p' + k) := by
  rcases h with ⟨offset, rfl, rfl⟩
  exact ⟨offset + k, Nat.add_assoc _ _ _, Nat.add_assoc _ _ _⟩

/-- The beginnings of both buffers. -/
theorem self (buf buf' : Nat) : Behind buf buf' buf buf' :=
  ⟨0, rfl, rfl⟩

end Behind

/-! ## Copies of a file -/

/-- The bytes behind two addresses are the same. -/
def Copied (mem mem' : Memory) (buf buf' : Nat) : Prop :=
  ∀ offset, mem (buf + offset) = mem' (buf' + offset)

namespace Copied

variable {mem mem' : Memory} {buf buf' p p' : Nat} (h : Copied mem mem' buf buf')
include h

/-- A number of the file has the same bytes in both copies. -/
theorem loadBE_eq (hp : Behind buf buf' p p') (n : Nat) : loadBE mem p n = loadBE mem' p' n := by
  induction n generalizing p p' with
  | zero => rfl
  | succ n ih =>
      have htail := ih (hp.add 1)
      rcases hp with ⟨offset, rfl, rfl⟩
      rw [loadBE, loadBE, htail, h offset]

/-- A word of the file is the same in both copies. -/
theorem ntohlAt_eq (hp : Behind buf buf' p p') : ntohlAt mem p = ntohlAt mem' p' :=
  h.loadBE_eq hp 4

/-! ## Rows -/

/-- The string data of both copies is as long. -/
theorem bytesOfStr_eq (hp : Behind buf buf' p p') (cnt : Nat) :
    bytesOfStr mem p cnt = bytesOfStr mem' p' cnt := by
  rw [bytesOfStr, bytesOfStr, h.ntohlAt_eq (hp.add (4 * (cnt - 1)))]

/-- A string begins as far behind the index in both copies. -/
theorem charskip_eq (hp : Behind buf buf' p p') (j : Nat) :
    charskip mem p j = charskip mem' p' j := by
  rw [charskip, charskip, h.ntohlAt_eq (hp.add (4 * (j - 1)))]

/-- The pointers of a string table are pairwise in the same place. -/
theorem stringPointers (hp : Behind buf buf' p p') (cnt : Nat) :
    List.Forall₂ (Behind buf buf') (stringPointers mem p cnt) (stringPointers mem' p' cnt) := by
  refine List.forall₂_map_left_iff.mpr (List.forall₂_map_right_iff.mpr ?_)
  refine List.forall₂_same.mpr fun j _ => ?_
  rw [h.charskip_eq hp j]
  exact (hp.add _).add _

/-- A row of the virtual table gives the same record. -/
theorem vtableRecordAt_eq (hp : Behind buf buf' p p') :
    vtableRecordAt mem p = vtableRecordAt mem' p' := by
  rw [vtableRecordAt, vtableRecordAt, h.ntohlAt_eq hp, h.ntohlAt_eq (hp.add 4),
    h.ntohlAt_eq (hp.add 8)]

/-- A row of the types gives the same record. -/
theorem typeRecordAt_eq (hp : Behind buf buf' p p') :
    typeRecordAt mem p = typeRecordAt mem' p' := by
  rw [typeRecordAt, typeRecordAt, h.ntohlAt_eq hp, h.ntohlAt_eq (hp.add 4)]

/-! ## Sections -/

/-- The loop goes on by the same number of bytes. -/
theorem advance_eq {s s' : SectionAt} (hs : s.Relocated buf buf' s') (len : Nat) :
    s.advance mem len = s'.advance mem' len := by
  rcases s with ⟨kind, cnt, data⟩
  rcases s' with ⟨kind', cnt', data'⟩
  rcases hs with ⟨rfl, rfl, hdata⟩
  cases kind with
  | cstr | ckey => rw [SectionAt.advance, SectionAt.advance, h.bytesOfStr_eq hdata]
  | _ => rfl

/-- The same rows are added to the virtual table. -/
theorem vtableRecords_eq {s s' : SectionAt} (hs : s.Relocated buf buf' s') :
    s.vtableRecords mem = s'.vtableRecords mem' := by
  rw [SectionAt.vtableRecords, SectionAt.vtableRecords, hs.cnt]
  exact List.map_congr_left fun j _ => h.vtableRecordAt_eq (hs.data.add _)

/-- The same rows are added to the types. -/
theorem typeRecords_eq {s s' : SectionAt} (hs : s.Relocated buf buf' s') :
    s.typeRecords mem = s'.typeRecords mem' := by
  rw [SectionAt.typeRecords, SectionAt.typeRecords, hs.cnt]
  exact List.map_congr_left fun j _ => h.typeRecordAt_eq (hs.data.add _)

/-- A section changes relocated sections into relocated sections. -/
theorem load {s s' : SectionAt} (hs : s.Relocated buf buf' s') {sec sec' : Sections}
    (hsec : Relocated buf buf' sec sec') (debugLevel : Int) :
    Relocated buf buf' (s.load debugLevel mem sec) (s'.load debugLevel mem' sec') := by
  have hvtable := h.vtableRecords_eq hs
  have htypes := h.typeRecords_eq hs
  rcases s with ⟨kind, cnt, data⟩
  rcases s' with ⟨kind', cnt', data'⟩
  rcases hs with ⟨rfl, rfl, hdata⟩
  cases kind with
  | instructions =>
      by_cases hdebug : debugLevel > 0
      · simp only [SectionAt.load, if_pos hdebug]
        exact { hsec with instr := .inr hdata, instrCnt := rfl }
      · simp only [SectionAt.load, if_neg hdebug]
        exact { hsec with
          instr := .inr hdata, instrCnt := rfl, cint := .inr hdata, cintCnt := rfl }
  | cint => exact { hsec with cint := .inr hdata, cintCnt := rfl }
  | cfloat => exact { hsec with cfloat := .inr hdata, cfloatCnt := rfl }
  | cstr => exact { hsec with cstr := h.stringPointers hdata _, cstrCnt := rfl }
  | ckey => exact { hsec with ckey := h.stringPointers hdata _, ckeyCnt := rfl }
  | vtables =>
      exact { hsec with vtable := congrArg (addAll vtableHashing) hvtable, vtableCnt := rfl }
  | types => exact { hsec with types := congrArg (addAll typeHashing) htypes, typesCnt := rfl }

/-- The tables are in the same place after any number of sections. -/
theorem foldl_load {xs xs' : List SectionAt}
    (hxs : List.Forall₂ (SectionAt.Relocated buf buf') xs xs') {sec sec' : Sections}
    (hsec : Relocated buf buf' sec sec') (debugLevel : Int) :
    Relocated buf buf' (xs.foldl (SectionAt.load debugLevel mem) sec)
      (xs'.foldl (SectionAt.load debugLevel mem') sec') := by
  induction hxs generalizing sec sec' with
  | nil => exact hsec
  | cons hs _ ih => exact ih (h.load hs hsec debugLevel)

/-- The sections of the copy are found at the same offsets. -/
theorem layoutFrom (remaining i offset : Nat) :
    List.Forall₂ (SectionAt.Relocated buf buf') (layoutFrom mem buf remaining i offset)
      (layoutFrom mem' buf' remaining i offset) := by
  induction remaining generalizing i offset with
  | zero => exact .nil
  | succ remaining ih =>
      have hhdr : Behind buf buf' (hdrAt buf i) (hdrAt buf' i) :=
        ((Behind.self buf buf').add _).add _
      have hid : secIdAt mem buf i = secIdAt mem' buf' i := h.ntohlAt_eq hhdr
      have hlen : secLenAt mem buf i = secLenAt mem' buf' i := h.ntohlAt_eq (hhdr.add 4)
      rw [ClojitCvm.layoutFrom, ClojitCvm.layoutFrom, ← hid, ← hlen]
      cases SectionKind.ofId? (secIdAt mem buf i) with
      | none => exact .nil
      | some kind =>
          have hs : (sectionAt mem buf kind offset).Relocated buf buf'
              (sectionAt mem' buf' kind offset) :=
            ⟨rfl, h.ntohlAt_eq ((Behind.self buf buf').add offset),
              (Behind.self buf buf').add _⟩
          dsimp only
          rw [← h.advance_eq hs]
          exact .cons hs (ih _ _)

/-- Parsing two copies gives the same code and tables in the same place. -/
theorem parse (debugLevel : Int) {sec sec' : Sections} (hsec : Relocated buf buf' sec sec') :
    (parse debugLevel mem buf sec).1 = (parse debugLevel mem' buf' sec').1 ∧
      Relocated buf buf' (parse debugLevel mem buf sec).2
        (parse debugLevel mem' buf' sec').2 := by
  have hcount : ntohlAt mem buf = ntohlAt mem' buf' := h.ntohlAt_eq (.self buf buf')
  have hlayout : List.Forall₂ (SectionAt.Relocated buf buf') (layout mem buf)
      (layout mem' buf') := by
    unfold layout
    rw [← hcount]
    exact h.layoutFrom _ _ _
  rw [parse_eq_foldl, parse_eq_foldl, ← hcount, hlayout.length_eq]
  exact ⟨rfl, h.foldl_load hlayout hsec debugLevel⟩

end Copied

/-! ## Parsing a copy -/

/-- Where the bytes that {lit}`parse` reads of one buffer are in another one at the same
offsets, the other one gives the same return code, and sections whose pointers lie at the
same offsets. -/
theorem parse_relocated {mem mem' : Memory} {buf buf' : Nat}
    (h : ∀ x ∈ parseReads mem buf .zero, mem x = mem' (buf' + (x - buf))) :
    (parse 0 mem buf .zero).1 = (parse 0 mem' buf' .zero).1 ∧
      Relocated buf buf' (parse 0 mem buf .zero).2 (parse 0 mem' buf' .zero).2 := by
  have hcopied : Copied (fun x => mem' (buf' + (x - buf))) mem' buf buf' := fun offset =>
    congrArg (fun k => mem' (buf' + k)) (Nat.add_sub_cancel_left (n := buf) (m := offset))
  rw [parse_congr_of_reads h]
  exact hcopied.parse 0 (.zero buf buf')

/-- A file with the string {lit}`k`. -/
def oneString : List Byte :=
  [0, 0, 0, 1, 0, 0, 0, 3, 0, 0, 0, 0, 0, 0, 0, 1, 0, 0, 0, 2, 0x6b, 0]

/-- A file with one string, at zero and at the second page. -/
theorem oneString_relocated :
    (parse 0 (ofBytes 0 oneString) 0 .zero).1 = (parse 0 (ofBytes 4096 oneString) 4096 .zero).1 ∧
      Relocated 0 4096 (parse 0 (ofBytes 0 oneString) 0 .zero).2
        (parse 0 (ofBytes 4096 oneString) 4096 .zero).2 :=
  parse_relocated fun x _ => by simp [ofBytes]

end ClojitCvm
