import ClojitCvm.Loader.Layout

/-!
# The file format

A program is a list of sections, and a file is the number of sections, a header for
each and the bodies in header order.  A body is the element count and the data; the
header has the kind of the section and the length of the data.  All numbers are
big-endian.

Main results:

- The structure {lit}`CvmbFile`: sections of distinct kinds whose counts, lengths and
  strings fit the format.
- Theorem {lit}`secIdAt_of_headers`: the header words are found in an encoded file.
- Theorem {lit}`layoutFrom_append`: the loader finds the sections of an encoded file
  where they are, as long as no section stands behind the types.
-/

namespace ClojitCvm

open ByteMemory Slot

/-! ## Elements -/

/-- An instruction in one of its two shapes. -/
inductive Instruction where
  | abc (op a b c : Byte)
  | ad (op a : Byte) (d : BitVec 16)
deriving DecidableEq, Repr

def Instruction.bytes : Instruction → List Byte
  | abc op a b c => [op, a, b, c]
  | ad op a d => op :: a :: beBytes 2 d.toNat

structure VtableRow where
  jumpOffset : BitVec 32
  protocol : BitVec 32
  type : BitVec 32
deriving DecidableEq, Repr

def VtableRow.bytes (row : VtableRow) : List Byte :=
  beBytes 4 row.jumpOffset.toNat ++ (beBytes 4 row.protocol.toNat ++ beBytes 4 row.type.toNat)

/-- The size of a type is its number of fields. -/
structure TypeRow where
  size : BitVec 32
  id : BitVec 32
deriving DecidableEq, Repr

def TypeRow.bytes (row : TypeRow) : List Byte :=
  beBytes 4 row.size.toNat ++ beBytes 4 row.id.toNat

/-- The strings one behind the other, each with its terminating NUL. -/
def characters (strings : List (List Byte)) : List Byte :=
  strings.flatMap fun s => s ++ [0#8]

/-- The end of every string, counted from the first character. -/
def endOffsets (start : Nat) : List (List Byte) → List Nat
  | [] => []
  | s :: strings => (start + (s.length + 1)) :: endOffsets (start + (s.length + 1)) strings

/-- Index, character size and characters of a table of strings. -/
def stringTable (strings : List (List Byte)) : List Byte :=
  (endOffsets 0 strings).flatMap (beBytes 4) ++
    (beBytes 4 (characters strings).length ++ characters strings)

/-! ## Sections -/

/-- The contents of a section. -/
inductive Section where
  | instructions (code : List Instruction)
  | cint (values : List Word)
  | cfloat (values : List Double)
  | cstr (strings : List (List Byte))
  | ckey (strings : List (List Byte))
  | vtables (rows : List VtableRow)
  | types (rows : List TypeRow)
deriving DecidableEq, Repr

namespace Section

def kind : Section → SectionKind
  | instructions _ => .instructions
  | cint _ => .cint
  | cfloat _ => .cfloat
  | cstr _ => .cstr
  | ckey _ => .ckey
  | vtables _ => .vtables
  | types _ => .types

def count : Section → Nat
  | instructions code => code.length
  | cint values => values.length
  | cfloat values => values.length
  | cstr strings => strings.length
  | ckey strings => strings.length
  | vtables rows => rows.length
  | types rows => rows.length

def data : Section → List Byte
  | instructions code => code.flatMap Instruction.bytes
  | cint values => values.flatMap fun v => beBytes 8 v.toNat
  | cfloat values => values.flatMap fun v => beBytes 8 v.toNat
  | cstr strings => stringTable strings
  | ckey strings => stringTable strings
  | vtables rows => rows.flatMap VtableRow.bytes
  | types rows => rows.flatMap TypeRow.bytes

/-- The strings of a section. -/
def strings : Section → List (List Byte)
  | cstr strings => strings
  | ckey strings => strings
  | _ => []

def body (s : Section) : List Byte :=
  beBytes 4 s.count ++ s.data

def header (s : Section) : List Byte :=
  beBytes 4 s.kind.id ++ beBytes 4 s.data.length

/-- Count and length fit their words, and no string contains a NUL. -/
structure WellFormed (s : Section) : Prop where
  count_lt : s.count < 2 ^ 32
  length_lt : s.data.length < 2 ^ 32
  noNul : ∀ string ∈ s.strings, 0#8 ∉ string

instance (s : Section) : Decidable s.WellFormed :=
  decidable_of_iff (s.count < 2 ^ 32 ∧ s.data.length < 2 ^ 32 ∧
      ∀ string ∈ s.strings, 0#8 ∉ string)
    ⟨fun h => ⟨h.1, h.2.1, h.2.2⟩, fun h => ⟨h.count_lt, h.length_lt, h.noNul⟩⟩

theorem length_body (s : Section) : s.body.length = 4 + s.data.length := by
  simp [body]

theorem length_header (s : Section) : s.header.length = 8 := by
  simp [header]

end Section

/-! ## Files -/

/-- The sections of a file, at most one of each kind. -/
structure CvmbFile where
  sections : List Section
  nodup : (sections.map Section.kind).Nodup
  wellFormed : ∀ s ∈ sections, s.WellFormed

namespace CvmbFile

def kinds (file : CvmbFile) : List SectionKind :=
  file.sections.map Section.kind

/-- The bytes of a file. -/
def encode (file : CvmbFile) : List Byte :=
  beBytes 4 file.sections.length ++
    (file.sections.flatMap Section.header ++ file.sections.flatMap Section.body)

/-- The offset of the first section. -/
def firstOffset (file : CvmbFile) : Nat :=
  file.sections.length * parseHdrSize + headerOffset

/-- There are only seven kinds. -/
theorem length_sections_le (file : CvmbFile) : file.sections.length ≤ 7 := by
  have hids : (file.kinds.map SectionKind.id).Nodup :=
    file.nodup.map SectionKind.id_injective
  have hlt : file.kinds.map SectionKind.id ⊆ List.range 7 := by
    intro id hid
    rcases List.mem_map.mp hid with ⟨kind, _, rfl⟩
    exact List.mem_range.mpr kind.id_lt
  have hlength := (List.subperm_of_subset hids hlt).length_le
  simpa [kinds] using hlength

end CvmbFile

/-! ## Headers -/

theorem length_flatMap_header (xs : List Section) :
    (xs.flatMap Section.header).length = 8 * xs.length := by
  induction xs with
  | nil => rfl
  | cons s xs ih =>
      rw [List.flatMap_cons, List.length_append, ih, s.length_header, List.length_cons]
      omega

/-- The header words of the sections from number {lit}`i` on are found in the
headers from there on. -/
theorem secIdAt_of_headers {mem : Memory} {buf i : Nat} {s : Section} {xs : List Section}
    (h : HasBytes mem (hdrAt buf i) ((s :: xs).flatMap Section.header))
    (hs : s.WellFormed) :
    secIdAt mem buf i = s.kind.id ∧ secLenAt mem buf i = s.data.length ∧
      HasBytes mem (hdrAt buf (i + 1)) (xs.flatMap Section.header) := by
  rw [List.flatMap_cons, hasBytes_append, Section.header, hasBytes_append] at h
  rcases h with ⟨⟨hid, hlen⟩, hrest⟩
  have hkind := s.kind.id_lt
  have hlength := hs.length_lt
  refine ⟨loadBE_beBytes hid (by omega), ?_, ?_⟩
  · rw [length_beBytes] at hlen
    exact loadBE_beBytes hlen hlength
  · have haddress : hdrAt buf (i + 1) =
        hdrAt buf i + (beBytes 4 s.kind.id ++ beBytes 4 s.data.length).length := by
      simp only [hdrAt, parseHdrSize, List.length_append, length_beBytes]
      omega
    rwa [haddress]

/-! ## Element counts and string tables -/

/-- A count word is read back. -/
theorem ntohlAt_beBytes {mem : Memory} {a v : Nat} (h : HasBytes mem a (beBytes 4 v))
    (hv : v < 2 ^ 32) : ntohlAt mem a = v :=
  loadBE_beBytes h hv

@[simp]
theorem length_endOffsets (start : Nat) (strings : List (List Byte)) :
    (endOffsets start strings).length = strings.length := by
  induction strings generalizing start with
  | nil => rfl
  | cons s strings ih => simp [endOffsets, ih]

theorem length_flatMap_beBytes (n : Nat) (values : List Nat) :
    (values.flatMap (beBytes n)).length = n * values.length := by
  induction values with
  | nil => rfl
  | cons v values ih =>
      rw [List.flatMap_cons, List.length_append, ih, length_beBytes, List.length_cons,
        Nat.mul_succ, Nat.add_comm]

theorem length_stringTable (strings : List (List Byte)) :
    (stringTable strings).length = 4 * strings.length + 4 + (characters strings).length := by
  simp only [stringTable, List.length_append, length_flatMap_beBytes, length_endOffsets,
    length_beBytes]
  omega

/-- The offset where string number {lit}`k` ends. -/
theorem endOffsets_getElem? (start : Nat) (strings : List (List Byte)) (k : Nat) :
    (endOffsets start strings)[k]? =
      if k < strings.length then some (start + (characters (strings.take (k + 1))).length)
      else none := by
  induction strings generalizing start k with
  | nil => simp [endOffsets]
  | cons s strings ih =>
      cases k with
      | zero => simp [endOffsets, characters]
      | succ k =>
          rw [endOffsets, List.getElem?_cons_succ, ih]
          simp only [List.length_cons, Nat.add_lt_add_iff_right, List.take_succ_cons,
            characters, List.flatMap_cons, List.length_append, List.length_nil]
          split
          · congr 1
            omega
          · rfl

/-- The characters of the first strings are no more than all of them. -/
theorem length_characters_take_le (strings : List (List Byte)) (k : Nat) :
    (characters (strings.take k)).length ≤ (characters strings).length := by
  have hsplit : characters strings =
      characters (strings.take k) ++ characters (strings.drop k) := by
    rw [characters, characters, characters, ← List.flatMap_append, List.take_append_drop]
  rw [hsplit, List.length_append]
  omega

/-- The index entry of string {lit}`k` says where the next string starts. -/
theorem ntohlAt_index {mem : Memory} {a k : Nat} {strings : List (List Byte)}
    (h : HasBytes mem a (stringTable strings)) (hlt : (stringTable strings).length < 2 ^ 32)
    (hk : k < strings.length) :
    ntohlAt mem (a + 4 * k) = (characters (strings.take (k + 1))).length := by
  rw [stringTable, hasBytes_append] at h
  rw [length_stringTable] at hlt
  have hentry := endOffsets_getElem? 0 strings k
  rw [if_pos hk, Nat.zero_add] at hentry
  have hle := length_characters_take_le strings (k + 1)
  exact ntohlAt_beBytes (hasBytes_flatMap h.1 (length_beBytes 4) hentry) (by omega)

/-- The character count in the last index entry. -/
theorem bytesOfStr_stringTable {mem : Memory} {a : Nat} {strings : List (List Byte)}
    (h : strings.length ≠ 0 → HasBytes mem a (stringTable strings))
    (hlt : (stringTable strings).length < 2 ^ 32) :
    bytesOfStr mem a strings.length = (characters strings).length := by
  unfold bytesOfStr
  split
  · next hne =>
    rw [ntohlAt_index (h hne) hlt (show strings.length - 1 < strings.length by omega),
      show strings.length - 1 + 1 = strings.length by omega, List.take_length]
  · next hzero =>
    have hnil : strings = [] := List.length_eq_zero_iff.mp (by omega)
    subst hnil
    rfl

/-! ## The layout of an encoded file -/

/-- The address of the data of a section that starts at an offset. -/
def dataAt (buf offset : Nat) : Nat :=
  buf + (offset + 4) % 2 ^ 32

/-- The sections with their places, from an offset on. -/
def placed (buf : Nat) : Nat → List Section → List SectionAt
  | _, [] => []
  | offset, s :: xs =>
      ⟨s.kind, s.count, dataAt buf offset⟩ :: placed buf (offset + s.body.length) xs

/-- Every section that has elements starts its data below four gigabytes, where the
loader's 32-bit offset reaches it. -/
def InReach : Nat → List Section → Prop
  | _, [] => True
  | offset, s :: xs =>
      (s.count ≠ 0 → offset + 4 < 2 ^ 32) ∧ InReach (offset + s.body.length) xs

/-- The data of a section with elements is found where the loader looks. -/
theorem hasBytes_dataAt {mem : Memory} {buf offset : Nat} {s : Section}
    (h : HasBytes mem (buf + offset) s.body) (hreach : s.count ≠ 0 → offset + 4 < 2 ^ 32)
    (hne : s.count ≠ 0) : HasBytes mem (dataAt buf offset) s.data := by
  rw [Section.body, hasBytes_append, length_beBytes] at h
  rw [dataAt, Nat.mod_eq_of_lt (hreach hne), ← Nat.add_assoc]
  exact h.2

/-- The loader moves over a whole section, unless it is a section of types. -/
theorem advance_sectionAt {mem : Memory} {buf offset : Nat} {s : Section}
    (h : HasBytes mem (buf + offset) s.body) (hs : s.WellFormed)
    (hreach : s.count ≠ 0 → offset + 4 < 2 ^ 32) (hkind : s.kind ≠ .types) :
    (⟨s.kind, s.count, dataAt buf offset⟩ : SectionAt).advance mem s.data.length =
      s.body.length := by
  have hdata := hasBytes_dataAt h hreach
  have hlt := hs.length_lt
  rw [s.length_body]
  cases s with
  | types rows => exact absurd rfl hkind
  | cstr strings =>
      simp only [SectionAt.advance, Section.kind, Section.count, Section.data] at hdata hlt ⊢
      rw [bytesOfStr_stringTable hdata hlt, length_stringTable]
      omega
  | ckey strings =>
      simp only [SectionAt.advance, Section.kind, Section.count, Section.data] at hdata hlt ⊢
      rw [bytesOfStr_stringTable hdata hlt, length_stringTable]
      omega
  | _ => exact Nat.add_comm _ _

/-- The count word of a section is found at its offset. -/
theorem sectionAt_body {mem : Memory} {buf offset : Nat} {s : Section}
    (h : HasBytes mem (buf + offset) s.body) (hs : s.WellFormed) :
    sectionAt mem buf s.kind offset = ⟨s.kind, s.count, dataAt buf offset⟩ := by
  rw [Section.body, hasBytes_append] at h
  simp only [sectionAt, ntohlAt_beBytes h.1 hs.count_lt, dataAt]

/-- The loader finds the sections where they are, up to and including the first
section of types, and goes on from the end of the front part. -/
theorem layoutFrom_append {mem : Memory} {buf i offset : Nat} {front back : List Section}
    (hheaders : HasBytes mem (hdrAt buf i) ((front ++ back).flatMap Section.header))
    (hbodies : HasBytes mem (buf + offset) (front.flatMap Section.body))
    (hwf : ∀ s ∈ front, s.WellFormed) (hreach : InReach offset front)
    (htypes : ∀ s ∈ front, s.kind ≠ .types) :
    layoutFrom mem buf (front ++ back).length i offset =
        placed buf offset front ++ layoutFrom mem buf back.length (i + front.length)
          (offset + (front.flatMap Section.body).length) ∧
      HasBytes mem (hdrAt buf (i + front.length)) (back.flatMap Section.header) := by
  induction front generalizing i offset with
  | nil => exact ⟨rfl, hheaders⟩
  | cons s front ih =>
      rw [List.forall_mem_cons] at hwf htypes
      rw [List.flatMap_cons, hasBytes_append] at hbodies
      obtain ⟨hid, hlen, hrest⟩ := secIdAt_of_headers hheaders hwf.1
      have hsection := sectionAt_body hbodies.1 hwf.1
      have hadvance := advance_sectionAt hbodies.1 hwf.1 hreach.1 htypes.1
      rw [Nat.add_assoc] at hbodies
      have hih := ih hrest hbodies.2 hwf.2 hreach.2 htypes.2
      rw [show i + 1 + front.length = i + (s :: front).length by
        rw [List.length_cons]; omega] at hih
      refine ⟨?_, hih.2⟩
      rw [List.cons_append, List.length_cons, layoutFrom, hid, SectionKind.ofId?_id]
      simp only [hsection, hlen, hadvance]
      rw [hih.1, placed, List.cons_append, List.flatMap_cons, List.length_append, Nat.add_assoc]

end ClojitCvm
