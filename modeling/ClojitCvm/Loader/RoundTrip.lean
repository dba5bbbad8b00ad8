import ClojitCvm.Loader.Dispatch
import ClojitCvm.Loader.Format

/-!
# Loading an encoded section

What it means that the loaded sections hold the contents of a section, and which
sections are loaded back from where they are.  A type with too many fields has a size
that does not fit its word; everything else comes back.

Main results:

- Definition {lit}`Loaded`: the tables hold the elements of a section and their number.
- Theorem {lit}`areStrings_stringPointers`: the pointers of a string table address its
  strings.
- Theorem {lit}`loaded_load_iff`: a section at the place where the loader looks is loaded
  back exactly when the sizes of its types fit.
-/

namespace ClojitCvm

open ByteMemory ChainedHash

/-! ## Sections held in memory -/

/-- The instruction word decodes to the instruction. -/
def Decodes (inst : BitVec 32) : Instruction → Prop
  | .abc op a b c => OpABC.ofInstr inst = ⟨op, a, b, c⟩
  | .ad op a d =>
      (OpAD.ofInstr inst).op = op ∧ (OpAD.ofInstr inst).a = a ∧ ntohs (OpAD.ofInstr inst).d = d

/-- The pointer addresses the C string with these characters. -/
def IsString (mem : Memory) (p : Nat) (string : List Byte) : Prop :=
  0#8 ∉ string ∧ HasBytes mem p (string ++ [0#8])

/-- The pointers address the strings. -/
def AreStrings (mem : Memory) (pointers : List Nat) (strings : List (List Byte)) : Prop :=
  pointers.length = strings.length ∧
    ∀ (k : Nat) (string : List Byte), strings[k]? = some string →
      ∃ p, pointers[k]? = some p ∧ IsString mem p string

/-- The loaded sections hold the section's elements and their number. -/
def Loaded (mem : Memory) (sec : Sections) : Section → Prop
  | .instructions code =>
      sec.instrCnt = code.length ∧
        ∀ (k : Nat) (inst : Instruction), code[k]? = some inst →
          Decodes (loadWord mem (sec.instr + 4 * k) 4) inst
  | .cint values =>
      sec.cintCnt = values.length ∧
        ∀ (k : Nat) (v : BitVec 64), values[k]? = some v →
          swapInt64 (loadWord mem (sec.cint + 8 * k) 8) = v
  | .cfloat values =>
      sec.cfloatCnt = values.length ∧
        ∀ (k : Nat) (v : BitVec 64), values[k]? = some v →
          swap (loadWord mem (sec.cfloat + 8 * k) 8) = v
  | .cstr strings => sec.cstrCnt = strings.length ∧ AreStrings mem sec.cstr strings
  | .ckey strings => sec.ckeyCnt = strings.length ∧ AreStrings mem sec.ckey strings
  | .vtables rows =>
      sec.vtableCnt = rows.length ∧
        itemsOf sec.vtable =
          rows.map fun row => ⟨lookUpPair row.protocol row.type, row.jumpOffset⟩
  | .types rows =>
      sec.typesCnt = rows.length ∧
        (itemsOf sec.types).map (fun record => (record.typeId, record.typeSize.toNat)) =
          rows.map fun row => (row.id, 8 * row.size.toNat + 8)

/-- What is loaded of a section depends on its own table alone. -/
theorem Loaded.congr {mem : Memory} {sec sec' : Sections} {s : Section}
    (h : SameTable s.kind sec sec') : Loaded mem sec s ↔ Loaded mem sec' s := by
  cases s <;> (simp only [Section.kind, SameTable] at h; simp only [Loaded, h.1, h.2])

/-! ## Elements are read back -/

/-- An instruction is read back from its bytes, through both overlays. -/
theorem decodes_load {mem : Memory} {a : Nat} {inst : Instruction}
    (h : HasBytes mem a inst.bytes) : Decodes (loadWord mem a 4) inst := by
  cases inst with
  | abc op a' b c =>
      simp only [Instruction.bytes, hasBytes_cons] at h
      simp only [Decodes, OpABC.ofInstr_load, h, Nat.add_assoc] at h ⊢
  | ad op a' d =>
      simp only [Instruction.bytes, hasBytes_cons] at h
      rcases h with ⟨hop, ha, hd⟩
      rcases OpAD.ofInstr_load mem a with ⟨hop', ha', hd'⟩
      refine ⟨hop'.trans hop, ha'.trans ha, ?_⟩
      rw [hd', loadBE_beBytes hd d.isLt, BitVec.ofNat_toNat, BitVec.setWidth_eq]

/-- An integer is read back from its bytes. -/
theorem swapInt64_of_bytes {mem : Memory} {a : Nat} {v : BitVec 64}
    (h : HasBytes mem a (beBytes 8 v.toNat)) : swapInt64 (loadWord mem a 8) = v := by
  rw [swapInt64_load, loadBE_beBytes h v.isLt, BitVec.ofNat_toNat, BitVec.setWidth_eq]

/-- A double is read back from its bytes. -/
theorem swap_of_bytes {mem : Memory} {a : Nat} {v : BitVec 64}
    (h : HasBytes mem a (beBytes 8 v.toNat)) : swap (loadWord mem a 8) = v := by
  rw [swap_load, loadBE_beBytes h v.isLt, BitVec.ofNat_toNat, BitVec.setWidth_eq]

/-- The record of a row of the virtual table, from its bytes. -/
theorem vtableRecordAt_of_bytes {mem : Memory} {a : Nat} {row : VtableRow}
    (h : HasBytes mem a row.bytes) :
    vtableRecordAt mem a = ⟨lookUpPair row.protocol row.type, row.jumpOffset⟩ := by
  simp only [VtableRow.bytes, hasBytes_append, length_beBytes] at h
  rcases h with ⟨hoffset, hprotocol, htype⟩
  simp only [vtableRecordAt, ntohlAt_beBytes hoffset row.jumpOffset.isLt,
    ntohlAt_beBytes hprotocol row.protocol.isLt, BitVec.ofNat_toNat, BitVec.setWidth_eq,
    ntohlAt_beBytes htype row.type.isLt]
  rfl

/-- The record of a type row, from its bytes, with the size in 32 bits. -/
theorem typeRecordAt_of_bytes {mem : Memory} {a : Nat} {row : TypeRow}
    (h : HasBytes mem a row.bytes) :
    typeRecordAt mem a = ⟨row.id, row.size * 8#32 + 8#32⟩ := by
  simp only [TypeRow.bytes, hasBytes_append, length_beBytes] at h
  simp only [typeRecordAt, ntohlAt_beBytes h.1 row.size.isLt, ntohlAt_beBytes h.2 row.id.isLt,
    BitVec.ofNat_toNat, BitVec.setWidth_eq]

/-- Reading rows of one length gives the rows. -/
theorem map_range_eq_map {α β : Type} {mem : Memory} {a n : Nat} {enc : α → List Byte}
    {f : Nat → β} {g : α → β} {rows : List α}
    (h : rows ≠ [] → HasBytes mem a (rows.flatMap enc))
    (henc : ∀ row, (enc row).length = n)
    (hread : ∀ k row, HasBytes mem (a + n * k) (enc row) → f (a + n * k) = g row) :
    (List.range rows.length).map (fun k => f (a + n * k)) = rows.map g := by
  apply List.ext_getElem?
  intro k
  rw [List.getElem?_map, List.getElem?_map]
  cases hrow : rows[k]? with
  | none =>
      rw [List.getElem?_eq_none (by simpa using hrow)]
      rfl
  | some row =>
      have hk : k < rows.length := (List.getElem?_eq_some_iff.mp hrow).1
      rw [List.getElem?_range hk]
      have hbytes := h (List.ne_nil_of_mem (List.mem_of_getElem? hrow))
      exact congrArg some (hread k row (hasBytes_flatMap hbytes henc hrow))

/-! ## Strings are read back -/

/-- The first character of a string stands behind those of the strings before it. -/
theorem charskip_stringTable {mem : Memory} {a k : Nat} {strings : List (List Byte)}
    (h : HasBytes mem a (stringTable strings)) (hlt : (stringTable strings).length < 2 ^ 32)
    (hk : k < strings.length) :
    charskip mem a k = (characters (strings.take k)).length := by
  unfold charskip
  split
  · next hne =>
    rw [ntohlAt_index h hlt (show k - 1 < strings.length by omega),
      show k - 1 + 1 = k by omega]
  · next hzero =>
    rw [show k = 0 by omega]
    rfl

/-- Each string is found behind the characters of the strings before it. -/
theorem hasBytes_characters {mem : Memory} {a k : Nat} {strings : List (List Byte)}
    {string : List Byte} (h : HasBytes mem a (characters strings))
    (hk : strings[k]? = some string) :
    HasBytes mem (a + (characters (strings.take k)).length) (string ++ [0#8]) := by
  induction strings generalizing a k with
  | nil => simp at hk
  | cons s strings ih =>
      rw [characters, List.flatMap_cons, hasBytes_append] at h
      cases k with
      | zero =>
          rw [List.getElem?_cons_zero, Option.some_inj] at hk
          subst hk
          exact h.1
      | succ k =>
          have hrest := ih h.2 (by simpa using hk)
          rw [List.take_succ_cons, characters, List.flatMap_cons, List.length_append,
            ← Nat.add_assoc]
          exact hrest

/-- The pointers of a string table are those of the strings, one behind the other. -/
theorem areStrings_stringPointers {mem : Memory} {a : Nat} {strings : List (List Byte)}
    (h : strings.length ≠ 0 → HasBytes mem a (stringTable strings))
    (hlt : (stringTable strings).length < 2 ^ 32) (hnul : ∀ string ∈ strings, 0#8 ∉ string) :
    AreStrings mem (stringPointers mem a strings.length) strings := by
  refine ⟨by simp [stringPointers], ?_⟩
  intro k string hk
  have hbound : k < strings.length := (List.getElem?_eq_some_iff.mp hk).1
  have hbytes := h (by omega)
  have hskip := charskip_stringTable hbytes hlt hbound
  refine ⟨_, by rw [stringPointers, List.getElem?_map, List.getElem?_range hbound]; rfl,
    hnul string (List.mem_of_getElem? hk), ?_⟩
  change HasBytes mem (a + 4 * (strings.length + 1) + charskip mem a k) (string ++ [0#8])
  rw [hskip]
  apply hasBytes_characters _ hk
  rw [stringTable, hasBytes_append, hasBytes_append, length_beBytes, length_flatMap_beBytes,
    length_endOffsets] at hbytes
  rw [show a + 4 * (strings.length + 1) = a + 4 * strings.length + 4 by omega]
  exact hbytes.2.2

/-! ## A section is loaded back -/

/-- A list with an element is not empty. -/
theorem length_ne_zero {α : Type} {xs : List α} {k : Nat} {x : α} (h : xs[k]? = some x) :
    xs.length ≠ 0 := by
  have := (List.getElem?_eq_some_iff.mp h).1
  omega

/-- All sizes of a section of types fit their words. -/
def Section.SizesFit : Section → Prop
  | .types rows => ∀ row ∈ rows, 8 * row.size.toNat + 8 < 2 ^ 32
  | _ => True

/-- The size of an object does not wrap exactly when it fits 32 bits. -/
theorem typeSize_toNat_eq_iff (size : BitVec 32) :
    (size * 8#32 + 8#32).toNat = 8 * size.toNat + 8 ↔ 8 * size.toNat + 8 < 2 ^ 32 := by
  simp only [BitVec.toNat_add, BitVec.toNat_mul, BitVec.toNat_ofNat]
  omega

/-- A section whose data is where the loader looks is loaded back exactly when its
sizes fit. -/
theorem loaded_load_iff {mem : Memory} {s : Section} {a : Nat} (sec : Sections)
    (h : s.count ≠ 0 → HasBytes mem a s.data) (hs : s.WellFormed) :
    Loaded mem (SectionAt.load 0 mem sec ⟨s.kind, s.count, a⟩) s ↔ s.SizesFit := by
  have hlt := hs.length_lt
  have hnul := hs.noNul
  cases s with
  | instructions code =>
      refine iff_of_true ⟨rfl, ?_⟩ trivial
      intro k inst hk
      have hdata : HasBytes mem a (code.flatMap Instruction.bytes) := h (length_ne_zero hk)
      exact decodes_load (hasBytes_flatMap hdata (by rintro (_ | _) <;> rfl) hk)
  | cint values =>
      refine iff_of_true ⟨rfl, ?_⟩ trivial
      intro k v hk
      have hdata : HasBytes mem a (values.flatMap fun v => beBytes 8 v.toNat) :=
        h (length_ne_zero hk)
      have helement := hasBytes_flatMap hdata (fun _ => length_beBytes 8 _) hk
      exact swapInt64_of_bytes helement
  | cfloat values =>
      refine iff_of_true ⟨rfl, ?_⟩ trivial
      intro k v hk
      have hdata : HasBytes mem a (values.flatMap fun v => beBytes 8 v.toNat) :=
        h (length_ne_zero hk)
      have helement := hasBytes_flatMap hdata (fun _ => length_beBytes 8 _) hk
      exact swap_of_bytes helement
  | cstr strings =>
      exact iff_of_true ⟨rfl, areStrings_stringPointers h hlt hnul⟩ trivial
  | ckey strings =>
      exact iff_of_true ⟨rfl, areStrings_stringPointers h hlt hnul⟩ trivial
  | vtables rows =>
      refine iff_of_true ⟨rfl, ?_⟩ trivial
      simp only [SectionAt.load, Section.kind, addAll_items, SectionAt.vtableRecords,
        Section.count]
      exact map_range_eq_map (fun hne => h (by simpa [Section.count] using hne))
        (by simp [VtableRow.bytes]) fun _ _ => vtableRecordAt_of_bytes
  | types rows =>
      have hrecords : (List.range rows.length).map (fun j => typeRecordAt mem (a + 8 * j)) =
          rows.map fun row => ⟨row.id, row.size * 8#32 + 8#32⟩ :=
        map_range_eq_map (fun hne => h (by simpa [Section.count] using hne))
          (by simp [TypeRow.bytes]) fun _ _ => typeRecordAt_of_bytes
      simp only [Loaded, SectionAt.load, Section.kind, addAll_items, SectionAt.typeRecords,
        Section.count, Section.SizesFit, hrecords, List.map_map, List.map_inj_left,
        Function.comp_apply, Prod.mk.injEq, true_and, typeSize_toNat_eq_iff]

end ClojitCvm
