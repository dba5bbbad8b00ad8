import ClojitCvm.Loader.RoundTrip
import ClojitCvm.Loader.Tables
import ClojitCvm.Machine.ObjectLaws

/-!
# Sizes of types

A row of the type section declares a number of fields and a type.  The loader turns the
number into a size in bytes, the allocator checks the size and stores it with the low half
of the type's number, and the printer computes the number of fields from it again.  Between
the two the record is read as an element of an array, which the records are not: behind the
first record lies some memory.

Main results:

- Definition {lit}`FileRow.Arrives`: the object that an instruction allocates has the
  fields and the type that a row declares.
- Theorem {lit}`typeRow_intact_iff`: for which rows it does.
-/

namespace ClojitCvm

open ByteMemory ChainedHash FrameStack Slot

/-! ## Rows -/

/-- The address of row {lit}`j` of the type section at an offset. -/
def typeRowAt (mem : Memory) (buf offset j : Nat) : Nat :=
  (sectionAt mem buf .types offset).data + 8 * j

/-- The number of fields that a row declares. -/
def declaredFields (mem : Memory) (row : Nat) : Nat :=
  ntohlAt mem row

/-- The number of the type that a row declares. -/
def declaredId (mem : Memory) (row : Nat) : Nat :=
  ntohlAt mem (row + 4)

/-- The loader refuses the type section at an offset. -/
def RefusesTypes (debugLevel : Int) (mem : Memory) (buf len offset : Nat) (sec : Sections) :
    Prop :=
  parseSection debugLevel mem buf SectionKind.types.id len offset sec = none

/-- The loader stores the record of row {lit}`j`. -/
def StoresTypeRow (debugLevel : Int) (mem : Memory) (buf len offset j : Nat) (sec : Sections) :
    Prop :=
  ∃ offset' sec',
    parseSection debugLevel mem buf SectionKind.types.id len offset sec = some (offset', sec') ∧
      (itemsOf sec'.types)[j]? = some (typeRecordAt mem (typeRowAt mem buf offset j))

section Rows

variable {mem : Memory} {buf offset j : Nat}

/-- Every row is stored, whatever it declares. -/
theorem storesTypeRow_of_lt (debugLevel : Int) (len : Nat) (sec : Sections)
    (hj : j < (sectionAt mem buf .types offset).cnt) :
    StoresTypeRow debugLevel mem buf len offset j sec := by
  refine ⟨_, _, by rw [parseSection_eq, SectionKind.ofId?_id]; rfl, ?_⟩
  have hitems : itemsOf (SectionAt.load debugLevel mem sec
      (sectionAt mem buf .types offset)).types = SectionAt.typeRecords mem _ := addAll_items ..
  rw [hitems, SectionAt.typeRecords, List.getElem?_map, List.getElem?_range hj]
  rfl

theorem not_refusesTypes (debugLevel : Int) (len : Nat) (sec : Sections) :
    ¬ RefusesTypes debugLevel mem buf len offset sec := by
  intro hrefuses
  rw [RefusesTypes, parseSection_eq, SectionKind.ofId?_id] at hrefuses
  cases hrefuses

/-- The numbers of a row are words. -/
theorem declaredFields_lt (mem : Memory) (row : Nat) : declaredFields mem row < 2 ^ 32 :=
  loadBE_lt mem row 4

theorem declaredId_lt (mem : Memory) (row : Nat) : declaredId mem row < 2 ^ 32 :=
  loadBE_lt mem (row + 4) 4

/-- The size of the record is that of an object with the declared fields unless it wraps. -/
theorem typeSize_typeRecordAt_iff (mem : Memory) (row : Nat) :
    (typeRecordAt mem row).typeSize.toNat = 8 * (declaredFields mem row + 1) ↔
      8 * declaredFields mem row + 8 < 2 ^ 32 := by
  have hsize := typeSize_toNat_eq_iff (.ofNat 32 (declaredFields mem row))
  rwa [BitVec.toNat_ofNat, Nat.mod_eq_of_lt (declaredFields_lt mem row)] at hsize

/-- The type number of the record is the declared one. -/
theorem typeId_typeRecordAt (mem : Memory) (row : Nat) :
    (typeRecordAt mem row).typeId.toNat = declaredId mem row := by
  have hlt := declaredId_lt mem row
  simp only [typeRecordAt, BitVec.toNat_ofNat]
  exact Nat.mod_eq_of_lt hlt

end Rows

/-! ## Objects -/

/-- The object has the number of fields and the type, for the collector, which reads its
size, and for the printer, which counts its fields. -/
structure IntactObject (mem : Memory) (obj n id : Nat) : Prop where
  size_eq : objSize mem obj = 8 * (n + 1)
  fields_eq : fieldTurns (objSize mem obj) = n
  cljtype_eq : objCljtype mem obj = id

/-- The instruction {lit}`ALLOC a d` reads a record that passes the assertion of the
allocator, and makes an object with the number of fields and the type. -/
def AllocatesIntact (host : Host) (sec : Sections) (vm : VM) (d : BitVec 16) (n id : Nat) :
    Prop :=
  ∃ record, typesAt host sec d.toNat = some record ∧ headerSize < record.typeSize.toNat ∧
    ∃ vm' obj, step host sec vm = .ok vm' ∧ vm'.blocks = ⟨obj, 8 * (n + 1)⟩ :: vm.blocks ∧
      IntactObject vm'.heap obj n id

/-- The printer counts the fields of every size that fits the header. -/
theorem fieldTurns_size {n : Nat} (h : 8 * n + 8 < 2 ^ 32) : fieldTurns (8 * (n + 1)) = n := by
  unfold fieldTurns
  omega

section Objects

variable {host : Host} {sec : Sections} {vm vm' : VM} {inst : Decoded} {n id : Nat}

/-- An allocation that returns read its slot. -/
theorem VM.alloc_slot (h : vm.WellFormed host) (hinst : current? host sec vm = some inst)
    (hop : inst.op = some .alloc) (hok : step host sec vm = .ok vm') :
    ∃ word, vm.words[vm.base + inst.a]? = some word := by
  have ha : inst.a < 256 := (VM.current?_lt hinst).1
  rw [VM.step_eq_execute hinst, hop, execute, execAlloc] at hok
  cases hrecord : typesAt host sec inst.d.toNat with
  | none =>
      rw [hrecord] at hok
      cases hok
  | some record =>
      rw [hrecord] at hok
      rcases bind_eq_ok.mp hok with ⟨⟨mid, word⟩, hget, _⟩
      exact ⟨word, (VM.get_acts h.toWellFramed (by omega) hget).1⟩

/-- Which instructions make an intact object: the record that is read has the size and the
type, the pool grants the object and the slot is in use. -/
theorem VM.WellFormed.allocatesIntact_iff (h : vm.WellFormed host)
    (hinst : current? host sec vm = some inst) (hop : inst.op = some .alloc) :
    AllocatesIntact host sec vm inst.d n id ↔
      ∃ record obj word, typesAt host sec inst.d.toNat = some record ∧ 1 ≤ n ∧
        record.typeSize.toNat = 8 * (n + 1) ∧ (record.typeId.setWidth 16).toNat = id ∧
        (host.reserve vm.reserves vm.blocks record.typeSize).object? = some obj ∧
        vm.words[vm.base + inst.a]? = some word := by
  constructor
  · rintro ⟨record, hrecord, hsize, vm', obj, hok, hblocks, hintact⟩
    rcases VM.alloc_slot h hinst hop hok with ⟨word, hword⟩
    rcases VM.alloc_step h hinst hop hok with ⟨record', hrecord', _, hallocates⟩
    cases hrecord.symm.trans hrecord'
    have hnew := hallocates.blocks
    rw [hblocks] at hnew
    cases hobj : (host.reserve vm.reserves vm.blocks record.typeSize).object? with
    | none =>
        rw [hobj] at hnew
        exact absurd (congrArg List.length hnew) (by simp)
    | some obj' =>
        rw [hobj] at hnew
        simp only [Option.toList_some, List.map_cons, List.map_nil, List.singleton_append,
          List.cons.injEq, Block.mk.injEq, and_true] at hnew
        rcases hnew with ⟨rfl, hblock⟩
        rcases allocLoop_eq_initObj hobj with ⟨before, hlayout⟩
        have hcljtype := hintact.cljtype_eq
        rw [hallocates.heap, hlayout, (initObj_header ..).2.1] at hcljtype
        unfold headerSize at hsize
        exact ⟨record, obj, word, hrecord, by omega, hblock.symm, hcljtype, hobj, hword⟩
  · rintro ⟨record, obj, word, hrecord, hn, hsize, hid, hobj, hword⟩
    have hlarge : headerSize < record.typeSize.toNat := by
      unfold headerSize
      omega
    rcases VM.alloc_returns h hinst hop hrecord hlarge hword with ⟨vm', hok⟩
    rcases VM.alloc_step h hinst hop hok with ⟨record', hrecord', _, hallocates⟩
    cases hrecord.symm.trans hrecord'
    rcases allocLoop_eq_initObj hobj with ⟨before, hlayout⟩
    have hheap := hallocates.heap.trans hlayout
    have hobject : objSize vm'.heap obj = 8 * (n + 1) := by
      rw [hheap, (initObj_header ..).2.2, hsize]
    refine ⟨record, hrecord, hlarge, vm', obj, hok, ?_, hobject, ?_, ?_⟩
    · rw [hallocates.blocks, hobj, hsize]
      rfl
    · have hlt := record.typeSize.isLt
      rw [hobject, fieldTurns_size (by omega)]
    · rw [hheap, (initObj_header ..).2.1, hid]

end Objects

/-! ## From the row to the object -/

/-- A row of a type section that the loader finds in a file: the offset of the section and
the number of the row. -/
structure FileRow (mem : Memory) (buf : Nat) where
  offset : Nat
  found : sectionAt mem buf .types offset ∈ layout mem buf
  j : Nat
  lt : j < (sectionAt mem buf .types offset).cnt

namespace FileRow

variable {host : Host}

/-- The address of the row. -/
def addr {mem : Memory} {buf : Nat} (row : FileRow mem buf) : Nat :=
  typeRowAt mem buf row.offset row.j

/-- The number of fields that the row declares. -/
def fields {mem : Memory} {buf : Nat} (row : FileRow mem buf) : Nat :=
  declaredFields mem row.addr

/-- The number of the type that the row declares. -/
def id {mem : Memory} {buf : Nat} (row : FileRow mem buf) : Nat :=
  declaredId mem row.addr

/-- The loader refuses the section of the row, or it stores the record of the row and the
instruction that is executed next makes an object with the declared fields and type. -/
def Arrives (row : FileRow host.file host.fileBase) (debugLevel : Int) (len : Nat)
    (before : Sections) (vm : VM) (d : BitVec 16) : Prop :=
  RefusesTypes debugLevel host.file host.fileBase len row.offset before ∨
    StoresTypeRow debugLevel host.file host.fileBase len row.offset row.j before ∧
      AllocatesIntact host (loadfile host) vm d row.fields row.id

/-- The row is the first one of the last type section. -/
def IsFirst (row : FileRow host.file host.fileBase) : Prop :=
  tableSection .types (layout host.file host.fileBase) =
      some (sectionAt host.file host.fileBase .types row.offset) ∧ row.j = 0

/-- A row arrives exactly when its object does: no section of types is refused, and every
row is stored. -/
theorem arrives_iff (row : FileRow host.file host.fileBase) (debugLevel : Int) (len : Nat)
    (before : Sections) (vm : VM) (d : BitVec 16) :
    row.Arrives debugLevel len before vm d ↔
      AllocatesIntact host (loadfile host) vm d row.fields row.id := by
  rw [Arrives, or_iff_right (not_refusesTypes debugLevel len before),
    and_iff_right (storesTypeRow_of_lt debugLevel len before row.lt)]

/-- The element with index zero is the record of the first row. -/
theorem IsFirst.typesAt_zero {row : FileRow host.file host.fileBase} (h : row.IsFirst) :
    typesAt host (loadfile host) 0 = some (typeRecordAt host.file row.addr) := by
  rcases h with ⟨hlast, hj⟩
  have hlt := row.lt
  rw [hj] at hlt
  have hrows : (typeRows host.file host.fileBase)[0]? =
      some (typeRecordAt host.file row.addr) := by
    rw [typeRows, hlast, Option.map_some, Option.getD_some, SectionAt.typeRecords,
      List.getElem?_map, List.getElem?_range hlt, addr, hj]
    rfl
  have htypes : itemsOf (loadfile host).types = typeRows host.file host.fileBase := by
    rw [loadfile, parse_types]
    exact addAll_items ..
  rw [← htypes] at hrows
  cases htable : (loadfile host).types with
  | none =>
      rw [htable] at hrows
      cases hrows
  | some table =>
      rw [htable] at hrows
      simp only [typesAt, htable, if_true]
      rw [← hrows, ← List.head?_eq_getElem?]
      rfl

/-- The size of the record, computed with 32 bits. -/
theorem typeSize_eq (row : FileRow host.file host.fileBase) :
    (typeRecordAt host.file row.addr).typeSize = .ofNat 32 (8 * row.fields + 8) := by
  apply BitVec.eq_of_toNat_eq
  have hlt := declaredFields_lt host.file row.addr
  simp only [typeRecordAt, fields, declaredFields, BitVec.toNat_add, BitVec.toNat_mul,
    BitVec.toNat_ofNat] at hlt ⊢
  omega

end FileRow

/-- In every reachable state of every file, a row of a type section and an instruction
{lit}`ALLOC a d`: the loader refuses the row or stores it and the instruction makes an object
with the declared fields and type, exactly when the record that is read at index {lit}`d` has
the size of that many fields, at least one, and the type in its low half, the pool grants the
object and slot {lit}`a` is in use.  For index zero and the first row the record is that of
the row, and what remains is that there is a field, the size fits 32 bits and the type
fits 16. -/
theorem typeRow_intact_iff {host : Host} {vm : VM} (hreach : Reachable host (loadfile host) vm)
    {inst : Decoded} (hinst : current? host (loadfile host) vm = some inst)
    (hop : inst.op = some .alloc) (row : FileRow host.file host.fileBase) (debugLevel : Int)
    (len : Nat) (before : Sections) :
    (row.Arrives debugLevel len before vm inst.d ↔
      ∃ record obj word, typesAt host (loadfile host) inst.d.toNat = some record ∧
        1 ≤ row.fields ∧ record.typeSize.toNat = 8 * (row.fields + 1) ∧
        (record.typeId.setWidth 16).toNat = row.id ∧
        (host.reserve vm.reserves vm.blocks record.typeSize).object? = some obj ∧
        vm.words[vm.base + inst.a]? = some word) ∧
    (row.IsFirst → inst.d = 0 →
      (row.Arrives debugLevel len before vm inst.d ↔
        (1 ≤ row.fields ∧ 8 * row.fields + 8 < 2 ^ 32 ∧ row.id < 2 ^ 16) ∧
          ∃ obj word,
            (host.reserve vm.reserves vm.blocks (.ofNat 32 (8 * row.fields + 8))).object? =
              some obj ∧
            vm.words[vm.base + inst.a]? = some word)) := by
  rw [row.arrives_iff, hreach.wellFormed.allocatesIntact_iff hinst hop]
  refine ⟨Iff.rfl, ?_⟩
  intro hfirst hd
  have hsize := typeSize_typeRecordAt_iff host.file row.addr
  have hid := typeId_typeRecordAt host.file row.addr
  have hlt := declaredId_lt host.file row.addr
  have hlow : ((typeRecordAt host.file row.addr).typeId.setWidth 16).toNat = row.id ↔
      row.id < 2 ^ 16 := by
    rw [BitVec.toNat_setWidth, hid]
    change declaredId host.file row.addr % 2 ^ 16 = declaredId host.file row.addr ↔
      declaredId host.file row.addr < 2 ^ 16
    omega
  rw [hd, ← row.typeSize_eq]
  constructor
  · rintro ⟨record, obj, word, hrecord, hn, hlength, hcljtype, hobj, hword⟩
    cases hfirst.typesAt_zero.symm.trans hrecord
    exact ⟨⟨hn, hsize.mp hlength, hlow.mp hcljtype⟩, obj, word, hobj, hword⟩
  · rintro ⟨⟨hn, hfits, hcljtype⟩, obj, word, hobj, hword⟩
    exact ⟨_, obj, word, hfirst.typesAt_zero, hn, hsize.mpr hfits, hlow.mpr hcljtype, hobj,
      hword⟩

/-- A program with two types that allocates an object. -/
def typeProgram (first second : TypeRow) (d : BitVec 16) : CvmbFile where
  sections := [.instructions [.ad Opcode.cnil.number 0 0, .ad Opcode.alloc.number 0 d],
    .cint [], .types [first, second]]
  nodup := by
    simp only [List.map_cons, List.map_nil, Section.kind]
    decide
  wellFormed := by
    rw [List.forall_mem_cons, List.forall_mem_cons, List.forall_mem_singleton]
    refine ⟨⟨?_, ?_, nofun⟩, by decide, ?_, ?_, nofun⟩
    · change 2 < 2 ^ 32
      decide
    · change 8 < 2 ^ 32
      decide
    · change 2 < 2 ^ 32
      decide
    · change 16 < 2 ^ 32
      decide

def typeHost (first second : TypeRow) (d : BitVec 16) : Host :=
  bumpHost (typeProgram first second d) (by
    have hlength : (typeProgram first second d).encode.length = 64 := rfl
    omega)

/-- The state in front of the allocation. -/
def typeState (first second : TypeRow) (d : BitVec 16) : VM :=
  stateAfter (typeHost first second d) (loadfile (typeHost first second d)) 1

/-- A type with two fields and the number seven arrives. -/
theorem twoFields_arrive :
    ∃ row : FileRow (typeHost ⟨2, 7⟩ ⟨1, 8⟩ 0).file (typeHost ⟨2, 7⟩ ⟨1, 8⟩ 0).fileBase,
      row.fields = 2 ∧ row.id = 7 ∧
        row.Arrives 0 16 .zero (typeState ⟨2, 7⟩ ⟨1, 8⟩ 0) 0 := by
  have hreach : Reachable (typeHost ⟨2, 7⟩ ⟨1, 8⟩ 0) (loadfile (typeHost ⟨2, 7⟩ ⟨1, 8⟩ 0))
      (typeState ⟨2, 7⟩ ⟨1, 8⟩ 0) := reachable_stateAfter (by decide)
  have hinst : current? (typeHost ⟨2, 7⟩ ⟨1, 8⟩ 0) (loadfile (typeHost ⟨2, 7⟩ ⟨1, 8⟩ 0))
      (typeState ⟨2, 7⟩ ⟨1, 8⟩ 0) = some ⟨some .alloc, 0, 0, 0, 0⟩ := by decide
  refine ⟨⟨44, by decide, 0, by decide⟩, by decide, by decide, ?_⟩
  refine ((typeRow_intact_iff hreach hinst rfl _ 0 16 .zero).2 ⟨by decide, rfl⟩ rfl).mpr ?_
  exact ⟨by decide, poolBase, 0#64, by decide, by decide⟩

/-- A row whose object is made from another record does not arrive. -/
theorem not_arrives_of_record {host : Host} {vm : VM} {inst : Decoded} {record : Option TypeRecord}
    (hreach : Reachable host (loadfile host) vm)
    (hinst : current? host (loadfile host) vm = some inst) (hop : inst.op = some .alloc)
    (hrecord : typesAt host (loadfile host) inst.d.toNat = record)
    (row : FileRow host.file host.fileBase)
    (hchanged : ∀ found ∈ record, ¬ (1 ≤ row.fields ∧
      found.typeSize.toNat = 8 * (row.fields + 1) ∧ (found.typeId.setWidth 16).toNat = row.id))
    (debugLevel : Int) (len : Nat) (before : Sections) :
    ¬ row.Arrives debugLevel len before vm inst.d := by
  rw [row.arrives_iff, hreach.wellFormed.allocatesIntact_iff hinst hop]
  rintro ⟨found, _, _, hfound, hn, hsize, hid, _⟩
  exact hchanged found (hrecord.symm.trans hfound) ⟨hn, hsize, hid⟩

/-- The first row of a program is stored, and does not arrive. -/
def FirstRowLost (first : TypeRow) : Prop :=
  ∃ row : FileRow (typeHost first ⟨1, 8⟩ 0).file (typeHost first ⟨1, 8⟩ 0).fileBase,
    row.fields = first.size.toNat ∧ row.id = first.id.toNat ∧
      ¬ row.Arrives 0 16 .zero (typeState first ⟨1, 8⟩ 0) 0

theorem firstRowLost_of_record {first : TypeRow} {record : TypeRecord}
    (hlive : survives (typeHost first ⟨1, 8⟩ 0) (loadfile (typeHost first ⟨1, 8⟩ 0)) 1 = true)
    (hinst : current? (typeHost first ⟨1, 8⟩ 0) (loadfile (typeHost first ⟨1, 8⟩ 0))
      (typeState first ⟨1, 8⟩ 0) = some ⟨some .alloc, 0, 0, 0, 0⟩)
    (hrecord : typesAt (typeHost first ⟨1, 8⟩ 0) (loadfile (typeHost first ⟨1, 8⟩ 0)) 0 =
      some record)
    (row : FileRow (typeHost first ⟨1, 8⟩ 0).file (typeHost first ⟨1, 8⟩ 0).fileBase)
    (hfields : row.fields = first.size.toNat) (hid : row.id = first.id.toNat)
    (hchanged : ¬ (1 ≤ first.size.toNat ∧ record.typeSize.toNat = 8 * (first.size.toNat + 1) ∧
      (record.typeId.setWidth 16).toNat = first.id.toNat)) : FirstRowLost first := by
  refine ⟨row, hfields, hid, not_arrives_of_record (reachable_stateAfter hlive) hinst rfl hrecord
    row ?_ 0 16 .zero⟩
  intro found hfound
  cases hfound
  rwa [hfields, hid]

/-- A type without fields fails the assertion, the size of 2 ^ 29 + 1 fields wraps to that of
one, and the number 65543 is cut to seven.  And the second of two ordinary types is read
behind the first. -/
theorem rows_do_not_arrive :
    FirstRowLost ⟨0, 7⟩ ∧ FirstRowLost ⟨0x20000001, 7⟩ ∧ FirstRowLost ⟨2, 0x10007⟩ ∧
      ∃ row : FileRow (typeHost ⟨1, 0⟩ ⟨2, 1⟩ 1).file (typeHost ⟨1, 0⟩ ⟨2, 1⟩ 1).fileBase,
        row.fields = 2 ∧ row.id = 1 ∧
          ¬ row.Arrives 0 16 .zero (typeState ⟨1, 0⟩ ⟨2, 1⟩ 1) 1 := by
  refine ⟨?_, ?_, ?_, ?_⟩
  · exact @firstRowLost_of_record ⟨0, 7⟩ ⟨7, 8⟩ (by decide) (by decide) (by decide)
      ⟨44, by decide, 0, by decide⟩ (by decide) (by decide) (by decide)
  · exact @firstRowLost_of_record ⟨0x20000001, 7⟩ ⟨7, 16⟩ (by decide) (by decide) (by decide)
      ⟨44, by decide, 0, by decide⟩ (by decide) (by decide) (by decide)
  · exact @firstRowLost_of_record ⟨2, 0x10007⟩ ⟨0x10007, 24⟩ (by decide) (by decide) (by decide)
      ⟨44, by decide, 0, by decide⟩ (by decide) (by decide) (by decide)
  · have hinst : current? (typeHost ⟨1, 0⟩ ⟨2, 1⟩ 1) (loadfile (typeHost ⟨1, 0⟩ ⟨2, 1⟩ 1))
        (typeState ⟨1, 0⟩ ⟨2, 1⟩ 1) = some ⟨some .alloc, 0, 0, 1, 1⟩ := by decide
    refine ⟨⟨44, by decide, 1, by decide⟩, by decide, by decide, ?_⟩
    exact not_arrives_of_record (reachable_stateAfter (by decide)) hinst rfl
      (show typesAt _ _ 1 = none by decide) _ nofun 0 16 .zero

end ClojitCvm
