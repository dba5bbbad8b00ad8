import ClojitCvm.Lib.ChainedHash
import ClojitCvm.Loader.ByteOrder
import ClojitCvm.Slot.Encoding

/-!
# The loader

A program file is a list of section headers followed by the sections.  The function
{lit}`parse` walks the headers and leaves pointers into the file, arrays of string
pointers and two hash tables in {lit}`struct sections`.  Every kind of section
computes the place of the next one in its own way.

A pointer is an address, and an array of pointers is the list of its elements.
The numbers of the file are unsigned and an offset is a {lit}`size_t`.
-/

namespace ClojitCvm

open ByteMemory ChainedHash Slot

/-! ## Records and their tables -/

structure VtableRecord where
  lookUpPair : BitVec 64
  jumpOffset : BitVec 32
deriving DecidableEq, Repr

structure TypeRecord where
  typeId : BitVec 32
  typeSize : BitVec 32
deriving DecidableEq, Repr

/-- The mixing step {lit}`HASH_JEN_MIX`, on the three words {lit}`a`, {lit}`b` and
{lit}`c`. -/
def hashJenMix (a b c : BitVec 32) : BitVec 32 :=
  let a := (a - b - c) ^^^ (c >>> 13)
  let b := (b - c - a) ^^^ (a <<< 8)
  let c := (c - a - b) ^^^ (b >>> 13)
  let a := (a - b - c) ^^^ (c >>> 12)
  let b := (b - c - a) ^^^ (a <<< 16)
  let c := (c - a - b) ^^^ (b >>> 5)
  let a := (a - b - c) ^^^ (c >>> 3)
  let b := (b - c - a) ^^^ (a <<< 10)
  (c - a - b) ^^^ (b >>> 15)

/-- The hash {lit}`HASH_JEN` of a key of {lit}`sizeof(int)` bytes.  The switch on
the key length adds the four bytes at their places in the word. -/
def hashJen (key : BitVec 32) : BitVec 32 :=
  hashJenMix (0x9e3779b9#32 + key) 0x9e3779b9#32 (0xfeedbeef#32 + 4#32)

/-- {lit}`HASH_ADD_INT` hashes the first four bytes at the key's address, the low
half of a pair on a little-endian host. -/
def vtableHashing : Hashing VtableRecord (BitVec 32) where
  key v := v.lookUpPair.setWidth 32
  hash k := (hashJen k).toNat

def typeHashing : Hashing TypeRecord (BitVec 32) where
  key v := v.typeId
  hash k := (hashJen k).toNat

/-! ## Sections -/

/-- The result of loading, the C {lit}`struct sections`. -/
structure Sections where
  instr : Nat
  instrCnt : Nat
  cint : Nat
  cintCnt : Nat
  cfloat : Nat
  cfloatCnt : Nat
  cstr : List Nat
  cstrCnt : Nat
  ckey : List Nat
  ckeyCnt : Nat
  vtable : Option (Table VtableRecord)
  vtableCnt : Nat
  types : Option (Table TypeRecord)
  typesCnt : Nat

/-- The sections {lit}`start` begins with, all zero. -/
def Sections.zero : Sections where
  instr := 0
  instrCnt := 0
  cint := 0
  cintCnt := 0
  cfloat := 0
  cfloatCnt := 0
  cstr := []
  cstrCnt := 0
  ckey := []
  ckeyCnt := 0
  vtable := none
  vtableCnt := 0
  types := none
  typesCnt := 0

def addVtableRecord (sec : Sections) (v : VtableRecord) : Sections :=
  { sec with vtable := addHead vtableHashing sec.vtable v }

/-- Only the four bytes at the address of {lit}`lup` are looked up. -/
def getVtableRecord (sec : Sections) (lup : BitVec 64) : Option VtableRecord :=
  find vtableHashing sec.vtable (lup.setWidth 32)

def addTypeRecord (sec : Sections) (v : TypeRecord) : Sections :=
  { sec with types := addHead typeHashing sec.types v }

def getTypeRecord (sec : Sections) (id : BitVec 32) : Option TypeRecord :=
  find typeHashing sec.types id

/-- The section kinds, numbered from zero. -/
inductive SectionKind where
  | instructions | cint | cfloat | cstr | ckey | vtables | types
deriving DecidableEq, Repr

/-- The constant {lit}`SECTION_INSTRUCTIONS` and the ones behind it. -/
def SectionKind.id : SectionKind → Nat
  | instructions => 0
  | cint => 1
  | cfloat => 2
  | cstr => 3
  | ckey => 4
  | vtables => 5
  | types => 6

/-- The label of the switch a section id selects. -/
def SectionKind.ofId? : Nat → Option SectionKind
  | 0 => some instructions
  | 1 => some cint
  | 2 => some cfloat
  | 3 => some cstr
  | 4 => some ckey
  | 5 => some vtables
  | 6 => some types
  | _ => none

@[simp]
theorem SectionKind.ofId?_id (kind : SectionKind) : ofId? kind.id = some kind := by
  cases kind <;> rfl

theorem SectionKind.id_injective : Function.Injective SectionKind.id := by
  intro kind kind' h
  have hof := congrArg ofId? h
  simpa using hof

theorem SectionKind.id_lt (kind : SectionKind) : kind.id < 7 := by
  cases kind <;> decide

/-! ## Parsing one section -/

def headerOffset : Nat := 4

/-- The size of {lit}`struct parse_hdr`. -/
def parseHdrSize : Nat := 8

def einval : Nat := 22

/-- The case {lit}`SECTION_CINT`. -/
def parseCint (cnt sectionData len offset : Nat) (sec : Sections) : Nat × Sections :=
  (offset + len + 4, { sec with cintCnt := cnt, cint := sectionData })

/-- The place of the characters of string {lit}`j` behind the first character. -/
def charskip (mem : Memory) (startOfIndex j : Nat) : Nat :=
  if j ≠ 0 then ntohlAt mem (startOfIndex + 4 * (j - 1)) else 0

/-- The array of pointers to the strings of a section. -/
def stringPointers (mem : Memory) (startOfIndex cnt : Nat) : List Nat :=
  let startOfCharacterData := startOfIndex + 4 * (cnt + 1)
  (List.range cnt).map fun j => startOfCharacterData + charskip mem startOfIndex j

/-- The number of characters of all strings of a section. -/
def bytesOfStr (mem : Memory) (startOfIndex cnt : Nat) : Nat :=
  if cnt ≠ 0 then ntohlAt mem (startOfIndex + 4 * (cnt - 1)) else 0

/-- The record of the row {lit}`jump_offset`, {lit}`protocol`, {lit}`type` at an
address. -/
def vtableRecordAt (mem : Memory) (a : Nat) : VtableRecord :=
  let jumpOffset : BitVec 32 := .ofNat 32 (ntohlAt mem a)
  let protocolNr : BitVec 32 := .ofNat 32 (ntohlAt mem (a + 4))
  let typeNr : BitVec 32 := .ofNat 32 (ntohlAt mem (a + 8))
  { lookUpPair := (protocolNr.setWidth 64 <<< 32) ||| typeNr.setWidth 64
    jumpOffset := jumpOffset }

/-- The record of the row {lit}`size`, {lit}`id` at an address. -/
def typeRecordAt (mem : Memory) (a : Nat) : TypeRecord :=
  let tId : BitVec 32 := .ofNat 32 (ntohlAt mem (a + 4))
  let typeSize : BitVec 32 := .ofNat 32 (ntohlAt mem a)
  { typeId := tId
    typeSize := typeSize * 8#32 + 8#32 }

/-- The body of the loop over the sections: the next offset and the sections, or
{lean}`none` where the function returns {lit}`EINVAL`.  What is loaded at a positive level
only to be printed changes neither; {lit}`parseWithin` has these loads too. -/
def parseSection (debugLevel : Int) (mem : Memory) (buf secId len offset : Nat)
    (sec : Sections) : Option (Nat × Sections) :=
  let cnt := ntohlAt mem (buf + offset)
  let offsetAddOne := (offset + 4) % 2 ^ 32
  let sectionData := buf + offsetAddOne
  match SectionKind.ofId? secId with
  | some .instructions =>
      let sec := { sec with instrCnt := cnt, instr := sectionData }
      -- the braceless ifs guard the offset and the break, so level 0 falls through
      if debugLevel > 0 then some (offset + len + 4, sec)
      else some (parseCint cnt sectionData len offset sec)
  | some .cint => some (parseCint cnt sectionData len offset sec)
  | some .cfloat =>
      some (offset + len + 4, { sec with cfloatCnt := cnt, cfloat := sectionData })
  | some .cstr =>
      some (offset + bytesOfStr mem sectionData cnt + 4 + 4 + cnt * 4,
        { sec with cstrCnt := cnt, cstr := stringPointers mem sectionData cnt })
  | some .ckey =>
      some (offset + bytesOfStr mem sectionData cnt + 4 + 4 + cnt * 4,
        { sec with ckeyCnt := cnt, ckey := stringPointers mem sectionData cnt })
  | some .vtables =>
      let sec := { sec with vtable := none, vtableCnt := cnt }
      some (offset + len + 4, (List.range cnt).foldl
        (fun sec j => addVtableRecord sec (vtableRecordAt mem (sectionData + 12 * j))) sec)
  | some .types =>
      let sec := { sec with types := none, typesCnt := cnt }
      -- the offset stays where it is
      some (offset, (List.range cnt).foldl
        (fun sec j => addTypeRecord sec (typeRecordAt mem (sectionData + 8 * j))) sec)
  | none => none

/-! ## Parsing a file -/

/-- The address of {lit}`hdr[i]`. -/
def hdrAt (buf i : Nat) : Nat :=
  buf + headerOffset + parseHdrSize * i

def secIdAt (mem : Memory) (buf i : Nat) : Nat :=
  ntohlAt mem (hdrAt buf i)

def secLenAt (mem : Memory) (buf i : Nat) : Nat :=
  ntohlAt mem (hdrAt buf i + 4)

/-- The loop over the headers from number {lit}`i` on. -/
def parseFrom (debugLevel : Int) (mem : Memory) (buf : Nat) :
    (remaining i offset : Nat) → Sections → Nat × Sections
  | 0, _, _, sec => (0, sec)
  | remaining + 1, i, offset, sec =>
      match parseSection debugLevel mem buf (secIdAt mem buf i) (secLenAt mem buf i) offset
        sec with
      | none => (einval, sec)
      | some (offset, sec) => parseFrom debugLevel mem buf remaining (i + 1) offset sec

/-- The return code and the sections {lit}`parse` leaves behind. -/
def parse (debugLevel : Int) (mem : Memory) (buf : Nat) (sec : Sections) : Nat × Sections :=
  let hdrSize := ntohlAt mem buf
  parseFrom debugLevel mem buf hdrSize 0 (hdrSize * parseHdrSize + headerOffset) sec

end ClojitCvm
