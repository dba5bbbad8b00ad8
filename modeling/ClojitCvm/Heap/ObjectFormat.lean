import ClojitCvm.Lib.ByteMemory

/-!
# Heap objects

An object is a header of eight bytes, with the kind of the object, the number of its
type and its size in bytes, and the fields behind it.  The collector uses the format
methods of {lit}`vm.c` on objects; new objects are laid out by
{lit}`mps_alloc_obj` in a block that the memory pool system reserves.

Main results:

- Theorems {lit}`initObj_header` and {lit}`initObj_ref`: the header of a new object and
  its nil fields.
- Theorems {lit}`initObj_outside`, {lit}`objFwd_outside` and {lit}`objPad_outside`: what is
  laid out, forwarded or padded changes nothing outside its own bytes.
-/

namespace ClojitCvm

open ByteMemory

/-- The result code {lit}`MPS_RES_OK` of the memory pool system. -/
def mpsResOk : Nat := 0

/-! ## The layout of an object -/

/-- The constant {lit}`HEADER_SIZE`. -/
def headerSize : Nat := 8

/-- The types of an object that {lit}`vm.c` numbers. -/
def objMpsTypePadding : Byte := 0x00
def objMpsTypeForward : Byte := 0x01
def objMpsTypeObject : Byte := 0x02
def objMpsTypeArray : Byte := 0x03

/-- The field {lit}`obj->type`. -/
def objType (mem : Memory) (obj : Nat) : Byte :=
  mem obj

/-- The field {lit}`obj->cljtype`. -/
def objCljtype (mem : Memory) (obj : Nat) : Nat :=
  loadLE mem (obj + 2) 2

/-- The field {lit}`obj->size`, which includes the header. -/
def objSize (mem : Memory) (obj : Nat) : Nat :=
  loadLE mem (obj + 4) 4

/-- The address of {lit}`obj->ref[i]`. -/
def refAt (obj i : Nat) : Nat :=
  obj + headerSize + 8 * i

/-- The value of {lit}`obj->ref[i]`. -/
def objRef (mem : Memory) (obj i : Nat) : BitVec 64 :=
  .ofNat 64 (loadLE mem (refAt obj i) 8)

/-- The assignment to {lit}`obj->type`. -/
def setObjType (mem : Memory) (obj : Nat) (type : Byte) : Memory :=
  storeLE mem obj 1 type.toNat

/-- The assignment to {lit}`obj->cljtype`. -/
def setObjCljtype (mem : Memory) (obj : Nat) (cljtype : BitVec 16) : Memory :=
  storeLE mem (obj + 2) 2 cljtype.toNat

/-- The assignment to {lit}`obj->size`. -/
def setObjSize (mem : Memory) (obj : Nat) (size : BitVec 32) : Memory :=
  storeLE mem (obj + 4) 4 size.toNat

/-- The assignment to {lit}`obj->ref[i]`. -/
def setObjRef (mem : Memory) (obj i : Nat) (value : BitVec 64) : Memory :=
  storeLE mem (refAt obj i) 8 value.toNat

/-! ## Format methods -/

/-- The address behind an object. -/
def objSkip (mem : Memory) (base : Nat) : Nat :=
  base + objSize mem base

/-- The old copy becomes a forwarding object of the same size. -/
def objFwd (mem : Memory) (old new : Nat) : Memory :=
  let limit := objSkip mem old
  let size : BitVec 32 := .ofNat 32 (limit - old)
  let mem := setObjType mem old objMpsTypeForward
  let mem := setObjSize mem old size
  setObjRef mem old 0 (.ofNat 64 new)

/-- The new address of a forwarded object, or {lit}`NULL`. -/
def objIsfwd (mem : Memory) (addr : Nat) : BitVec 64 :=
  if objType mem addr = objMpsTypeForward then objRef mem addr 0 else 0#64

/-- The size is stored in a {lit}`uint32_t`. -/
def objPad (mem : Memory) (addr size : Nat) : Memory :=
  let mem := setObjType mem addr objMpsTypePadding
  setObjSize mem addr (.ofNat 32 size)

/-- The size of an object is read from its header. -/
theorem objSize_congr {mem mem' : Memory} {obj : Nat}
    (h : ∀ x, obj ≤ x → x < obj + headerSize → mem' x = mem x) :
    objSize mem' obj = objSize mem obj := by
  unfold headerSize at h
  apply loadLE_congr
  intro i hi
  exact h _ (by omega) (by omega)

/-! ## Allocation -/

/-- What the memory pool system does with an allocation: {lit}`mps_reserve` fails, or
it gives a block and {lit}`mps_commit` succeeds, or the commit fails and the loop
starts again. -/
inductive Reply where
  | refused
  | granted (addr : Nat)
  | retry (addr : Nat) (next : Reply)
deriving DecidableEq, Repr

/-- The addresses of all blocks that are written. -/
def Reply.addrs : Reply → List Nat
  | refused => []
  | granted addr => [addr]
  | retry addr next => addr :: next.addrs

/-- The address of the object in the end. -/
def Reply.object? : Reply → Option Nat
  | refused => none
  | granted addr => some addr
  | retry _ next => next.object?

/-- The body of the loop: the header and the zeroed fields. -/
def initObj (mem : Memory) (obj : Nat) (size : BitVec 32) (cljtype : BitVec 16)
    (mpstype : Byte) : Memory :=
  let mem := setObjType mem obj mpstype
  let mem := setObjCljtype mem obj cljtype
  let mem := setObjSize mem obj size
  fill mem (obj + headerSize) (size.toNat - headerSize) 0#8

/-- The loop of {lit}`mps_alloc_obj`. -/
def allocLoop (size : BitVec 32) (cljtype : BitVec 16) (mpstype : Byte) :
    Reply → Memory → Memory
  | .refused, mem => mem
  | .granted addr, mem => initObj mem addr size cljtype mpstype
  | .retry addr next, mem =>
      allocLoop size cljtype mpstype next (initObj mem addr size cljtype mpstype)

/-! ## Loads after stores to the header -/

section Stores

variable {mem : Memory} {obj : Nat}

/-- The type that was stored is read again. -/
theorem objType_setObjType (type : Byte) : objType (setObjType mem obj type) obj = type := by
  simp [objType, setObjType, storeLE]

/-- Storing the Clojure type keeps the type. -/
theorem objType_setObjCljtype (cljtype : BitVec 16) :
    objType (setObjCljtype mem obj cljtype) obj = objType mem obj :=
  storeLE_outside (by omega)

/-- Storing the size keeps the type. -/
theorem objType_setObjSize (size : BitVec 32) :
    objType (setObjSize mem obj size) obj = objType mem obj :=
  storeLE_outside (by omega)

/-- Storing a field keeps the type. -/
theorem objType_setObjRef (i : Nat) (value : BitVec 64) :
    objType (setObjRef mem obj i value) obj = objType mem obj :=
  storeLE_outside (by unfold refAt headerSize; omega)

/-- The Clojure type that was stored is read again. -/
theorem objCljtype_setObjCljtype (cljtype : BitVec 16) :
    objCljtype (setObjCljtype mem obj cljtype) obj = cljtype.toNat := by
  rw [objCljtype, setObjCljtype, loadLE_storeLE_same]
  exact Nat.mod_eq_of_lt cljtype.isLt

/-- Storing the size keeps the Clojure type. -/
theorem objCljtype_setObjSize (size : BitVec 32) :
    objCljtype (setObjSize mem obj size) obj = objCljtype mem obj :=
  loadLE_storeLE_of_disjoint (by omega)

/-- The size that was stored is read again. -/
theorem objSize_setObjSize (size : BitVec 32) :
    objSize (setObjSize mem obj size) obj = size.toNat := by
  rw [objSize, setObjSize, loadLE_storeLE_same]
  exact Nat.mod_eq_of_lt size.isLt

/-- Storing a field keeps the size. -/
theorem objSize_setObjRef (i : Nat) (value : BitVec 64) :
    objSize (setObjRef mem obj i value) obj = objSize mem obj :=
  loadLE_storeLE_of_disjoint (by unfold refAt headerSize; omega)

end Stores

/-! ## New objects -/

section NewObjects

variable (mem : Memory) (obj : Nat) (size : BitVec 32) (cljtype : BitVec 16) (mpstype : Byte)

/-- The header of a new object. -/
theorem initObj_header :
    objType (initObj mem obj size cljtype mpstype) obj = mpstype ∧
      objCljtype (initObj mem obj size cljtype mpstype) obj = cljtype.toNat ∧
      objSize (initObj mem obj size cljtype mpstype) obj = size.toNat := by
  unfold initObj
  refine ⟨?_, ?_, ?_⟩
  · rw [objType, fill_outside (by unfold headerSize; omega)]
    exact (objType_setObjSize size).trans
      ((objType_setObjCljtype cljtype).trans (objType_setObjType mpstype))
  · rw [objCljtype, loadLE_fill_of_disjoint (by unfold headerSize; omega)]
    exact (objCljtype_setObjSize size).trans (objCljtype_setObjCljtype cljtype)
  · rw [objSize, loadLE_fill_of_disjoint (by unfold headerSize; omega)]
    exact objSize_setObjSize size

/-- The fields of a new object are nil. -/
theorem initObj_ref {i : Nat} (hi : headerSize + 8 * (i + 1) ≤ size.toNat) :
    objRef (initObj mem obj size cljtype mpstype) obj i = 0#64 := by
  rw [objRef, initObj, loadLE_fill_zero (by unfold refAt headerSize at *; omega)]

variable {mem obj size cljtype mpstype}

/-- Outside its block a new object changes nothing. -/
theorem initObj_outside {x : Nat} (hsize : headerSize ≤ size.toNat)
    (h : x < obj ∨ obj + size.toNat ≤ x) : initObj mem obj size cljtype mpstype x = mem x := by
  unfold initObj setObjSize setObjCljtype setObjType
  unfold headerSize at *
  rw [fill_outside (by omega), storeLE_outside (by omega), storeLE_outside (by omega),
    storeLE_outside (by omega)]

/-- The object of a successful allocation is laid out last. -/
theorem allocLoop_eq_initObj {reply : Reply} (h : reply.object? = some obj) :
    ∃ before, allocLoop size cljtype mpstype reply mem =
      initObj before obj size cljtype mpstype := by
  induction reply generalizing mem with
  | refused => cases h
  | granted addr =>
      cases h
      exact ⟨mem, rfl⟩
  | retry addr next ih => exact ih h

/-- Outside the blocks that are written an allocation changes nothing. -/
theorem allocLoop_outside {reply : Reply} {x : Nat} (hsize : headerSize ≤ size.toNat)
    (h : ∀ addr ∈ reply.addrs, x < addr ∨ addr + size.toNat ≤ x) :
    allocLoop size cljtype mpstype reply mem x = mem x := by
  induction reply generalizing mem with
  | refused => rfl
  | granted addr => exact initObj_outside hsize (h addr (by simp [Reply.addrs]))
  | retry addr next ih =>
      rw [allocLoop, ih fun a ha => h a (by simp [Reply.addrs, ha])]
      exact initObj_outside hsize (h addr (by simp [Reply.addrs]))

end NewObjects

/-! ## Forwarded and padding objects -/

section Format

variable (mem : Memory) (obj new : Nat)

/-- A forwarded object keeps its size and knows its new address. -/
theorem objFwd_header (hnew : new < 2 ^ 64) :
    objType (objFwd mem obj new) obj = objMpsTypeForward ∧
      objSize (objFwd mem obj new) obj = objSize mem obj ∧
      objIsfwd (objFwd mem obj new) obj = .ofNat 64 new := by
  have htype : objType (objFwd mem obj new) obj = objMpsTypeForward :=
    (objType_setObjRef ..).trans ((objType_setObjSize ..).trans (objType_setObjType ..))
  have hlt : objSize mem obj < 2 ^ 32 := loadLE_lt mem (obj + 4) 4
  refine ⟨htype, ?_, ?_⟩
  · refine (objSize_setObjRef ..).trans ((objSize_setObjSize ..).trans ?_)
    rw [objSkip, Nat.add_sub_cancel_left, BitVec.toNat_ofNat, Nat.mod_eq_of_lt hlt]
  · rw [objIsfwd, if_pos htype, objRef, objFwd, setObjRef, loadLE_storeLE_same,
      BitVec.toNat_ofNat, Nat.mod_eq_of_lt hnew, Nat.mod_eq_of_lt (by omega)]

/-- The header of padding has the low 32 bits of the size. -/
theorem objSize_objPad (size : Nat) : objSize (objPad mem obj size) obj = size % 2 ^ 32 := by
  rw [objPad, objSize_setObjSize, BitVec.toNat_ofNat]

/-- Padding of less than four gigabytes has its size in the header. -/
theorem objPad_header {size : Nat} (hsize : size < 2 ^ 32) :
    objType (objPad mem obj size) obj = objMpsTypePadding ∧
      objSize (objPad mem obj size) obj = size := by
  refine ⟨(objType_setObjSize ..).trans (objType_setObjType ..), ?_⟩
  rw [objSize_objPad, Nat.mod_eq_of_lt hsize]

variable {mem obj new}

/-- Outside its header and its first field a forwarded object is not changed. -/
theorem objFwd_outside {x : Nat} (h : x < obj ∨ obj + 16 ≤ x) :
    objFwd mem obj new x = mem x := by
  unfold objFwd setObjRef setObjSize setObjType refAt headerSize
  rw [storeLE_outside (by omega), storeLE_outside (by omega), storeLE_outside (by omega)]

/-- Outside its header padding changes nothing. -/
theorem objPad_outside {x size : Nat} (h : x < obj ∨ obj + 8 ≤ x) :
    objPad mem obj size x = mem x := by
  unfold objPad setObjSize setObjType
  rw [storeLE_outside (by omega), storeLE_outside (by omega)]

end Format

end ClojitCvm
