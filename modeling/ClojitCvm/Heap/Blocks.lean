import ClojitCvm.Machine.Execute
import Mathlib.Data.List.Pairwise

/-!
# The blocks of the object heap

The blocks of all objects lie apart from each other and from the mapped file, in the
lower half of the address space.  So a word whose high bits are set addresses nothing:
doubles cannot be loaded, and only a word that is the address of an object reaches one.

Main results:

- The structure {lit}`Host.Fits`: where the blocks may be.
- Theorems {lit}`objRef_setObjRef` and {lit}`objRef_allocLoop`: the fields of the objects
  behind a store and an allocation.
- Theorem {lit}`VM.getDouble_ne_ok`: the function {lit}`get_double` never returns for a
  double.
- Theorems {lit}`VM.storeRef_eq_ok` and {lit}`VM.mpsAllocObj_eq_ok`: what a store and an
  allocation change.
-/

namespace ClojitCvm

open ByteMemory Slot

/-! ## Words as addresses -/

theorem toNat_tag (slot : Word) : (tag slot).toNat = slot.toNat / 2 ^ 48 := by
  have hlt := slot.isLt
  rw [tag_eq_tagOf, TaggedWord.tagOf, BitVec.extractLsb'_toNat, Nat.shiftRight_eq_div_pow]
  omega

/-- The mask of {lit}`invert_non_negative` is zero. -/
@[simp]
theorem invertNonNegative_eq (slot : Word) : invertNonNegative slot = slot := by
  have hmask : logicalNot (1#64 <<< 63) = 0#64 := by decide
  simp only [invertNonNegative, hmask, BitVec.and_zero, BitVec.xor_zero]

theorem isDouble_address {slot : Word} (h : isDouble slot = true) :
    7 * 2 ^ 48 ≤ slot.toNat := by
  have htag := toNat_tag slot
  simp only [isDouble, tagDoubleMin, Bool.and_eq_true, decide_eq_true_eq,
    BitVec.le_def] at h
  have hmin : (0x0007#16).toNat = 7 := by decide
  omega

/-- A word that is neither nil nor tagged as a pointer is not an address. -/
theorem address_of_not_isPointer {slot : Word} (h : isPointer slot = false) :
    slot = 0#64 ∨ 2 ^ 48 ≤ slot.toNat := by
  by_cases hnil : slot = 0#64
  · exact .inl hnil
  · right
    have htag := toNat_tag slot
    have hlo : tag slot ≠ tagPointerLo := by
      intro heq
      simp [isPointer, isNil, heq, hnil] at h
    have hpos : (tag slot).toNat ≠ 0 := by
      intro hzero
      exact hlo (BitVec.eq_of_toNat_eq (by simpa [tagPointerLo] using hzero))
    omega

/-! ## Where the blocks are -/

def Block.ApartFrom (x y : Block) : Prop :=
  Apart x.addr x.size y.addr y.size

instance : Std.Symm Block.ApartFrom where
  symm _ _ h := h.symm

/-- The blocks lie apart from each other and from the file, and each has a field. -/
structure Host.Fits (host : Host) (blocks : List Block) : Prop where
  mapped : ∀ block ∈ blocks, 4096 ≤ block.addr ∧ block.addr + block.size ≤ 2 ^ 47 ∧
    headerSize < block.size ∧ Apart block.addr block.size host.fileBase host.fileSize
  apart : blocks.Pairwise Block.ApartFrom

theorem Host.fits_nil (host : Host) : host.Fits [] :=
  ⟨by simp, List.Pairwise.nil⟩

theorem Host.inFile_eq_true {host : Host} {a n : Nat} :
    host.inFile a n = true ↔
      host.fileBase ≤ a ∧ a + n ≤ host.fileBase + host.fileSize := by
  simp [Host.inFile]

theorem Reply.object?_mem_addrs {reply : Reply} {addr : Nat}
    (h : reply.object? = some addr) : addr ∈ reply.addrs := by
  induction reply with
  | refused => cases h
  | granted a =>
      cases h
      simp [Reply.addrs]
  | retry a next ih => exact List.mem_cons_of_mem _ (ih h)

/-- A new object keeps the blocks apart. -/
theorem Host.Fits.cons {host : Host} {blocks : List Block} {n addr : Nat}
    {size : BitVec 32} (h : host.Fits blocks) (hsize : headerSize < size.toNat)
    (haddr : (host.reserve n blocks size).object? = some addr) :
    host.Fits (⟨addr, size.toNat⟩ :: blocks) := by
  have hmem := Reply.object?_mem_addrs haddr
  rcases host.reserve_mapped n blocks size addr hmem with ⟨hlow, hhigh, hfile⟩
  refine ⟨?_, List.pairwise_cons.mpr ⟨?_, h.apart⟩⟩
  · intro block hblock
    rcases List.mem_cons.mp hblock with rfl | hblock
    · exact ⟨hlow, hhigh, hsize, hfile⟩
    · exact h.mapped block hblock
  · exact host.reserve_fresh n blocks size addr hmem

/-! ## Fields -/

/-- The field lies in the block. -/
def Block.HasField (block : Block) (i : Nat) : Prop :=
  refAt block.addr i + 8 ≤ block.addr + block.size

section Fields

variable {host : Host} {blocks : List Block} {x y : Block} {mem : Memory} {i j : Nat}

theorem Host.Fits.apart_of_ne (h : host.Fits blocks) (hx : x ∈ blocks) (hy : y ∈ blocks)
    (hne : x ≠ y) : Apart x.addr x.size y.addr y.size :=
  h.apart.forall hx hy hne

/-- Two objects at one address are the same. -/
theorem Host.Fits.eq_of_addr_eq (h : host.Fits blocks) (hx : x ∈ blocks) (hy : y ∈ blocks)
    (haddr : x.addr = y.addr) : x = y := by
  by_contra hne
  have happart := h.apart_of_ne hx hy hne
  have hxsize := (h.mapped x hx).2.2.1
  have hysize := (h.mapped y hy).2.2.1
  unfold Apart at happart
  omega

/-- A store to a field changes that field of that object and no other. -/
theorem objRef_setObjRef (h : host.Fits blocks) (hx : x ∈ blocks) (hy : y ∈ blocks)
    (hi : x.HasField i) (hj : y.HasField j) (value : Word) :
    objRef (setObjRef mem x.addr i value) y.addr j =
      if x.addr = y.addr ∧ i = j then value else objRef mem y.addr j := by
  split
  · next heq =>
    have hlt : value.toNat < 256 ^ 8 := value.isLt
    rw [heq.1, heq.2, objRef, setObjRef, loadLE_storeLE_same, Nat.mod_eq_of_lt hlt,
      BitVec.ofNat_toNat, BitVec.setWidth_eq]
  · next hne =>
    rw [objRef, setObjRef, loadLE_storeLE_of_disjoint, objRef]
    by_cases heq : x = y
    · subst heq
      unfold refAt at *
      omega
    · have happart := h.apart_of_ne hx hy heq
      unfold Block.HasField refAt at *
      unfold Apart at happart
      omega

/-- An allocation changes no field of the objects that are there. -/
theorem objRef_allocLoop_old {n : Nat} {size : BitVec 32} {cljtype : BitVec 16}
    {mpstype : Byte} (hsize : headerSize < size.toNat) (hx : x ∈ blocks)
    (hi : x.HasField i) :
    objRef (allocLoop size cljtype mpstype (host.reserve n blocks size) mem) x.addr i =
      objRef mem x.addr i := by
  apply congrArg (BitVec.ofNat 64)
  apply loadLE_congr
  intro k hk
  apply allocLoop_outside (Nat.le_of_lt hsize)
  intro addr haddr
  have happart := host.reserve_fresh n blocks size addr haddr x hx
  unfold Block.HasField refAt at hi
  unfold Apart at happart
  unfold refAt
  omega

/-- The fields of a new object are nil. -/
theorem objRef_allocLoop_new {n obj : Nat} {size : BitVec 32} {cljtype : BitVec 16}
    {mpstype : Byte} (hobj : (host.reserve n blocks size).object? = some obj)
    (hi : headerSize + 8 * (i + 1) ≤ size.toNat) :
    objRef (allocLoop size cljtype mpstype (host.reserve n blocks size) mem) obj i = 0#64 := by
  rcases allocLoop_eq_initObj hobj with ⟨before, heq⟩
  rw [heq]
  exact initObj_ref before obj size cljtype mpstype hi

/-- An object behind an allocation is the new one, with nil fields, or an old one, with its
fields as they were. -/
theorem objRef_allocLoop {n : Nat} {size : BitVec 32} {cljtype : BitVec 16} {mpstype : Byte}
    (hsize : headerSize < size.toNat)
    (hx : x ∈ (host.reserve n blocks size).object?.toList.map
      (fun addr => (⟨addr, size.toNat⟩ : Block)) ++ blocks) (hi : x.HasField i) :
    ((host.reserve n blocks size).object? = some x.addr ∧
      objRef (allocLoop size cljtype mpstype (host.reserve n blocks size) mem) x.addr i =
        0#64) ∨
    (x ∈ blocks ∧
      objRef (allocLoop size cljtype mpstype (host.reserve n blocks size) mem) x.addr i =
        objRef mem x.addr i) := by
  rcases List.mem_append.mp hx with hnew | hold
  · rcases List.mem_map.mp hnew with ⟨addr, haddr, rfl⟩
    have hobj := Option.mem_toList.mp haddr
    simp only [Block.HasField, refAt] at hi
    exact .inl ⟨hobj, objRef_allocLoop_new hobj (by omega)⟩
  · exact .inr ⟨hold, objRef_allocLoop_old hsize hold hi⟩

end Fields

namespace VM

variable {host : Host} {vm vm' : VM} {block : Block} {obj : Nat}

theorem block?_eq_some (h : vm.block? obj = some block) :
    block ∈ vm.blocks ∧ block.addr = obj := by
  refine ⟨List.mem_of_find?_eq_some h, ?_⟩
  simpa using List.find?_some h

theorem block?_of_mem (hfits : host.Fits vm.blocks) (hmem : block ∈ vm.blocks) :
    vm.block? block.addr = some block := by
  cases hfind : vm.block? block.addr with
  | none =>
      have := List.find?_eq_none.mp hfind block hmem
      simp at this
  | some found =>
      rcases block?_eq_some hfind with ⟨hfound, haddr⟩
      rw [hfits.eq_of_addr_eq hfound hmem haddr]

/-! ## Loads and stores -/

/-- A load succeeds in the object that starts at the address, or in the file. -/
theorem loadThrough_eq_ok {a n value : Nat} (h : vm.loadThrough host obj a n = .ok value) :
    (∃ block ∈ vm.blocks, block.addr = obj ∧ a + n ≤ obj + block.size ∧
      value = loadLE vm.heap a n) ∨
    (vm.block? obj = none ∧ host.inFile a n = true ∧ value = loadLE host.file a n) := by
  unfold loadThrough at h
  split at h
  · next block hblock =>
    rcases block?_eq_some hblock with ⟨hmem, haddr⟩
    split at h
    · next hle =>
      cases h
      exact .inl ⟨block, hmem, haddr, hle, rfl⟩
    · cases h
  · next hnone =>
    split at h
    · next hfile =>
      cases h
      exact .inr ⟨hnone, hfile, rfl⟩
    · cases h

/-- Nothing is loaded from the upper half of the address space. -/
theorem loadThrough_lt {a n value : Nat} (hfits : host.Fits vm.blocks) (hobj : obj ≤ a)
    (h : vm.loadThrough host obj a n = .ok value) : obj ≤ 2 ^ 47 := by
  rcases loadThrough_eq_ok h with ⟨block, hmem, haddr, hle, _⟩ | ⟨_, hfile, _⟩
  · have := (hfits.mapped block hmem).2.1
    omega
  · have := (Host.inFile_eq_true.mp hfile).2
    have := host.file_le
    omega

/-- The bits of a double are never a mapped address. -/
theorem getDouble_ne_ok {slot : Word} {result : VM × Double} (hfits : host.Fits vm.blocks)
    (hdouble : isDouble slot = true) : vm.getDouble host slot ≠ .ok result := by
  intro h
  rw [getDouble, if_pos hdouble] at h
  rcases bind_eq_ok.mp h with ⟨bits, hload, _⟩
  have hlt := loadThrough_lt hfits (Nat.le_refl _) hload
  have hge := isDouble_address hdouble
  rw [invertNonNegative_eq] at hlt
  omega

/-- A field is stored in the object that starts at the address. -/
theorem storeRef_eq_ok {offset : Nat} {value : Word}
    (h : vm.storeRef obj offset value = .ok vm') :
    ∃ block, vm.block? obj = some block ∧ refAt obj offset + 8 ≤ obj + block.size ∧
      vm' = { vm with
        heap := setObjRef vm.heap obj offset value
        fieldStores := ⟨obj, offset, value⟩ :: vm.fieldStores } := by
  unfold storeRef at h
  split at h
  · next block hblock =>
    split at h
    · next hle =>
      cases h
      exact ⟨block, hblock, hle, rfl⟩
    · cases h
  · cases h

/-- An allocation adds at most one block. -/
theorem mpsAllocObj_eq_ok {size : BitVec 32} {cljtype : BitVec 16} {mpstype : Byte}
    {addr : Option Nat} (h : vm.mpsAllocObj host size cljtype mpstype = .ok (vm', addr)) :
    headerSize < size.toNat ∧
      addr = (host.reserve vm.reserves vm.blocks size).object? ∧
      vm' = { vm with
        heap := allocLoop size cljtype mpstype (host.reserve vm.reserves vm.blocks size) vm.heap
        blocks := addr.toList.map (fun a => ⟨a, size.toNat⟩) ++ vm.blocks
        reserves := vm.reserves + 1 } := by
  unfold mpsAllocObj at h
  split at h
  · next hsize =>
    cases h
    exact ⟨hsize, rfl, rfl⟩
  · cases h

end VM

end ClojitCvm
