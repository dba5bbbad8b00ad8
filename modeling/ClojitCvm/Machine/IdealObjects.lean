import ClojitCvm.Machine.IdealRules

/-!
# Objects and printing on the ideal machine

The bytes of the object heap are the fields of the ideal objects: loads, stores and
allocations keep them so, whatever the memory held before.  Printing reads the objects, so it
prints the same text.

Main results:

- Theorems {lit}`Refines.loadRef`, {lit}`Refines.storeRef` and {lit}`Refines.mpsAllocObj`: the
  rules of fields and allocations.
- Theorems {lit}`Refines.printlnSlot` and {lit}`Refines.printSlots`: the rules of printing.
-/

namespace ClojitCvm

open ByteMemory LockStep Slot

namespace Refines

variable {level : Int} {host : Host} {vm vm' : VM} {p : Ideal}

/-! ## Objects -/

/-- The fields of an object lie in its block. -/
theorem lt_fieldCount_iff {size i : Nat} (obj : Nat) (hsize : headerSize < size) :
    i < fieldCount size ↔ refAt obj i + 8 ≤ obj + size := by
  unfold fieldCount refAt
  unfold headerSize at *
  omega

/-- The ideal object at an address is the one in the block there. -/
theorem object?_idealWith (out : List String) (addr : Nat) :
    (vm.idealWith out).object? addr = (vm.block? addr).map (Block.object vm.heap) := by
  unfold Ideal.object? VM.block?
  change (vm.blocks.map (Block.object vm.heap)).find? _ = _
  rw [List.find?_map]
  rfl

/-- A block has room for more than its header. -/
theorem headerSize_lt {block : Block} {obj : Nat} (h : Refines level host vm p)
    (hblock : vm.block? obj = some block) : headerSize < block.size ∧ block.addr = obj := by
  rcases VM.block?_eq_some hblock with ⟨hmem, haddr⟩
  exact ⟨(h.inOrder.fits.mapped block hmem).2.2.1, haddr⟩

/-- A load from the file. -/
theorem loadFile (sec : Sections) {obj : Nat} (hblock : vm.block? obj = none) (a n : Nat) :
    Mirrors level (· = ·) (vm.loadThrough host obj a n)
      (orWild ((host.program sec).bytes a n)) := by
  unfold VM.loadThrough
  simp only [hblock, Host.program]
  by_cases hfile : host.inFile a n = true
  · rw [if_pos hfile, if_pos hfile]
    exact .ok rfl
  · rw [if_neg hfile, if_neg hfile]
    exact .error rfl

/-- Reading a field: a word of the heap, or of the file. -/
theorem loadRef (h : Refines level host vm p) (sec : Sections) (obj i : Nat) :
    Mirrors level (· = ·) (vm.loadRef host obj i) (p.field (host.program sec) obj i) := by
  rcases h.shows with ⟨out, rfl, _⟩
  unfold Ideal.field
  rw [object?_idealWith]
  cases hblock : vm.block? obj with
  | some block =>
      rcases h.headerSize_lt hblock with ⟨hsize, haddr⟩
      have hroom : i < fieldCount block.size ↔ refAt obj i + 8 ≤ obj + block.size :=
        lt_fieldCount_iff obj hsize
      unfold VM.loadRef VM.loadThrough
      simp only [hblock, Option.map_some, Block.object, haddr, List.getElem?_map]
      by_cases hi : i < fieldCount block.size
      · rw [if_pos (hroom.mp hi), List.getElem?_range hi]
        exact .ok rfl
      · rw [if_neg (fun hle => hi (hroom.mpr hle)),
          List.getElem?_eq_none (by simpa using hi)]
        exact .error rfl
  | none =>
      simp only [Option.map_none]
      unfold VM.loadRef
      refine (loadFile sec hblock (refAt obj i) 8).bind ?_
      rintro value _ rfl
      exact .ok rfl

/-- A store to a field changes no header. -/
theorem header_setObjRef {block x : Block} {i k n : Nat} (hfits : host.Fits vm.blocks)
    (hblock : block ∈ vm.blocks) (hx : x ∈ vm.blocks) (hi : i < fieldCount block.size)
    (hk : k + n ≤ headerSize) (word : Word) :
    loadLE (setObjRef vm.heap block.addr i word) (x.addr + k) n =
      loadLE vm.heap (x.addr + k) n := by
  have hsize := (hfits.mapped block hblock).2.2.1
  have hxsize := (hfits.mapped x hx).2.2.1
  have hroom := (lt_fieldCount_iff block.addr hsize).mp hi
  apply loadLE_storeLE_of_disjoint
  by_cases heq : block = x
  · subst heq
    unfold refAt
    omega
  · have happart := hfits.apart_of_ne hblock hx heq
    unfold refAt at *
    unfold Apart at happart
    omega

/-- A store to a field changes the fields of its own object alone. -/
theorem fields_setObjRef {block x : Block} {i : Nat} (hfits : host.Fits vm.blocks)
    (hblock : block ∈ vm.blocks) (hx : x ∈ vm.blocks) (hi : i < fieldCount block.size)
    (word : Word) :
    (List.range (fieldCount x.size)).map
        (objRef (setObjRef vm.heap block.addr i word) x.addr) =
      if x.addr = block.addr then
        ((List.range (fieldCount x.size)).map (objRef vm.heap x.addr)).set i word
      else (List.range (fieldCount x.size)).map (objRef vm.heap x.addr) := by
  have hsize := (hfits.mapped block hblock).2.2.1
  have hxsize := (hfits.mapped x hx).2.2.1
  have hroom := (lt_fieldCount_iff block.addr hsize).mp hi
  have hfields : ∀ j < fieldCount x.size, objRef (setObjRef vm.heap block.addr i word) x.addr j =
      if block.addr = x.addr ∧ i = j then word else objRef vm.heap x.addr j :=
    fun j hj => objRef_setObjRef hfits hblock hx hroom ((lt_fieldCount_iff x.addr hxsize).mp hj)
      word
  split
  · next haddr =>
    apply List.ext_getElem
    · rw [List.length_set, List.length_map, List.length_map]
    · intro j hj _
      rw [List.length_map, List.length_range] at hj
      rw [List.getElem_map, List.getElem_range, hfields j hj, List.getElem_set, List.getElem_map,
        List.getElem_range]
      simp only [haddr, true_and]
  · next haddr =>
    apply List.map_congr_left
    intro j hj
    rw [hfields j (List.mem_range.mp hj), if_neg fun hboth => haddr hboth.1.symm]

/-- A store to a field of an object changes that field of its ideal object. -/
theorem object_setObjRef {block x : Block} {i : Nat} (hfits : host.Fits vm.blocks)
    (hblock : block ∈ vm.blocks) (hx : x ∈ vm.blocks) (hi : i < fieldCount block.size)
    (word : Word) :
    Block.object (setObjRef vm.heap block.addr i word) x =
      if x.addr = block.addr then
        { Block.object vm.heap x with fields := (Block.object vm.heap x).fields.set i word }
      else Block.object vm.heap x := by
  have hcljtype : objCljtype (setObjRef vm.heap block.addr i word) x.addr =
      objCljtype vm.heap x.addr :=
    header_setObjRef hfits hblock hx hi (by decide) word
  unfold Block.object
  rw [hcljtype, fields_setObjRef hfits hblock hx hi word]
  split <;> rfl

/-- Storing a field: no other object has the bytes. -/
theorem storeRef (h : Refines level host vm p) (obj i : Nat) (word : Word) :
    Mirrors level (Refines level host) (vm.storeRef obj i word) (p.setField obj i word) := by
  rcases h.shows with ⟨out, rfl, hout⟩
  unfold VM.storeRef Ideal.setField
  rw [object?_idealWith]
  cases hblock : vm.block? obj with
  | none => exact .error rfl
  | some block =>
      rcases VM.block?_eq_some hblock with ⟨hmem, rfl⟩
      have hfits := h.inOrder.fits
      have hsize := (hfits.mapped block hmem).2.2.1
      simp only [Option.map_some, Block.object, List.length_map, List.length_range]
      by_cases hi : i < fieldCount block.size
      · rw [if_pos ((lt_fieldCount_iff block.addr hsize).mp hi), if_pos hi]
        refine .ok ⟨⟨⟨⟨h.wellFramed.slots, h.wellFramed.stack, h.wellFramed.ordered⟩, hfits⟩,
          ?_⟩, out, ?_, hout⟩
        · intro x hx
          exact (header_setObjRef hfits hmem hx hi (by decide) word).trans
            (h.inOrder.headed x hx)
        · simp only [VM.idealWith, VM.ideal, Ideal.mk.injEq, List.map_map, and_true, true_and]
          refine ⟨rfl, rfl, rfl, ?_⟩
          apply List.map_congr_left
          intro x hx
          exact (object_setObjRef hfits hmem hx hi word).symm
      · rw [if_neg fun hle => hi ((lt_fieldCount_iff block.addr hsize).mpr hle), if_neg hi]
        exact .error rfl

/-- An object is read from the bytes of its block. -/
theorem object_congr {mem mem' : Memory} {x : Block} (hsize : headerSize < x.size)
    (h : ∀ y, x.addr ≤ y → y < x.addr + x.size → mem' y = mem y) :
    Block.object mem' x = Block.object mem x ∧ objSize mem' x.addr = objSize mem x.addr := by
  have hload (k n : Nat) (hk : k + n ≤ x.size) :
      loadLE mem' (x.addr + k) n = loadLE mem (x.addr + k) n :=
    loadLE_congr fun i hi => h _ (by omega) (by omega)
  have hcljtype : objCljtype mem' x.addr = objCljtype mem x.addr :=
    hload 2 2 (by unfold headerSize at hsize; omega)
  have hfields : (List.range (fieldCount x.size)).map (objRef mem' x.addr) =
      (List.range (fieldCount x.size)).map (objRef mem x.addr) := by
    apply List.map_congr_left
    intro i hi
    have hroom := (lt_fieldCount_iff x.addr hsize).mp (List.mem_range.mp hi)
    unfold refAt at hroom
    rw [objRef, objRef, refAt, Nat.add_assoc, hload _ _ (by omega)]
  refine ⟨?_, hload 4 4 (by unfold headerSize at hsize; omega)⟩
  unfold Block.object
  rw [hcljtype, hfields]

/-- The object of an allocation is fresh. -/
theorem object_initObj (mem : Memory) (record : TypeRecord) (addr : Nat)
    (hsize : headerSize < record.typeSize.toNat) :
    Block.object (initObj mem addr record.typeSize (record.typeId.setWidth 16) objMpsTypeObject)
        ⟨addr, record.typeSize.toNat⟩ = Ideal.fresh record addr ∧
      objSize (initObj mem addr record.typeSize (record.typeId.setWidth 16) objMpsTypeObject)
        addr = record.typeSize.toNat := by
  rcases initObj_header mem addr record.typeSize (record.typeId.setWidth 16) objMpsTypeObject with
    ⟨_, hcljtype, hheader⟩
  have hfields : (List.range (fieldCount record.typeSize.toNat)).map (objRef (initObj mem addr
      record.typeSize (record.typeId.setWidth 16) objMpsTypeObject) addr) =
      List.replicate (fieldCount record.typeSize.toNat) 0#64 := by
    rw [List.eq_replicate_iff, List.length_map, List.length_range]
    refine ⟨rfl, ?_⟩
    intro word hword
    rcases List.mem_map.mp hword with ⟨i, hi, rfl⟩
    have hroom := (lt_fieldCount_iff addr hsize).mp (List.mem_range.mp hi)
    unfold refAt at hroom
    exact initObj_ref mem addr _ _ _ (by omega)
  refine ⟨?_, hheader⟩
  unfold Block.object Ideal.fresh
  rw [hcljtype, hfields]

/-- An allocation leaves the other objects as they are. -/
theorem object_allocLoop {blocks : List Block} {x : Block} (hfits : host.Fits blocks)
    (hx : x ∈ blocks) {n : Nat} {mem : Memory} {size : BitVec 32}
    {cljtype : BitVec 16} {mpstype : Byte} (hsize : headerSize < size.toNat) :
    Block.object (allocLoop size cljtype mpstype (host.reserve n blocks size) mem) x =
        Block.object mem x ∧
      objSize (allocLoop size cljtype mpstype (host.reserve n blocks size) mem) x.addr =
        objSize mem x.addr := by
  apply object_congr (hfits.mapped x hx).2.2.1
  intro y hlow hhigh
  apply allocLoop_outside (Nat.le_of_lt hsize)
  intro addr haddr
  have happart := host.reserve_fresh n blocks size addr haddr x hx
  unfold Apart at happart
  omega

/-- The blocks of the ideal objects are those of the pool. -/
theorem blocks_idealWith (out : List String) : (vm.idealWith out).blocks = vm.blocks := by
  unfold Ideal.blocks
  change (vm.blocks.map (Block.object vm.heap)).map _ = _
  rw [List.map_map]
  exact List.map_id vm.blocks

/-- The objects behind an allocation. -/
theorem objects_allocLoop {blocks : List Block} (hfits : host.Fits blocks) (n : Nat)
    (mem : Memory) {record : TypeRecord} (hsize : headerSize < record.typeSize.toNat)
    {mem' : Memory} (hmem' : mem' = allocLoop record.typeSize (record.typeId.setWidth 16)
      objMpsTypeObject (host.reserve n blocks record.typeSize) mem) :
    ((host.reserve n blocks record.typeSize).object?.toList.map
        (fun addr => (⟨addr, record.typeSize.toNat⟩ : Block)) ++ blocks).map (Block.object mem') =
      (host.reserve n blocks record.typeSize).object?.toList.map (Ideal.fresh record) ++
        blocks.map (Block.object mem) := by
  rw [List.map_append, List.map_map]
  congr 1
  · apply List.map_congr_left
    intro addr haddr
    rcases allocLoop_eq_initObj (Option.mem_toList.mp haddr) with ⟨before, hlaid⟩
    rw [hmem', hlaid]
    exact (object_initObj before record addr hsize).1
  · apply List.map_congr_left
    intro x hx
    rw [hmem']
    exact (object_allocLoop hfits hx hsize).1

/-- Every object behind an allocation has its size in its header. -/
theorem headed_allocLoop {blocks : List Block} (hfits : host.Fits blocks) (n : Nat)
    {mem : Memory} {record : TypeRecord} (hsize : headerSize < record.typeSize.toNat)
    (hheaded : ∀ block ∈ blocks, objSize mem block.addr = block.size) :
    ∀ block ∈ (host.reserve n blocks record.typeSize).object?.toList.map
        (fun addr => (⟨addr, record.typeSize.toNat⟩ : Block)) ++ blocks,
      objSize (allocLoop record.typeSize (record.typeId.setWidth 16) objMpsTypeObject
        (host.reserve n blocks record.typeSize) mem) block.addr = block.size := by
  intro block hblock
  rcases List.mem_append.mp hblock with hnew | hold
  · rcases List.mem_map.mp hnew with ⟨addr, haddr, rfl⟩
    rcases allocLoop_eq_initObj (Option.mem_toList.mp haddr) with ⟨before, hlaid⟩
    rw [hlaid]
    exact (object_initObj before record addr hsize).2
  · exact (object_allocLoop hfits hold hsize).2.trans (hheaded block hold)

/-- The blocks behind an allocation are apart. -/
theorem fits_alloc {blocks : List Block} (hfits : host.Fits blocks) (n : Nat)
    {size : BitVec 32} (hsize : headerSize < size.toNat) :
    host.Fits ((host.reserve n blocks size).object?.toList.map
      (fun addr => (⟨addr, size.toNat⟩ : Block)) ++ blocks) := by
  cases hobj : (host.reserve n blocks size).object? with
  | none => exact hfits
  | some addr => exact hfits.cons hsize hobj

/-- Allocating an object: the loop of the allocation point ends with an object in the new block
or with none. -/
theorem mpsAllocObj (h : Refines level host vm p) (sec : Sections) (record : TypeRecord) :
    Mirrors level (fun r p' => Refines level host
        (if r.2.isSome then r.1 else r.1.print Ideal.refusedText) p')
      (vm.mpsAllocObj host record.typeSize (record.typeId.setWidth 16) objMpsTypeObject)
      (p.allocate (host.program sec) record) := by
  rcases h.shows with ⟨out, rfl, hout⟩
  unfold VM.mpsAllocObj Ideal.allocate
  rw [blocks_idealWith]
  by_cases hsize : record.typeSize.toNat > headerSize
  · rw [if_pos hsize, if_pos hsize]
    have hfits := h.inOrder.fits
    have hobjects := objects_allocLoop hfits vm.reserves vm.heap hsize rfl
    have hallocated : Refines level host
        { vm with
          heap := allocLoop record.typeSize (record.typeId.setWidth 16) objMpsTypeObject
            (host.reserve vm.reserves vm.blocks record.typeSize) vm.heap
          blocks := (host.reserve vm.reserves vm.blocks record.typeSize).object?.toList.map
            (fun addr => (⟨addr, record.typeSize.toNat⟩ : Block)) ++ vm.blocks
          reserves := vm.reserves + 1 }
        { vm.idealWith out with
          objects := (host.reserve vm.reserves vm.blocks record.typeSize).object?.toList.map
            (Ideal.fresh record) ++ (vm.idealWith out).objects
          reserves := vm.reserves + 1 } := by
      refine ⟨⟨⟨⟨h.wellFramed.slots, h.wellFramed.stack, h.wellFramed.ordered⟩,
        fits_alloc hfits _ hsize⟩, headed_allocLoop hfits _ hsize h.inOrder.headed⟩, out, ?_, hout⟩
      simp only [VM.idealWith, VM.ideal, Ideal.mk.injEq, and_true, true_and]
      exact ⟨rfl, rfl, rfl, hobjects.symm⟩
    refine .ok ?_
    change Refines level host (if (host.reserve vm.reserves vm.blocks
      record.typeSize).object?.isSome then _ else _) (if (host.reserve vm.reserves vm.blocks
      record.typeSize).object?.isSome then _ else _)
    split
    · exact hallocated
    · exact hallocated.print Ideal.refusedText
  · rw [if_neg hsize, if_neg hsize]
    exact .error rfl

/-! ## Printing -/

/-- The bits of a double are no address. -/
theorem getDouble_eq (h : Refines level host vm p) {slot : Word} (hdouble : isDouble slot = true) :
    vm.getDouble host slot = .error (.fault .wildRead) := by
  have hge := isDouble_address hdouble
  have hblock : vm.block? slot.toNat = none := by
    cases hblock : vm.block? slot.toNat with
    | none => rfl
    | some block =>
        rcases VM.block?_eq_some hblock with ⟨hmem, haddr⟩
        have := (h.inOrder.fits.mapped block hmem).2.1
        omega
  have hfile : host.inFile slot.toNat 8 = false := by
    rw [Bool.eq_false_iff]
    intro hfile
    have := (Host.inFile_eq_true.mp hfile).2
    have := host.file_le
    omega
  simp only [VM.getDouble, if_pos hdouble, invertNonNegative_eq, VM.loadThrough, hblock, hfile]
  rfl

/-- The header of an object, in memory or in the file. -/
theorem header_bind (h : Refines level host vm p) (sec : Sections) {obj : Nat}
    {f : Nat → Nat → Outcome VM String} {g : Nat × Nat → Outcome Ideal String}
    (hfg : ∀ cljtype size, Mirrors level (· = ·) (f cljtype size) (g (cljtype, size))) :
    Mirrors level (· = ·)
      (do
        let cljtype ← vm.loadThrough host obj (obj + 2) 2
        let size ← vm.loadThrough host obj (obj + 4) 4
        f cljtype size)
      (p.header (host.program sec) obj >>= g) := by
  rcases h.shows with ⟨out, rfl, _⟩
  unfold Ideal.header
  rw [object?_idealWith]
  cases hblock : vm.block? obj with
  | some block =>
      rcases VM.block?_eq_some hblock with ⟨hmem, rfl⟩
      have hsize := (h.headerSize_lt hblock).1
      have hload (k n : Nat) (hk : k + n ≤ headerSize) :
          vm.loadThrough host block.addr (block.addr + k) n =
            .ok (loadLE vm.heap (block.addr + k) n) := by
        unfold VM.loadThrough
        simp only [hblock]
        rw [if_pos (by omega)]
      have hheader : loadLE vm.heap (block.addr + 4) 4 = block.size :=
        h.inOrder.headed block hmem
      rw [hload 2 2 (by decide), hload 4 4 (by decide), hheader]
      exact hfg _ _
  | none =>
      simp only [Option.map_none, bind_assoc, pure_bind]
      refine (loadFile sec hblock (obj + 2) 2).bind ?_
      rintro cljtype _ rfl
      refine (loadFile sec hblock (obj + 4) 4).bind ?_
      rintro size _ rfl
      exact hfg _ _

/-- Printing an object, if printing its fields agrees. -/
theorem printObject (h : Refines level host vm p) (sec : Sections)
    {printField : Word → Outcome VM String} {printField' : Word → Outcome Ideal String}
    (hfield : ∀ word, Mirrors level (· = ·) (printField word) (printField' word))
    (slot : Word) :
    Mirrors level (· = ·) (printObject host vm printField slot)
      (p.printObject (host.program sec) printField' slot) := by
  refine h.header_bind sec fun cljtype size => ?_
  refine Follows.bind (Follows.mapM fun i _ => ?_) ?_
  · refine (h.loadRef sec slot.toNat i).bind ?_
    rintro word _ rfl
    exact hfield word
  · rintro fields _ rfl
    exact .ok rfl

/-- Printing a slot, by induction on the depth. -/
theorem printSlot (h : Refines level host vm p) (sec : Sections) (depth : Nat) (slot : Word) :
    Mirrors level (· = ·) (printSlot host vm depth slot)
      (p.printSlot (host.program sec) depth slot) := by
  induction depth generalizing slot with
  | zero => exact .error rfl
  | succ depth ih =>
      unfold ClojitCvm.printSlot Ideal.printSlot
      refine Follows.ite Iff.rfl (fun _ => .ok rfl) fun _ => ?_
      refine Follows.ite Iff.rfl (fun _ => .ok rfl) fun _ => ?_
      cases immediateText slot with
      | some text => exact .ok rfl
      | none =>
          refine Follows.ite Iff.rfl (fun _ => h.printObject sec ih slot) fun _ => ?_
          refine Follows.ite Iff.rfl (fun hdouble => ?_) fun _ => .ok rfl
          rw [h.getDouble_eq hdouble]
          exact .error rfl

/-- The text of a {lit}`println`. -/
theorem printlnSlot (h : Refines level host vm p) (sec : Sections) (slot : Word) :
    Mirrors level (· = ·) (printlnSlot host vm slot)
      (p.printlnSlot (host.program sec) slot) := by
  unfold ClojitCvm.printlnSlot Ideal.printlnSlot
  refine Follows.ite Iff.rfl (fun _ => .ok rfl) fun _ => ?_
  refine Follows.ite Iff.rfl (fun _ => .ok rfl) fun _ => ?_
  cases immediateText slot with
  | some text => exact .ok rfl
  | none =>
      refine Follows.ite Iff.rfl (fun _ => ?_) fun _ => ?_
      · exact h.printObject sec (h.printSlot sec _) slot
      · refine Follows.ite Iff.rfl (fun hdouble => ?_) fun _ => .ok rfl
        rw [h.getDouble_eq hdouble]
        exact .error rfl

/-- The ideal words are those in use. -/
theorem words_eq (h : Refines level host vm p) : p.words = vm.words := by
  rcases h.shows with ⟨out, rfl, _⟩
  rfl

/-- There are as many ideal words as slots in use. -/
theorem size_eq (h : Refines level host vm p) : vm.slots.size = p.words.length := by
  rw [h.words_eq]
  exact h.wellFramed.slots.size_eq

/-- The base is shown as it is. -/
theorem base_eq (h : Refines level host vm p) : p.base = vm.base := by
  rcases h.shows with ⟨out, rfl, _⟩
  rfl

/-- The mark in front of the frame. -/
theorem mark (h : Refines level host vm p) {base : Nat} (hbase : p.base = base) (index : Nat) :
    Refines level host (if base = index then vm.print "| " else vm)
      (if p.base = index then p.print "| " else p) ∧
    (if p.base = index then p.print "| " else p).base = base := by
  subst hbase
  split
  · exact ⟨h.print _, rfl⟩
  · exact ⟨h, rfl⟩

/-- The loop that dumps the slots, by induction on its turns. -/
theorem printSlotsFrom (h : Refines level host vm p) (sec : Sections) {base : Nat}
    (hbase : p.base = base) {turns index : Nat} :
    Mirrors level (Refines level host) (printSlotsFrom host base turns index vm)
      (Ideal.printSlotsFrom (host.program sec) turns index p) := by
  induction turns generalizing vm p index with
  | zero => exact .error rfl
  | succ turns ih =>
      rcases h.mark hbase index with ⟨hmarked, hbase'⟩
      unfold ClojitCvm.printSlotsFrom Ideal.printSlotsFrom
      dsimp only
      generalize (if base = index then vm.print "| " else vm) = marked at hmarked ⊢
      generalize (if p.base = index then p.print "| " else p) = p' at hmarked hbase' ⊢
      rcases slotsGet_eq hmarked.wellFramed.slots index with ⟨slots, hrep, hread⟩
      rw [hread, hmarked.words_eq, hmarked.wellFramed.slots.size_eq]
      by_cases hi : index < marked.words.length
      · rw [if_pos hi, List.getElem?_eq_getElem hi]
        have hslots := hmarked.setSlots hrep
        change Mirrors level _
          (do
            let text ← ClojitCvm.printSlot host { marked with slots := slots }
              host.nativeLimit marked.words[index]
            let vm := ({ marked with slots := slots }.print text).print " "
            if index + 1 = vm.slots.size then return vm.print "\n"
            else ClojitCvm.printSlotsFrom host base turns (index + 1) vm)
          (do
            let text ← p'.printSlot (host.program sec) host.nativeLimit marked.words[index]
            let p := (p'.print text).print " "
            if index + 1 = p.words.length then return p.print "\n"
            else Ideal.printSlotsFrom (host.program sec) turns (index + 1) p)
        refine (hslots.printSlot sec _ _).bind ?_
        rintro text _ rfl
        have hprinted := (hslots.print text).print " "
        refine Follows.ite (by rw [hprinted.size_eq]) (fun _ => ?_) fun _ => ?_
        · exact .ok (hprinted.print "\n")
        · exact ih hprinted hbase'
      · rw [if_neg hi, List.getElem?_eq_none (by omega)]
        exact ih hmarked hbase'

/-- The whole dump. -/
theorem printSlots (h : Refines level host vm p) (sec : Sections) :
    Mirrors level (Refines level host) (printSlots host vm vm.base)
      (p.printSlots (host.program sec)) :=
  h.printSlotsFrom sec h.base_eq

end Refines

end ClojitCvm
