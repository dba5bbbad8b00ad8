import ClojitCvm.Heap.ObjectFormat
import ClojitCvm.Lib.Tiling

/-!
# Scanning objects

The collector asks the scan method for every reference in a range of objects.  The
method walks over the objects, and over the bytes of each, but it hands
{lit}`MPS_FIX12` the address of its own loop variable and not the address of a field.

Main results:

- Theorem {lit}`objScan_of_stable`: what the method passes when the collector leaves
  the loop variable alone.
- Theorem {lit}`objScan_exact_iff`: the locations passed are the fields of the range
  exactly when the range holds no object that has fields to scan.
-/

namespace ClojitCvm

open ByteMemory Tiling

/-! ## The scan method -/

/-- What can be passed to {lit}`MPS_FIX12`: a place in memory, or the local variable
{lit}`ref` of the method. -/
inductive Location where
  | memory (a : Nat)
  | localRef
deriving DecidableEq, Repr

/-- {lit}`MPS_FIX12` fixes the reference stored at a location: it gives a result code
and the reference that is stored there afterwards. -/
abbrev Fix12 := Nat → Nat × Nat

variable (fix : Fix12)

/-- The inner loop over {lit}`ref`, with the locations passed and the result code.  A
turn steps the {lit}`void *` by one byte; {lean}`none` is a loop of more turns than
the fuel. -/
def scanRefs : (fuel ref refLimit : Nat) → Option (List Location × Nat)
  | 0, _, _ => none
  | fuel + 1, ref, refLimit =>
      if ref < refLimit then
        match fix ref with
        | (res, ref) =>
            if res ≠ mpsResOk then some ([.localRef], res)
            else
              (scanRefs fuel (ref + 1) refLimit).map fun (locs, res) =>
                (.localRef :: locs, res)
      else some ([], mpsResOk)

/-- The outer loop over the objects. -/
def objScan (mem : Memory) : (fuel base limit : Nat) → Option (List Location × Nat)
  | 0, _, _ => none
  | fuel + 1, base, limit =>
      if base < limit then
        if objType mem base = objMpsTypeObject then
          match scanRefs fix fuel (base + headerSize) (base + headerSize + objSize mem base) with
          | none => none
          | some (locs, res) =>
              if res ≠ mpsResOk then some (locs, res)
              else
                (objScan mem fuel (base + objSize mem base) limit).map fun (rest, res) =>
                  (locs ++ rest, res)
        else objScan mem fuel (base + objSize mem base) limit
      else some ([], mpsResOk)

/-! ## Ranges of objects -/

/-- An object of a range: its kind and its size. -/
structure Tile where
  type : Byte
  size : Nat
deriving DecidableEq, Repr

/-- The end of a range. -/
def endOf (base : Nat) : List Tile → Nat
  | [] => base
  | tile :: tiles => endOf (base + tile.size) tiles

/-- The objects stand one behind the other, each with a header that gives its kind and
its size. -/
def Objects (mem : Memory) (base : Nat) : List Tile → Prop
  | [] => True
  | tile :: tiles =>
      objType mem base = tile.type ∧ objSize mem base = tile.size ∧ headerSize ≤ tile.size ∧
        Objects mem (base + tile.size) tiles

/-- The places of the fields of the objects in a range. -/
def fieldsOf (base : Nat) : List Tile → List Location
  | [] => []
  | tile :: tiles =>
      (if tile.type = objMpsTypeObject then
        (List.range ((tile.size - headerSize) / 8)).map fun i => .memory (refAt base i)
      else []) ++ fieldsOf (base + tile.size) tiles

/-- The method ends and passes exactly the fields, each once. -/
def ScansExactly (mem : Memory) (base : Nat) (tiles : List Tile) : Prop :=
  ∃ fuel locs res, objScan fix mem fuel base (endOf base tiles) = some (locs, res) ∧
    locs.Perm (fieldsOf base tiles)

instance (mem : Memory) : (base : Nat) → (tiles : List Tile) → Decidable (Objects mem base tiles)
  | _, [] => isTrue trivial
  | base, tile :: tiles =>
      have := instDecidableObjects mem (base + tile.size) tiles
      inferInstanceAs (Decidable (_ ∧ _ ∧ _ ∧ _))

/-- The header of an object of a range at its place. -/
def HeaderAt (mem : Memory) (place : Nat) (tile : Tile) : Prop :=
  objType mem place = tile.type ∧ objSize mem place = tile.size ∧ headerSize ≤ tile.size

/-- Objects one behind the other are a tiling. -/
theorem objects_iff_tiled {mem : Memory} {base : Nat} {tiles : List Tile} :
    Objects mem base tiles ↔ Tiled Tile.size (HeaderAt mem) base tiles := by
  induction tiles generalizing base with
  | nil => exact Iff.rfl
  | cons tile tiles ih => simp only [Objects, Tiled, HeaderAt, ih, and_assoc]

theorem endOf_eq (base : Nat) (tiles : List Tile) :
    endOf base tiles = base + extent Tile.size tiles := by
  induction tiles generalizing base with
  | nil => rfl
  | cons tile tiles ih => rw [endOf, ih, extent_cons, Nat.add_assoc]

theorem base_le_endOf {base : Nat} (tiles : List Tile) : base ≤ endOf base tiles := by
  rw [endOf_eq]
  exact Nat.le_add_right base _

/-- Every object takes some room. -/
theorem base_lt_endOf (base : Nat) {tile : Tile} (tiles : List Tile)
    (hheader : headerSize ≤ tile.size) : base < endOf base (tile :: tiles) := by
  have hle : base + tile.size ≤ endOf base (tile :: tiles) := base_le_endOf tiles
  unfold headerSize at hheader
  omega

/-! ## What is passed -/

variable {fix}

/-- A finished inner loop over at least one byte passes the loop variable. -/
theorem localRef_mem_scanRefs {fuel ref refLimit res : Nat} {locs : List Location}
    (hlt : ref < refLimit) (h : scanRefs fix fuel ref refLimit = some (locs, res)) :
    .localRef ∈ locs := by
  cases fuel with
  | zero => cases h
  | succ fuel =>
      rw [scanRefs, if_pos hlt] at h
      split at h
      split at h
      · cases h
        simp
      · rcases Option.map_eq_some_iff.mp h with ⟨_, _, hlocs⟩
        cases hlocs
        simp

/-- A finished scan of a range with an object passes the loop variable. -/
theorem localRef_mem_objScan {mem : Memory} {fuel base res : Nat} {tiles : List Tile}
    {locs : List Location} (htiles : Objects mem base tiles)
    (hobject : ∃ tile ∈ tiles, tile.type = objMpsTypeObject)
    (h : objScan fix mem fuel base (endOf base tiles) = some (locs, res)) :
    .localRef ∈ locs := by
  induction tiles generalizing fuel base locs with
  | nil => simp at hobject
  | cons tile tiles ih =>
      obtain ⟨htype, hsize, hheader, hrest⟩ := htiles
      have hlt := base_lt_endOf base tiles hheader
      cases fuel with
      | zero => cases h
      | succ fuel =>
          rw [objScan, if_pos hlt, htype, hsize] at h
          split at h
          · -- the object's own inner loop
            split at h
            · cases h
            · next hscan =>
              have hmem := localRef_mem_scanRefs (by unfold headerSize at *; omega) hscan
              split at h
              · cases h
                exact hmem
              · rcases Option.map_eq_some_iff.mp h with ⟨_, _, hlocs⟩
                cases hlocs
                exact List.mem_append_left _ hmem
          · next hother =>
            apply ih hrest _ h
            rcases hobject with ⟨object, hmem, hkind⟩
            rcases List.mem_cons.mp hmem with rfl | hmem
            · exact absurd hkind hother
            · exact ⟨object, hmem, hkind⟩

/-- A range without objects is walked over and nothing is passed. -/
theorem objScan_of_no_object {mem : Memory} {base : Nat} {tiles : List Tile}
    (htiles : Objects mem base tiles) (hnone : ∀ tile ∈ tiles, tile.type ≠ objMpsTypeObject) :
    objScan fix mem (tiles.length + 1) base (endOf base tiles) = some ([], mpsResOk) := by
  induction tiles generalizing base with
  | nil => simp [objScan, endOf]
  | cons tile tiles ih =>
      obtain ⟨htype, hsize, hheader, hrest⟩ := htiles
      rw [List.forall_mem_cons] at hnone
      rw [List.length_cons, objScan, if_pos (base_lt_endOf base tiles hheader), htype, hsize,
        if_neg hnone.1]
      exact ih hrest hnone.2

theorem fieldsOf_of_no_object {base : Nat} {tiles : List Tile}
    (hnone : ∀ tile ∈ tiles, tile.type ≠ objMpsTypeObject) : fieldsOf base tiles = [] := by
  induction tiles generalizing base with
  | nil => rfl
  | cons tile tiles ih =>
      rw [List.forall_mem_cons] at hnone
      rw [fieldsOf, if_neg hnone.1, ih hnone.2, List.nil_append]

/-- The loop variable is no field. -/
theorem localRef_notMem_fieldsOf (base : Nat) (tiles : List Tile) :
    .localRef ∉ fieldsOf base tiles := by
  induction tiles generalizing base with
  | nil => simp [fieldsOf]
  | cons tile tiles ih =>
      rw [fieldsOf, List.mem_append, not_or]
      refine ⟨?_, ih _⟩
      split <;> simp

/-- Over a range of objects the scan method ends and passes exactly the fields, each
once, if and only if there is no object in the range that it scans at all. -/
theorem objScan_exact_iff (fix : Fix12) {mem : Memory} {base : Nat} {tiles : List Tile}
    (htiles : Objects mem base tiles) :
    ScansExactly fix mem base tiles ↔ ∀ tile ∈ tiles, tile.type ≠ objMpsTypeObject := by
  constructor
  · rintro ⟨fuel, locs, res, hscan, hperm⟩ tile htile hobject
    have hmem := localRef_mem_objScan htiles ⟨tile, htile, hobject⟩ hscan
    exact localRef_notMem_fieldsOf base tiles (hperm.mem_iff.mp hmem)
  · intro hnone
    refine ⟨tiles.length + 1, [], mpsResOk, objScan_of_no_object htiles hnone, ?_⟩
    rw [fieldsOf_of_no_object hnone]

/-! ## The locations that are passed -/

/-- The inner loop passes the loop variable once for every byte of the size. -/
theorem scanRefs_of_stable (hstable : ∀ ref, fix ref = (mpsResOk, ref)) {fuel : Nat}
    (ref n : Nat) (hfuel : n < fuel) :
    scanRefs fix fuel ref (ref + n) = some (List.replicate n .localRef, mpsResOk) := by
  induction fuel generalizing ref n with
  | zero => omega
  | succ fuel ih =>
      cases n with
      | zero => simp [scanRefs]
      | succ n =>
          have hrest := ih (ref + 1) n (by omega)
          rw [Nat.add_right_comm ref 1 n] at hrest
          rw [scanRefs, if_pos (by omega), hstable]
          simp only [ne_eq, not_true_eq_false, if_false]
          rw [← Nat.add_assoc ref n 1, hrest]
          rfl

/-- The bytes of all objects of a range, headers included. -/
def objectBytes : List Tile → Nat
  | [] => 0
  | tile :: tiles =>
      (if tile.type = objMpsTypeObject then tile.size else 0) + objectBytes tiles

/-- When the collector leaves the loop variable alone, the method passes it once for
every byte of every object and passes nothing else. -/
theorem objScan_of_stable (hstable : ∀ ref, fix ref = (mpsResOk, ref)) {mem : Memory}
    {fuel base : Nat} {tiles : List Tile} (htiles : Objects mem base tiles)
    (hfuel : tiles.length + objectBytes tiles < fuel) :
    objScan fix mem fuel base (endOf base tiles) =
      some (List.replicate (objectBytes tiles) .localRef, mpsResOk) := by
  induction tiles generalizing fuel base with
  | nil =>
      cases fuel with
      | zero => omega
      | succ fuel => simp [objScan, endOf, objectBytes]
  | cons tile tiles ih =>
      obtain ⟨htype, hsize, hheader, hrest⟩ := htiles
      rw [List.length_cons, objectBytes] at hfuel
      cases fuel with
      | zero => omega
      | succ fuel =>
          rw [objScan, if_pos (base_lt_endOf base tiles hheader), htype, hsize, objectBytes]
          split
          · next hobject =>
            rw [if_pos hobject] at hfuel
            rw [scanRefs_of_stable hstable _ _ (by omega)]
            simp only [ne_eq, not_true_eq_false, if_false]
            rw [endOf, ih hrest (by omega), Option.map_some, List.replicate_append_replicate]
          · next hother =>
            rw [if_neg hother] at hfuel
            rw [endOf, ih hrest (by omega), Nat.zero_add]

/-! ## Ranges the machine lays out -/

theorem objects_append {mem : Memory} {base : Nat} {front back : List Tile} :
    Objects mem base (front ++ back) ↔
      Objects mem base front ∧ Objects mem (endOf base front) back := by
  rw [objects_iff_tiled, objects_iff_tiled, objects_iff_tiled, tiled_append, endOf_eq]

/-- The header of an object depends on the object's own bytes only. -/
theorem HeaderAt.congr {mem mem' : Memory} {place : Nat} {tile : Tile}
    (h : HeaderAt mem place tile)
    (hsame : ∀ x, place ≤ x → x < place + tile.size → mem' x = mem x) :
    HeaderAt mem' place tile := by
  obtain ⟨htype, hsize, hheader⟩ := h
  have hword := objSize_congr fun x hx hx' => hsame x hx (by omega)
  unfold headerSize at hheader
  have hkind := hsame place (Nat.le_refl place) (by omega)
  exact ⟨hkind.trans htype, hword.trans hsize, hheader⟩

/-- A range depends on its own bytes only. -/
theorem Objects.congr {mem mem' : Memory} {base : Nat} {tiles : List Tile}
    (h : Objects mem base tiles)
    (hsame : ∀ x, base ≤ x → x < endOf base tiles → mem' x = mem x) :
    Objects mem' base tiles := by
  rw [objects_iff_tiled] at h ⊢
  rw [endOf_eq] at hsame
  apply h.imp
  intro place tile hle hend htile
  exact htile.congr fun x hx hx' => hsame x (by omega) (by omega)

/-- A new object behind a range makes it longer. -/
theorem Objects.append_initObj {mem : Memory} {base : Nat} {tiles : List Tile}
    (h : Objects mem base tiles) {size : BitVec 32} (cljtype : BitVec 16) (mpstype : Byte)
    (hsize : headerSize ≤ size.toNat) :
    Objects (initObj mem (endOf base tiles) size cljtype mpstype) base
      (tiles ++ [⟨mpstype, size.toNat⟩]) := by
  rw [objects_append]
  obtain ⟨htype, _, hword⟩ := initObj_header mem (endOf base tiles) size cljtype mpstype
  refine ⟨h.congr fun x _ hx => initObj_outside hsize (by omega), htype, hword, hsize, trivial⟩

/-- Padding behind a range makes it longer, as long as its size fits the header. -/
theorem Objects.append_objPad {mem : Memory} {base size : Nat} {tiles : List Tile}
    (h : Objects mem base tiles) (hheader : headerSize ≤ size) (hsize : size < 2 ^ 32) :
    Objects (objPad mem (endOf base tiles) size) base
      (tiles ++ [⟨objMpsTypePadding, size⟩]) := by
  rw [objects_append]
  obtain ⟨htype, hword⟩ := objPad_header mem (endOf base tiles) hsize
  refine ⟨h.congr fun x _ hx => ?_, htype, hword, hheader, trivial⟩
  exact objPad_outside (.inl hx)

/-- Forwarding an object with a field changes its kind and nothing else of the
range. -/
theorem Objects.forward {mem : Memory} {base new : Nat} {front back : List Tile}
    {tile : Tile} (h : Objects mem base (front ++ tile :: back)) (hnew : new < 2 ^ 64)
    (hfield : headerSize + 8 ≤ tile.size) :
    Objects (objFwd mem (endOf base front) new) base
      (front ++ ⟨objMpsTypeForward, tile.size⟩ :: back) := by
  rw [objects_iff_tiled] at h ⊢
  rw [endOf_eq]
  obtain ⟨htype, hword, _⟩ := objFwd_header mem (base + extent Tile.size front) new hnew
  obtain ⟨_, hsize, hheader⟩ := h.middle
  unfold headerSize at hfield
  have hrange : Tiled Tile.size (HeaderAt mem) base (front ++ ([tile] ++ back)) := h
  refine hrange.replace rfl ⟨htype, hword.trans hsize, hheader⟩ ?_
  intro place other hout hother
  apply hother.congr
  intro x hle hlt
  rw [extent_cons, extent_nil] at hout
  exact objFwd_outside (by omega)

/-! ## A forwarded object and a live one -/

/-- A range of a forwarded object and padding. -/
def forwardedRange : Memory :=
  objPad (objFwd (initObj (fun _ => 0) 16 16 7 objMpsTypeObject) 16 64) 32 24

/-- Nothing is passed for the forwarded object and the padding. -/
theorem forwardedRange_scansExactly :
    ScansExactly (fun ref => (mpsResOk, ref)) forwardedRange 16
      [⟨objMpsTypeForward, 16⟩, ⟨objMpsTypePadding, 24⟩] := by
  rw [objScan_exact_iff _ (by unfold forwardedRange; decide)]
  simp [objMpsTypeForward, objMpsTypePadding, objMpsTypeObject]

/-- The scan method is not exact on every range: for a new object with one field it
passes the address of its loop variable. -/
theorem newObject_not_scansExactly :
    ¬ ∀ (fix : Fix12) (mem : Memory) (base : Nat) (tiles : List Tile),
      Objects mem base tiles → ScansExactly fix mem base tiles := by
  intro h
  have hobjects : Objects (initObj (fun _ => 0) 16 16 7 objMpsTypeObject) 16
      [⟨objMpsTypeObject, 16⟩] := by decide
  obtain ⟨fuel, locs, res, hscan, hperm⟩ :=
    h (fun ref => (mpsResOk, ref)) _ 16 _ hobjects
  have hmem := localRef_mem_objScan hobjects ⟨_, List.mem_singleton.mpr rfl, rfl⟩ hscan
  exact localRef_notMem_fieldsOf _ _ (hperm.mem_iff.mp hmem)

end ClojitCvm
