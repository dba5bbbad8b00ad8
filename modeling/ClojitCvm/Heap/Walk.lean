import ClojitCvm.Heap.ObjectFormat
import ClojitCvm.Lib.Tiling

/-!
# Walking over a block

The collector walks over a block of objects with {lit}`obj_skip` while it forwards objects
and replaces ranges of them by padding.  The tiles of the block say which objects there are
in the meantime.

Main results:

- Definition {lit}`Reached`: the memory and the tiles behind a sequence of calls.
- Theorem {lit}`Reached.tiled`: the headers of the block agree with the tiles.
- Theorem {lit}`walkable_iff`: the block can be walked over in every state of a run exactly
  when no padding is larger than its header can say.
-/

namespace ClojitCvm

open ByteMemory Tiling

/-! ## Tiles -/

/-- An object of a block, with the address it was forwarded to. -/
structure BlockTile where
  type : Byte
  size : Nat
  forward : Option (BitVec 64)
  size_ge : 16 ≤ size
  aligned : size % 8 = 0

/-- The header at the place of a tile, and the answer of {lit}`obj_isfwd`. -/
structure TileAt (mem : Memory) (place : Nat) (tile : BlockTile) : Prop where
  type_eq : objType mem place = tile.type
  size_eq : objSize mem place = tile.size
  isfwd_eq : objIsfwd mem place = tile.forward.getD 0#64

theorem extent_aligned (tiles : List BlockTile) : extent BlockTile.size tiles % 8 = 0 := by
  induction tiles with
  | nil => rfl
  | cons tile tiles ih =>
      have haligned := tile.aligned
      rw [extent_cons]
      omega

theorem le_extent {tiles : List BlockTile} (hne : tiles ≠ []) :
    16 ≤ extent BlockTile.size tiles := by
  cases tiles with
  | nil => exact absurd rfl hne
  | cons tile tiles =>
      have hsize := tile.size_ge
      rw [extent_cons]
      omega

def BlockTile.forwarded (tile : BlockTile) (new : BitVec 64) : BlockTile :=
  { tile with type := objMpsTypeForward, forward := some new }

/-- The padding that replaces a run of objects. -/
def paddingFor (given : List BlockTile) (hne : given ≠ []) : BlockTile where
  type := objMpsTypePadding
  size := extent BlockTile.size given
  forward := none
  size_ge := le_extent hne
  aligned := extent_aligned given

/-! ## New blocks -/

/-- The arguments of {lit}`mps_alloc_obj` for an object of a block. -/
structure NewObject where
  size : BitVec 32
  cljtype : BitVec 16
  mpstype : Byte
  size_ge : 16 ≤ size.toNat
  aligned : size.toNat % 8 = 0

def NewObject.tile (obj : NewObject) : BlockTile where
  type := obj.mpstype
  size := obj.size.toNat
  forward := none
  size_ge := obj.size_ge
  aligned := obj.aligned

/-- The memory with new objects one behind the other. -/
def layOut (mem : Memory) (base : Nat) : List NewObject → Memory
  | [] => mem
  | obj :: objs =>
      layOut (initObj mem base obj.size obj.cljtype obj.mpstype) (base + obj.size.toNat) objs

/-! ## Calls -/

/-- A call of {lit}`obj_fwd` or {lit}`obj_pad`. -/
inductive Call where
  | fwd (old : Nat) (new : BitVec 64)
  | pad (addr size : Nat)
deriving DecidableEq

/-- The first address that a call is given. -/
def Call.addr : Call → Nat
  | .fwd old _ => old
  | .pad addr _ => addr

def Call.apply (mem : Memory) : Call → Memory
  | .fwd old new => objFwd mem old new.toNat
  | .pad addr size => objPad mem addr size

/-- A call on the tiles behind some others: an object is forwarded, or a range from the start
of a tile to the end of a tile is padded.  The last argument takes the place of the tiles. -/
inductive Takes (base : Nat) (front : List BlockTile) :
    Call → List BlockTile → BlockTile → Prop
  | fwd {tile : BlockTile} {new : BitVec 64} (hobject : tile.type = objMpsTypeObject)
      (hnew : new ≠ 0#64) :
      Takes base front (.fwd (base + extent BlockTile.size front) new) [tile] (tile.forwarded new)
  | pad {given : List BlockTile} (hne : given ≠ []) :
      Takes base front
        (.pad (base + extent BlockTile.size front) (extent BlockTile.size given)) given
        (paddingFor given hne)

/-- The memory and the tiles of a block behind calls. -/
inductive Reached (mem₀ : Memory) (base : Nat) (objs : List NewObject) :
    List Call → Memory → List BlockTile → Prop
  | new : Reached mem₀ base objs [] (layOut mem₀ base objs) (objs.map NewObject.tile)
  | call {calls : List Call} {mem : Memory} {front given back : List BlockTile} {call : Call}
      {tile : BlockTile} (h : Reached mem₀ base objs calls mem (front ++ (given ++ back)))
      (htakes : Takes base front call given tile) :
      Reached mem₀ base objs (calls ++ [call]) (call.apply mem) (front ++ tile :: back)

/-! ## Walks -/

/-- What the collector relies on. -/
structure Walkable (mem : Memory) (base limit : Nat) (tiles : List BlockTile) : Prop where
  /-- Skipping objects visits the tiles. -/
  visits : ∀ k ≤ tiles.length,
    (objSkip mem)^[k] base = base + extent BlockTile.size (tiles.take k)
  ends : (objSkip mem)^[tiles.length] base = limit
  isfwd : ∀ front tile back, tiles = front ++ tile :: back →
    objIsfwd mem (base + extent BlockTile.size front) = tile.forward.getD 0#64
  /-- Whatever is called, nothing changes outside of the tiles it is given. -/
  frame : ∀ front given back call tile, tiles = front ++ (given ++ back) →
    Takes base front call given tile →
      ∀ x, x < call.addr ∨ call.addr + extent BlockTile.size given ≤ x →
        call.apply mem x = mem x

/-- The size of padding fits the header. -/
def Call.Fits : Call → Prop
  | .fwd _ _ => True
  | .pad _ size => size < 2 ^ 32

instance : (call : Call) → Decidable call.Fits
  | .fwd _ _ => isTrue trivial
  | .pad _ size => inferInstanceAs (Decidable (size < 2 ^ 32))

section Calls

variable {mem mem' mem₀ : Memory} {base place : Nat} {objs : List NewObject}
    {front given back tiles : List BlockTile} {tile : BlockTile} {call : Call}
    {calls : List Call}

/-- A tile depends on its own bytes only. -/
theorem TileAt.congr (h : TileAt mem place tile)
    (hsame : ∀ x, place ≤ x → x < place + tile.size → mem' x = mem x) :
    TileAt mem' place tile := by
  have hsize := tile.size_ge
  have htype : objType mem' place = objType mem place := hsame place (Nat.le_refl _) (by omega)
  have hword := objSize_congr fun x hx hx' => hsame x hx (by unfold headerSize at hx'; omega)
  have href : objRef mem' place 0 = objRef mem place 0 := by
    apply congrArg (BitVec.ofNat 64)
    apply loadLE_congr
    intro i hi
    exact hsame _ (by unfold refAt headerSize; omega) (by unfold refAt headerSize; omega)
  refine ⟨htype.trans h.type_eq, hword.trans h.size_eq, ?_⟩
  rw [objIsfwd, htype, href]
  exact h.isfwd_eq

theorem Takes.addr_eq (h : Takes base front call given tile) :
    call.addr = base + extent BlockTile.size front := by
  cases h with
  | fwd hobject hnew => rfl
  | pad hne => rfl

/-- A call changes nothing outside the tiles it is given. -/
theorem Takes.frame (h : Takes base front call given tile) {x : Nat}
    (hx : x < call.addr ∨ call.addr + extent BlockTile.size given ≤ x) :
    call.apply mem x = mem x := by
  rw [h.addr_eq] at hx
  cases h with
  | @fwd tile new hobject hnew =>
      have hsize := tile.size_ge
      simp only [extent_cons, extent_nil] at hx
      exact objFwd_outside (by omega)
  | pad hne =>
      have hsize := le_extent hne
      exact objPad_outside (by omega)

/-- The new tile takes the room of the tiles that are given. -/
theorem Takes.size_eq (h : Takes base front call given tile) :
    tile.size = extent BlockTile.size given := by
  cases h with
  | fwd hobject hnew => rfl
  | pad hne => rfl

/-- The new tile is there behind the call, if its size fits the header. -/
theorem Takes.tileAt (h : Takes base front call given tile) (hfits : call.Fits)
    (htiled : Tiled BlockTile.size (TileAt mem) base (front ++ (given ++ back))) :
    TileAt (call.apply mem) (base + extent BlockTile.size front) tile := by
  cases h with
  | @fwd tile new hobject hnew =>
      rcases objFwd_header mem (base + extent BlockTile.size front) new.toNat new.isLt with
        ⟨htype, hsize, hisfwd⟩
      refine ⟨htype, hsize.trans htiled.middle.size_eq, hisfwd.trans ?_⟩
      rw [BitVec.ofNat_toNat, BitVec.setWidth_eq]
      rfl
  | pad hne =>
      rcases objPad_header mem (base + extent BlockTile.size front) hfits with ⟨htype, hsize⟩
      refine ⟨htype, hsize, ?_⟩
      rw [objIsfwd, Call.apply, htype]
      rfl

/-- One call. -/
theorem Takes.tiled (h : Takes base front call given tile) (hfits : call.Fits)
    (htiled : Tiled BlockTile.size (TileAt mem) base (front ++ (given ++ back))) :
    Tiled BlockTile.size (TileAt (call.apply mem)) base (front ++ tile :: back) := by
  refine htiled.replace h.size_eq (h.tileAt hfits htiled) ?_
  intro place other hout hother
  apply hother.congr
  intro x hle hlt
  have haddr := h.addr_eq
  exact h.frame (by omega)

/-! ## Runs -/

/-- New objects are tiles. -/
theorem layOut_tiled (mem : Memory) (base : Nat) (objs : List NewObject) :
    Tiled BlockTile.size (TileAt (layOut mem base objs)) base (objs.map NewObject.tile) ∧
      ∀ x < base, layOut mem base objs x = mem x := by
  induction objs generalizing mem base with
  | nil => exact ⟨trivial, fun _ _ => rfl⟩
  | cons obj objs ih =>
      have hsize := obj.size_ge
      rcases ih (initObj mem base obj.size obj.cljtype obj.mpstype) (base + obj.size.toNat) with
        ⟨htiles, hbelow⟩
      rcases initObj_header mem base obj.size obj.cljtype obj.mpstype with ⟨htype, _, hword⟩
      have href := initObj_ref mem base obj.size obj.cljtype obj.mpstype (i := 0)
        (by unfold headerSize; omega)
      have hnew : TileAt (initObj mem base obj.size obj.cljtype obj.mpstype) base obj.tile := by
        refine ⟨htype, hword, ?_⟩
        rw [objIsfwd, href]
        split <;> rfl
      refine ⟨⟨hnew.congr fun x _ hx => hbelow x hx, htiles⟩, ?_⟩
      intro x hx
      rw [layOut, hbelow x (by omega), initObj_outside (by unfold headerSize; omega) (.inl hx)]

/-- The block keeps its end. -/
theorem Reached.extent_eq (h : Reached mem₀ base objs calls mem tiles) :
    extent BlockTile.size tiles = extent BlockTile.size (objs.map NewObject.tile) := by
  induction h with
  | new => rfl
  | call h htakes ih =>
      rw [← ih, extent_append, extent_append, extent_append, extent_cons, htakes.size_eq]

/-- The headers agree with the tiles as long as all paddings fit. -/
theorem Reached.tiled (h : Reached mem₀ base objs calls mem tiles)
    (hfits : ∀ call ∈ calls, call.Fits) :
    Tiled BlockTile.size (TileAt mem) base tiles := by
  induction h with
  | new => exact (layOut_tiled mem₀ base objs).1
  | call h htakes ih =>
      rw [List.forall_mem_append, List.forall_mem_singleton] at hfits
      exact htakes.tiled hfits.2 (ih hfits.1)

/-- The collector can rely on headers that agree with the tiles. -/
theorem walkable_of_tiled (h : Tiled BlockTile.size (TileAt mem) base tiles) :
    Walkable mem base (base + extent BlockTile.size tiles) tiles := by
  have hskip : ∀ place tile, TileAt mem place tile → objSkip mem place = place + tile.size := by
    intro place tile htile
    rw [objSkip, htile.size_eq]
  refine ⟨fun k hk => h.iterate hskip hk, ?_, ?_, ?_⟩
  · rw [h.iterate hskip (Nat.le_refl _), List.take_length]
  · rintro front tile back rfl
    exact h.middle.isfwd_eq
  · intro front given back call tile _ htakes x hx
    exact htakes.frame hx

/-- Behind a padding that can be walked over the size fits the header. -/
theorem Takes.fits_of_walkable {limit : Nat} (h : Takes base front call given tile)
    (hwalk : Walkable (call.apply mem) base limit (front ++ tile :: back)) : call.Fits := by
  cases h with
  | fwd hobject hnew => trivial
  | @pad given hne =>
      have hstart := hwalk.visits front.length (by simp)
      have hnext := hwalk.visits (front.length + 1) (by simp)
      rw [List.take_left] at hstart
      rw [Function.iterate_succ_apply', hstart, List.take_length_add_append, extent_append] at hnext
      have hsize : objSize (Call.apply mem (.pad (base + extent BlockTile.size front)
          (extent BlockTile.size given))) (base + extent BlockTile.size front) =
          extent BlockTile.size given := by
        unfold objSkip at hnext
        change _ = base + (extent BlockTile.size front + extent BlockTile.size given) at hnext
        omega
      rw [Call.Fits, ← hsize]
      exact loadLE_lt _ _ 4

/-- In every run of calls on a block of new objects, the collector can rely on the block in
all states of the run if and only if every range that is padded is smaller than four
gigabytes. -/
theorem walkable_iff (h : Reached mem₀ base objs calls mem tiles) :
    (∀ done, done <+: calls → ∀ mem tiles, Reached mem₀ base objs done mem tiles →
      Walkable mem base (base + extent BlockTile.size (objs.map NewObject.tile)) tiles) ↔
    ∀ call ∈ calls, call.Fits := by
  constructor
  · intro hwalk
    induction h with
    | new => simp
    | @call calls mem front given back call tile h htakes ih =>
        rw [List.forall_mem_append, List.forall_mem_singleton]
        refine ⟨ih fun done hdone => hwalk done (hdone.trans (List.prefix_append ..)), ?_⟩
        exact htakes.fits_of_walkable (hwalk _ (List.prefix_refl _) _ _ (h.call htakes))
  · intro hfits done hdone mem tiles hreached
    rw [← hreached.extent_eq]
    exact walkable_of_tiled (hreached.tiled fun call hcall => hfits call (hdone.mem hcall))

end Calls

/-! ## A small block and a large one -/

/-- An object with one field. -/
def smallObject : NewObject :=
  ⟨16#32, 7#16, objMpsTypeObject, by decide, by decide⟩

/-- The first of two objects is forwarded, and then both are padded. -/
def smallCalls : List Call :=
  [.fwd 4096 64#64, .pad 4096 32]

theorem smallBlock_reached :
    Reached (fun _ => 0#8) 4096 [smallObject, smallObject] smallCalls
      (smallCalls.foldl Call.apply (layOut (fun _ => 0#8) 4096 [smallObject, smallObject]))
      [paddingFor [smallObject.tile.forwarded 64#64, smallObject.tile] (by decide)] := by
  have hforwarded := @Reached.call _ 4096 _ _ _ [] [smallObject.tile] [smallObject.tile] _ _
    (@Reached.new (fun _ => 0#8) 4096 [smallObject, smallObject])
    (.fwd rfl (by decide : 64#64 ≠ 0#64))
  have hpad := @Takes.pad 4096 [] [smallObject.tile.forwarded 64#64, smallObject.tile] (by decide)
  exact @Reached.call _ 4096 _ _ _ [] [smallObject.tile.forwarded 64#64, smallObject.tile] [] _ _
    hforwarded hpad

theorem smallBlock_walkable :
    Walkable (smallCalls.foldl Call.apply (layOut (fun _ => 0#8) 4096 [smallObject, smallObject]))
      4096 4128 [paddingFor [smallObject.tile.forwarded 64#64, smallObject.tile] (by decide)] :=
  (walkable_iff smallBlock_reached).mpr (by decide) smallCalls (List.prefix_refl _) _ _
    smallBlock_reached

/-- An object of two gigabytes. -/
def largeObject : NewObject :=
  ⟨0x80000000#32, 7#16, objMpsTypeObject, by decide, by decide⟩

/-- The padding over two such objects has the size zero in its header: the collector does
not get past it. -/
theorem largeBlock_not_walkable :
    ∃ mem tiles, Reached (fun _ => 0#8) 4096 [largeObject, largeObject] [.pad 4096 (2 ^ 32)]
        mem tiles ∧
      objSkip mem 4096 = 4096 ∧ ¬ Walkable mem 4096 (4096 + 2 ^ 32) tiles := by
  have htakes : Takes 4096 [] (.pad 4096 (2 ^ 32)) [largeObject.tile, largeObject.tile] _ :=
    @Takes.pad 4096 [] [largeObject.tile, largeObject.tile] (by decide)
  refine ⟨_, _, @Reached.call _ 4096 _ _ _ [] [largeObject.tile, largeObject.tile] [] _ _
    (@Reached.new (fun _ => 0#8) 4096 [largeObject, largeObject]) htakes, ?_, ?_⟩
  · rw [objSkip, Call.apply, objSize_objPad, Nat.mod_self]
  · intro hwalk
    have hfits : 2 ^ 32 < 2 ^ 32 := htakes.fits_of_walkable hwalk
    omega

end ClojitCvm
