import Mathlib.Data.List.Basic
import Mathlib.Logic.Function.Iterate
import Mathlib.Tactic.Common

/-!
# Tilings of a range

A range of addresses is covered by tiles, one behind the other, and something is known of
every tile at its place.  Tiles can be of any type that has a size.

Main results:

- Theorem {lit}`Tiled.replace`: a run of tiles can be replaced by one tile of the same
  extent.
- Theorem {lit}`Tiled.iterate`: stepping over tiles visits their places and nothing else.
-/

namespace Tiling

variable {α : Type*} {size : α → Nat} {holds holds' : Nat → α → Prop}
    {tile : α} {tiles front back : List α} {base : Nat}

/-! ## Extents -/

/-- The room that a run of tiles takes. -/
def extent (size : α → Nat) : List α → Nat
  | [] => 0
  | tile :: tiles => size tile + extent size tiles

@[simp]
theorem extent_nil (size : α → Nat) : extent size [] = 0 := rfl

@[simp]
theorem extent_cons (size : α → Nat) (tile : α) (tiles : List α) :
    extent size (tile :: tiles) = size tile + extent size tiles := rfl

@[simp]
theorem extent_append (size : α → Nat) (front back : List α) :
    extent size (front ++ back) = extent size front + extent size back := by
  induction front with
  | nil => rw [List.nil_append, extent_nil, Nat.zero_add]
  | cons tile front ih => rw [List.cons_append, extent_cons, extent_cons, ih, Nat.add_assoc]

/-! ## Tiles in their places -/

/-- Every tile is where the tiles in front of it end. -/
def Tiled (size : α → Nat) (holds : Nat → α → Prop) : Nat → List α → Prop
  | _, [] => True
  | base, tile :: tiles => holds base tile ∧ Tiled size holds (base + size tile) tiles

theorem tiled_append :
    Tiled size holds base (front ++ back) ↔
      Tiled size holds base front ∧ Tiled size holds (base + extent size front) back := by
  induction front generalizing base with
  | nil => simp [Tiled]
  | cons tile front ih =>
      simp only [List.cons_append, Tiled, ih, extent_cons, and_assoc, Nat.add_assoc]

/-- The tile behind a run of tiles. -/
theorem Tiled.middle (h : Tiled size holds base (front ++ tile :: back)) :
    holds (base + extent size front) tile :=
  (tiled_append.mp h).2.1

/-- What is known of tiles can be changed tile by tile. -/
theorem Tiled.imp (h : Tiled size holds base tiles)
    (himp : ∀ place tile, base ≤ place → place + size tile ≤ base + extent size tiles →
      holds place tile → holds' place tile) : Tiled size holds' base tiles := by
  induction tiles generalizing base with
  | nil => trivial
  | cons tile tiles ih =>
      rw [extent_cons] at himp
      refine ⟨himp base tile (Nat.le_refl base) (by omega) h.1, ih h.2 ?_⟩
      intro place tile' hle hend
      exact himp place tile' (by omega) (by omega)

/-- A run of tiles is replaced by one tile of the same extent, if the tiles in front of it
and behind it stay. -/
theorem Tiled.replace {given : List α} (h : Tiled size holds base (front ++ (given ++ back)))
    (hsize : size tile = extent size given) (htile : holds' (base + extent size front) tile)
    (hstays : ∀ place other, place + size other ≤ base + extent size front ∨
        base + extent size front + extent size given ≤ place →
      holds place other → holds' place other) :
    Tiled size holds' base (front ++ tile :: back) := by
  rw [tiled_append, tiled_append] at h
  rcases h with ⟨hfront, _, hback⟩
  rw [tiled_append]
  refine ⟨hfront.imp fun place other _ hend => hstays place other (.inl hend), htile, ?_⟩
  rw [hsize]
  exact hback.imp fun place other hle _ => hstays place other (.inr hle)

/-! ## Walks -/

/-- A function that steps over every tile visits the places of the tiles in order. -/
theorem Tiled.iterate {skip : Nat → Nat} (h : Tiled size holds base tiles)
    (hskip : ∀ place tile, holds place tile → skip place = place + size tile) {k : Nat}
    (hk : k ≤ tiles.length) : skip^[k] base = base + extent size (tiles.take k) := by
  induction tiles generalizing base k with
  | nil =>
      obtain rfl : k = 0 := Nat.le_zero.mp hk
      rfl
  | cons tile tiles ih =>
      cases k with
      | zero => rfl
      | succ k =>
          rw [Function.iterate_succ_apply, hskip base tile h.1,
            ih h.2 (Nat.le_of_succ_le_succ hk), List.take_succ_cons, extent_cons, Nat.add_assoc]

end Tiling
