import ClojitCvm.Lib.CellArray

/-!
# Copies inside one array

A loop copies a range of a growable array to another place of the same array, one element
at a time from the lowest.  When the target begins inside the source, the loop reads
elements that it has written before.

Main results:

- Definition {lit}`copyForward`: the loop.
- Theorem {lit}`copyForward_copied`: where every element of the result comes from.
- Theorem {lit}`length_copyForward`: how long the result is.
-/

namespace ForwardCopy

open CellArray

variable {α : Type*}

/-- The turns of the loop from offset {lit}`i` on.  It stops at an element that is missing. -/
def copyForward (pad : α) (source target : Nat) : (turns i : Nat) → List α → Option (List α)
  | 0, _, xs => some xs
  | turns + 1, i, xs => (xs[source + i]?).bind fun v =>
      copyForward pad source target turns (i + 1) (assign pad xs (target + i) v)

/-- The element that ends up at an offset of the target: the range repeats when the target
begins inside the source. -/
def sourceIndex (source target i : Nat) : Nat :=
  if source < target then source + i % (target - source) else source + i

/-- The result of so many turns: the elements that were there have been moved or kept. -/
structure Copied (source target n : Nat) (xs ys : List α) : Prop where
  moved : ∀ i < n, ∀ v, xs[sourceIndex source target i]? = some v → ys[target + i]? = some v
  kept : ∀ j v, xs[j]? = some v → j < target ∨ target + n ≤ j → ys[j]? = some v

variable {source target n : Nat} {xs ys : List α} {v : α} {pad : α}

/-- Ranges that do not repeat are moved as they are. -/
theorem sourceIndex_of_apart {i : Nat} (h : target ≤ source ∨ n ≤ target - source)
    (hi : i < n) : sourceIndex source target i = source + i := by
  unfold sourceIndex
  split
  · rw [Nat.mod_eq_of_lt (by omega)]
  · rfl

theorem Copied.refl (source target : Nat) (xs : List α) : Copied source target 0 xs xs :=
  ⟨fun _ hi => absurd hi (Nat.not_lt_zero _), fun _ _ hj _ => hj⟩

/-- What the next turn reads is the element that belongs there. -/
theorem Copied.read (h : Copied source target n xs ys)
    (hv : xs[sourceIndex source target n]? = some v) : ys[source + n]? = some v := by
  unfold sourceIndex at hv
  by_cases hlt : source < target
  · rw [if_pos hlt] at hv
    by_cases hfirst : n < target - source
    · rw [Nat.mod_eq_of_lt hfirst] at hv
      exact h.kept _ v hv (.inl (by omega))
    · -- an earlier turn has written this element
      rw [Nat.mod_eq_sub_mod (by omega)] at hv
      have hmoved := h.moved (n - (target - source)) (by omega) v (by rwa [sourceIndex, if_pos hlt])
      rwa [show target + (n - (target - source)) = source + n by omega] at hmoved
  · rw [if_neg hlt] at hv
    exact h.kept _ v hv (.inr (by omega))

/-- One turn. -/
theorem Copied.next (h : Copied source target n xs ys) (hv : ys[source + n]? = some v) :
    Copied source target (n + 1) xs (assign pad ys (target + n) v) := by
  constructor
  · intro i hi w hw
    by_cases hlast : i = n
    · subst hlast
      have hread := h.read hw
      rw [hv] at hread
      rw [getElem?_assign_self]
      exact hread
    · have hmoved := h.moved i (by omega) w hw
      rwa [getElem?_assign_of_ne pad v (by omega) (List.getElem?_eq_some_iff.mp hmoved).1]
  · intro j w hw hout
    have hkept := h.kept j w hw (by omega)
    rwa [getElem?_assign_of_ne pad v (by omega) (List.getElem?_eq_some_iff.mp hkept).1]

/-- The elements behind the loop. -/
theorem copyForward_copied {turns : Nat} {zs : List α} (h : Copied source target n xs ys)
    (hcopy : copyForward pad source target turns n ys = some zs) :
    Copied source target (n + turns) xs zs := by
  induction turns generalizing n ys with
  | zero =>
      cases hcopy
      exact h
  | succ turns ih =>
      rcases Option.bind_eq_some_iff.mp hcopy with ⟨v, hv, hrest⟩
      have hall := ih (h.next hv) hrest
      rwa [Nat.add_right_comm] at hall

/-- The list grows up to the end of the target, if anything is copied. -/
theorem length_copyForward {turns i : Nat} {zs : List α}
    (hcopy : copyForward pad source target turns i xs = some zs) :
    zs.length = if turns = 0 then xs.length else max xs.length (target + i + turns) := by
  induction turns generalizing i xs with
  | zero =>
      cases hcopy
      rfl
  | succ turns ih =>
      rcases Option.bind_eq_some_iff.mp hcopy with ⟨v, hv, hrest⟩
      rw [ih hrest, length_assign, if_neg (Nat.succ_ne_zero turns)]
      split <;> omega

end ForwardCopy
