import Mathlib.Tactic.Common

/-!
# Texts with remarks between them

A process prints texts while it makes calls, numbered from zero, and every call may make a
remark of its own.  If each text is marked with the number of calls made before it, all
that was printed can be put together again.

Main results:

- Definition {lit}`written`: the texts and the remarks in the order they were printed.
- Theorem {lit}`join_written_eq_iff`: when the remarks, and texts that do not belong, leave
  the whole text alone.
-/

namespace MarkedTexts

variable {α : Type*}

/-! ## Remarks -/

/-- The remarks of the calls from one number up to another. -/
def between (remarks : Nat → List String) (n m : Nat) : List String :=
  (List.range' n (m - n)).flatMap remarks

/-- The texts and the remarks in the order they were printed, with {lit}`n` calls made so
far of so many altogether.  A text without a mark follows the one before it. -/
def written (remarks : Nat → List String) (calls : Nat) :
    (n : Nat) → (texts : List String) → (marks : List Nat) → List String
  | n, [], _ => between remarks n calls
  | n, text :: texts, [] => text :: written remarks calls n texts []
  | n, text :: texts, mark :: marks =>
      between remarks n mark ++ text :: written remarks calls mark texts marks

variable {remarks : Nat → List String} {calls : Nat}

/-- Nothing is left of texts exactly when nothing is left of each. -/
theorem join_flatMap_eq_empty_iff {xs : List α} {f : α → List String} :
    String.join (xs.flatMap f) = "" ↔ ∀ x ∈ xs, String.join (f x) = "" := by
  induction xs with
  | nil => simp
  | cons x xs ih =>
      rw [List.flatMap_cons, String.join_append, String.append_eq_empty_iff, ih,
        List.forall_mem_cons]

theorem join_between_eq_empty_iff {n m : Nat} :
    String.join (between remarks n m) = "" ↔
      ∀ k, n ≤ k → k < m → String.join (remarks k) = "" := by
  rw [between, join_flatMap_eq_empty_iff]
  refine forall_congr' fun k => ?_
  rw [List.mem_range'_1, and_imp]
  refine imp_congr_right fun hle => ?_
  rw [show k < n + (m - n) ↔ k < m by omega]

/-! ## Lengths -/

/-- Putting remarks between texts makes the whole no shorter. -/
theorem length_le_written (n : Nat) (texts : List String) (marks : List Nat) :
    (String.join texts).length ≤ (String.join (written remarks calls n texts marks)).length := by
  induction texts generalizing n marks with
  | nil => exact Nat.zero_le _
  | cons text texts ih =>
      cases marks with
      | nil =>
          have := ih n []
          simp only [written, String.join_cons, String.length_append]
          omega
      | cons mark marks =>
          have := ih mark marks
          simp only [written, String.join_append, String.join_cons, String.length_append]
          omega

/-- Without remarks only the texts are left. -/
theorem join_written_of_silent (hsilent : ∀ k, String.join (remarks k) = "") (n : Nat)
    (texts : List String) (marks : List Nat) :
    String.join (written remarks calls n texts marks) = String.join texts := by
  have hbetween (n m : Nat) : String.join (between remarks n m) = "" :=
    join_between_eq_empty_iff.mpr fun k _ _ => hsilent k
  induction texts generalizing n marks with
  | nil => exact hbetween n calls
  | cons text texts ih =>
      cases marks with
      | nil => rw [written, String.join_cons, ih, String.join_cons]
      | cons mark marks =>
          rw [written, String.join_append, hbetween, String.empty_append, String.join_cons, ih,
            String.join_cons]

/-- If the whole is no longer than the texts, no call made a remark: the marks lead from the
first call to the last, so that every call lies between two texts. -/
theorem silent_of_length_eq {n : Nat} {texts : List String} {marks : List Nat}
    (h : (String.join (written remarks calls n texts marks)).length =
      (String.join texts).length) {k : Nat} (hn : n ≤ k) (hk : k < calls) :
    String.join (remarks k) = "" := by
  induction texts generalizing n marks with
  | nil =>
      have hempty : String.join (between remarks n calls) = "" :=
        String.length_eq_zero_iff.mp h
      exact join_between_eq_empty_iff.mp hempty k hn hk
  | cons text texts ih =>
      cases marks with
      | nil =>
          simp only [written, String.join_cons, String.length_append] at h
          exact ih (Nat.add_left_cancel h) hn
      | cons mark marks =>
          have hle := @length_le_written remarks calls mark texts marks
          simp only [written, String.join_append, String.join_cons, String.length_append] at h
          by_cases hmark : k < mark
          · have hempty : String.join (between remarks n mark) = "" :=
              String.length_eq_zero_iff.mp (by omega)
            exact join_between_eq_empty_iff.mp hempty k hn hmark
          · have hrest : (String.join (written remarks calls mark texts marks)).length =
                (String.join texts).length := by omega
            exact ih hrest (Nat.not_lt.mp hmark)

/-! ## Texts that do not belong -/

/-- How much longer texts in between make the whole. -/
theorem length_join_flatMap_append (xs : List α) (f g : α → List String) (front : List String) :
    (String.join (front ++ xs.flatMap fun x => f x ++ g x)).length =
      (String.join (xs.flatMap f)).length + (String.join front).length +
        (String.join (xs.flatMap g)).length := by
  rw [String.join_append, String.length_append]
  induction xs with
  | nil => simp
  | cons x xs ih =>
      simp only [List.flatMap_cons, String.join_append, String.length_append] at ih ⊢
      omega

/-- Texts that are empty altogether are empty one by one. -/
theorem join_eq_empty_of_mem {xs : List α} {g : α → List String}
    (h : String.join (xs.flatMap g) = "") {x : α} (hx : x ∈ xs) : String.join (g x) = "" := by
  rcases List.append_of_mem hx with ⟨front, back, rfl⟩
  rw [List.flatMap_append, List.flatMap_cons, String.join_append, String.join_append,
    String.append_eq_empty_iff, String.append_eq_empty_iff] at h
  exact h.2.1

/-- Texts in between that are empty leave the whole alone. -/
theorem join_flatMap_append {xs : List α} {f g : α → List String} {front : List String}
    (hfront : String.join front = "") (hg : ∀ x ∈ xs, String.join (g x) = "") :
    String.join (front ++ xs.flatMap fun x => f x ++ g x) = String.join (xs.flatMap f) := by
  rw [String.join_append, hfront, String.empty_append]
  induction xs with
  | nil => rfl
  | cons x xs ih =>
      simp only [List.flatMap_cons, String.join_append]
      rw [hg x List.mem_cons_self, String.append_empty,
        ih fun y hy => hg y (List.mem_cons_of_mem _ hy)]

/-- Remarks between texts, and texts that do not belong, leave the whole alone exactly when
they are all empty. -/
theorem join_written_eq_iff (hrest : ∀ k, calls ≤ k → String.join (remarks k) = "")
    (xs : List α) (f g : α → List String) (front : List String) (marks : List Nat) :
    String.join (written remarks calls 0 (front ++ xs.flatMap fun x => f x ++ g x) marks) =
        String.join (xs.flatMap f) ↔
      (∀ k < calls, String.join (remarks k) = "") ∧ String.join front = "" ∧
        ∀ x ∈ xs, String.join (g x) = "" := by
  constructor
  · intro h
    have hlength := congrArg String.length h
    have hle := @length_le_written remarks calls 0 (front ++ xs.flatMap fun x => f x ++ g x) marks
    have hsum := length_join_flatMap_append xs f g front
    have hzero : (String.join (xs.flatMap g)).length = 0 := by omega
    have hsame : (String.join (written remarks calls 0
          (front ++ xs.flatMap fun x => f x ++ g x) marks)).length =
        (String.join (front ++ xs.flatMap fun x => f x ++ g x)).length := by omega
    refine ⟨fun k hk => silent_of_length_eq hsame (Nat.zero_le k) hk,
      String.length_eq_zero_iff.mp (by omega), fun x hx => ?_⟩
    exact join_eq_empty_of_mem (String.length_eq_zero_iff.mp hzero) hx
  · rintro ⟨hsilent, hfront, hg⟩
    rw [join_written_of_silent (fun k => ?_), join_flatMap_append hfront hg]
    by_cases hk : k < calls
    · exact hsilent k hk
    · exact hrest k (Nat.not_lt.mp hk)

end MarkedTexts
