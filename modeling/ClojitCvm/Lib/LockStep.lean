import Mathlib.Tactic.Common

/-!
# Computations in lock step

Two computations that can fail run side by side: the first follows the second if they end
in the same way, with related results or related errors.  The first one can be excused
for some of its errors, for which the second one may do anything.

Main results:

- Theorems {lit}`Follows.bind` and {lit}`Follows.mapM`: the rules of sequences and of loops
  over a list.
- Theorem {lit}`Follows.steps`: machines whose steps follow each other follow each other
  for any number of steps.
- Theorems {lit}`steps_induction` and {lit}`steps_error`: what every step keeps is kept by any
  number of steps, and holds where a step fails.
- Theorem {lit}`exists_recorded`: a record kept beside a run does not change it.
- Theorem {lit}`Follows.join`: two computations that follow the same one follow each other.
-/

namespace LockStep

universe u v

variable {ε ε' ε'' : Type u} {α α' α'' β β' : Type v}

/-! ## Following -/

/-- The first computation follows the second one.  Errors in {lit}`excused` are its own
affair, other errors are related by {lit}`E` and results by {lit}`R`. -/
inductive Follows (excused : ε → Prop) (E : ε → ε' → Prop) (R : α → α' → Prop) :
    Except ε α → Except ε' α' → Prop
  | excuse {e : ε} {y : Except ε' α'} (h : excused e) : Follows excused E R (.error e) y
  | error {e : ε} {e' : ε'} (h : E e e') : Follows excused E R (.error e) (.error e')
  | ok {a : α} {a' : α'} (h : R a a') : Follows excused E R (.ok a) (.ok a')

/-- No error is excused. -/
def never (_ : ε) : Prop := False

namespace Follows

variable {excused : ε → Prop} {E : ε → ε' → Prop} {R : α → α' → Prop} {S : β → β' → Prop}
    {x : Except ε α} {y : Except ε' α'}

/-- The rule of sequences. -/
theorem bind {f : α → Except ε β} {g : α' → Except ε' β'} (h : Follows excused E R x y)
    (hfg : ∀ a a', R a a' → Follows excused E S (f a) (g a')) :
    Follows excused E S (x >>= f) (y >>= g) := by
  cases h with
  | excuse h => exact .excuse h
  | error h => exact .error h
  | ok h => exact hfg _ _ h

/-- More work of the first computation alone. -/
theorem bind_left {f : α → Except ε β} {S : β → α' → Prop} (h : Follows excused E R x y)
    (hf : ∀ a a', R a a' → Follows excused E S (f a) (.ok a')) :
    Follows excused E S (x >>= f) y := by
  cases h with
  | excuse h => exact .excuse h
  | error h => exact .error h
  | ok h => exact hf _ _ h

/-- The rule of consequence. -/
theorem mono {excused' : ε → Prop} {E' : ε → ε' → Prop} {R' : α → α' → Prop}
    (h : Follows excused E R x y) (hexcused : ∀ e, excused e → excused' e)
    (hE : ∀ e e', E e e' → E' e e') (hR : ∀ a a', R a a' → R' a a') :
    Follows excused' E' R' x y := by
  cases h with
  | excuse h => exact .excuse (hexcused _ h)
  | error h => exact .error (hE _ _ h)
  | ok h => exact .ok (hR _ _ h)

/-- What is known of a result of the first computation. -/
theorem and_left {Q : α → Prop} (h : Follows excused E R x y) (hQ : ∀ a, x = .ok a → Q a) :
    Follows excused E (fun a a' => R a a' ∧ Q a) x y := by
  cases h with
  | excuse h => exact .excuse h
  | error h => exact .error h
  | ok h => exact .ok ⟨h, hQ _ rfl⟩

/-- What is known of a result of the second computation. -/
theorem and_right {Q : α' → Prop} (h : Follows excused E R x y) (hQ : ∀ a', y = .ok a' → Q a') :
    Follows excused E (fun a a' => R a a' ∧ Q a') x y := by
  cases h with
  | excuse h => exact .excuse h
  | error h => exact .error h
  | ok h => exact .ok ⟨h, hQ _ rfl⟩

/-- The rule of branches with related tests. -/
theorem ite {c c' : Prop} [Decidable c] [Decidable c'] {x' : Except ε α} {y' : Except ε' α'}
    (hc : c ↔ c') (hpos : c → Follows excused E R x y)
    (hneg : ¬ c → Follows excused E R x' y') :
    Follows excused E R (if c then x else x') (if c' then y else y') := by
  by_cases h : c
  · rw [if_pos h, if_pos (hc.mp h)]
    exact hpos h
  · rw [if_neg h, if_neg fun h' => h (hc.mpr h')]
    exact hneg h

/-- The rule of a loop over a list whose results are collected. -/
theorem mapM {ι : Type*} {xs : List ι} {f : ι → Except ε β} {g : ι → Except ε' β}
    (hfg : ∀ i ∈ xs, Follows excused E (· = ·) (f i) (g i)) :
    Follows excused E (· = ·) (xs.mapM f) (xs.mapM g) := by
  induction xs with
  | nil => exact .ok rfl
  | cons i xs ih =>
      rw [List.mapM_cons, List.mapM_cons]
      refine (hfg i List.mem_cons_self).bind ?_
      rintro b _ rfl
      refine (ih fun j hj => hfg j (List.mem_cons_of_mem _ hj)).bind ?_
      rintro bs _ rfl
      exact .ok rfl

/-! ## Composition -/

theorem flip (h : Follows never E R x y) :
    Follows never (fun e' e => E e e') (fun a' a => R a a') y x := by
  cases h with
  | excuse h => exact h.elim
  | error h => exact .error h
  | ok h => exact .ok h

theorem trans {E' : ε' → ε'' → Prop} {R' : α' → α'' → Prop} {z : Except ε'' α''}
    (h : Follows excused E R x y) (h' : Follows never E' R' y z) :
    Follows excused (fun e e'' => ∃ e', E e e' ∧ E' e' e'')
      (fun a a'' => ∃ a', R a a' ∧ R' a' a'') x z := by
  cases h with
  | excuse h => exact .excuse h
  | error h =>
      cases h' with
      | excuse h' => exact h'.elim
      | error h' => exact .error ⟨_, h, h'⟩
  | ok h =>
      cases h' with
      | ok h' => exact .ok ⟨_, h, h'⟩

/-- Two computations that follow the same one follow each other. -/
theorem join {E' : ε'' → ε' → Prop} {R' : α'' → α' → Prop} {z : Except ε'' α''}
    (h : Follows excused E R x y) (h' : Follows never E' R' z y) :
    Follows excused (fun e e'' => ∃ e', E e e' ∧ E' e'' e')
      (fun a a'' => ∃ a', R a a' ∧ R' a'' a') x z :=
  h.trans h'.flip

/-- What the second computation does when the first one returns. -/
theorem of_ok {a : α} (h : Follows excused E R (.ok a) y) : ∃ a', y = .ok a' ∧ R a a' := by
  cases h with
  | ok h => exact ⟨_, rfl, h⟩

end Follows

/-! ## Machines -/

/-- So many steps of a machine. -/
def steps (step : α → Except ε α) : Nat → α → Except ε α
  | 0, a => .ok a
  | n + 1, a => do
      let a ← step a
      steps step n a

/-- What every step keeps is kept. -/
theorem steps_induction {step : α → Except ε α} {P : α → Prop}
    (hstep : ∀ a a', P a → step a = .ok a' → P a') {n : Nat} {a a' : α} (h : P a)
    (hsteps : steps step n a = .ok a') : P a' := by
  induction n generalizing a with
  | zero =>
      cases hsteps
      exact h
  | succ n ih =>
      rw [steps] at hsteps
      cases hnext : step a with
      | error e =>
          rw [hnext] at hsteps
          cases hsteps
      | ok next =>
          rw [hnext] at hsteps
          exact ih (hstep a next h hnext) hsteps

/-- What every step keeps holds in front of a step that fails. -/
theorem steps_error {step : α → Except ε α} {P : α → Prop}
    (hstep : ∀ a a', P a → step a = .ok a' → P a') {n : Nat} {a : α} {e : ε} (h : P a)
    (hsteps : steps step n a = .error e) : ∃ a', P a' ∧ step a' = .error e := by
  induction n generalizing a with
  | zero => cases hsteps
  | succ n ih =>
      rw [steps] at hsteps
      cases hnext : step a with
      | error e' =>
          rw [hnext] at hsteps
          cases hsteps
          exact ⟨a, h, hnext⟩
      | ok next =>
          rw [hnext] at hsteps
          exact ih (hstep a next h hnext) hsteps

/-- A step with a record beside the state, which is brought up to date behind the step. -/
def recorded (step : α → Except ε α) (record : α → α → β → β) (s : α × β) :
    Except ε (α × β) := do
  let a ← step s.1
  return (a, record s.1 a s.2)

theorem recorded_eq_ok {step : α → Except ε α} {record : α → α → β → β} {s s' : α × β} :
    recorded step record s = .ok s' ↔ ∃ a, step s.1 = .ok a ∧ s' = (a, record s.1 a s.2) := by
  unfold recorded
  cases step s.1 with
  | error e =>
      constructor
      · intro h
        cases h
      · rintro ⟨_, h, _⟩
        cases h
  | ok a =>
      constructor
      · intro h
        cases h
        exact ⟨a, rfl, rfl⟩
      · rintro ⟨_, h, rfl⟩
        cases h
        rfl

/-- The record changes nothing about the run. -/
theorem exists_recorded {step : α → Except ε α} {n : Nat} {a a' : α}
    (hsteps : steps step n a = .ok a') (record : α → α → β → β) (b : β) :
    ∃ b', steps (recorded step record) n (a, b) = .ok (a', b') := by
  induction n generalizing a b with
  | zero =>
      cases hsteps
      exact ⟨b, rfl⟩
  | succ n ih =>
      rw [steps] at hsteps
      cases hnext : step a with
      | error e =>
          rw [hnext] at hsteps
          cases hsteps
      | ok next =>
          rw [hnext] at hsteps
          rcases ih hsteps (record a next b) with ⟨b', hrest⟩
          refine ⟨b', ?_⟩
          rw [steps, recorded_eq_ok.mpr ⟨next, hnext, rfl⟩]
          exact hrest

/-- Machines whose steps follow each other follow each other. -/
theorem Follows.steps {excused : ε → Prop} {E : ε → ε' → Prop} {R : α → α' → Prop}
    {step : α → Except ε α} {step' : α' → Except ε' α'}
    (hstep : ∀ a a', R a a' → Follows excused E R (step a) (step' a')) (n : Nat) {a : α}
    {a' : α'} (h : R a a') :
    Follows excused E R (LockStep.steps step n a) (LockStep.steps step' n a') := by
  induction n generalizing a a' with
  | zero => exact .ok h
  | succ n ih => exact (hstep a a' h).bind fun _ _ hnext => ih hnext

end LockStep
