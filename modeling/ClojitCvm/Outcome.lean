import Mathlib.Tactic.Common

/-!
# How a C function can end

Most functions of the machine either return or end the process.  The process ends
normally through {lit}`exit` or a return from {lit}`start`, with a status and the
state it stopped in, or it does something C gives no meaning to, such as a load
outside every object.  After the latter there is no state to speak of.
-/

namespace ClojitCvm

/-- What went wrong when the C code leaves defined behavior or is aborted. -/
inductive Fault where
  /-- A cell was read before it was written. -/
  | uninitialized
  /-- A block was written or copied past its end, or a counter overflowed. -/
  | overrun
  /-- A load through a word that addresses no mapped memory. -/
  | wildRead
  /-- A store through a word that addresses no object. -/
  | wildWrite
  /-- The hardware trap of an integer division. -/
  | divisionTrap
  /-- A call of an address that is no builtin function. -/
  | badCall
  /-- A failed {lit}`assert`. -/
  | assertion
  /-- The native call stack is exhausted. -/
  | nativeStack
deriving DecidableEq, Repr

/-- The ways a call does not return: the process exits with a status, in a state
and after printing some more text, or it faults. -/
inductive Halt (σ : Type) where
  | exit (status : Nat) (state : σ) (printed : List String)
  | fault (why : Fault)
deriving DecidableEq, Repr

/-- The result of a call that may end the process. -/
abbrev Outcome (σ α : Type) := Except (Halt σ) α

/-- A bind returns exactly when both parts do. -/
theorem bind_eq_ok {ε α β : Type} {x : Except ε α} {f : α → Except ε β} {b : β} :
    (x >>= f) = .ok b ↔ ∃ a, x = .ok a ∧ f a = .ok b := by
  cases x with
  | error e => simp [bind, Except.bind]
  | ok a => simp [bind, Except.bind]

theorem exists_bind_eq_ok {ε α β : Type} {x : Except ε α} {f : α → Except ε β} :
    (∃ b, (x >>= f) = .ok b) ↔ ∃ a, x = .ok a ∧ ∃ b, f a = .ok b := by
  constructor
  · rintro ⟨b, h⟩
    rcases bind_eq_ok.mp h with ⟨a, ha, hb⟩
    exact ⟨a, ha, b, hb⟩
  · rintro ⟨a, ha, b, hb⟩
    exact ⟨b, bind_eq_ok.mpr ⟨a, ha, hb⟩⟩

/-- A loop over a list returns exactly when every turn does. -/
theorem exists_mapM_eq_ok {ε α β : Type} {f : α → Except ε β} {xs : List α} :
    (∃ ys, xs.mapM f = .ok ys) ↔ ∀ x ∈ xs, ∃ y, f x = .ok y := by
  induction xs with
  | nil => exact ⟨fun _ _ hx => absurd hx List.not_mem_nil, fun _ => ⟨[], rfl⟩⟩
  | cons x xs ih =>
      rw [List.forall_mem_cons, ← ih, List.mapM_cons]
      constructor
      · rintro ⟨ys, h⟩
        rcases bind_eq_ok.mp h with ⟨y, hy, hrest⟩
        rcases bind_eq_ok.mp hrest with ⟨ys', hys, _⟩
        exact ⟨⟨y, hy⟩, ys', hys⟩
      · rintro ⟨⟨y, hy⟩, ys, hys⟩
        exact ⟨y :: ys, by rw [hy, hys]; rfl⟩

/-- What is known of a call that returns under a condition and fails otherwise, when it has
returned. -/
theorem of_eq_ok {ε α : Type} {x : Except ε α} {c : Prop} [Decidable c] {post : α → Prop}
    {e : ε} {a : α} (h : if c then ∃ b, x = .ok b ∧ post b else x = .error e)
    (hok : x = .ok a) : c ∧ post a := by
  split at h
  · next hc =>
    rcases h with ⟨b, hb, hpost⟩
    rw [hok] at hb
    cases hb
    exact ⟨hc, hpost⟩
  · rw [hok] at h
    cases h

/-! ## What holds when a call is over -/

/-- One thing holds if the call returns, another if the process exits.  Nothing is said of
faults. -/
def Ends {σ α : Type} (x : Outcome σ α) (post : α → Prop)
    (stop : Nat → σ → List String → Prop) : Prop :=
  match x with
  | .ok a => post a
  | .error (.exit status state printed) => stop status state printed
  | .error (.fault _) => True

section Ends

variable {σ α β : Type} {x : Outcome σ α} {post post' : α → Prop}
    {stop stop' : Nat → σ → List String → Prop}

theorem Ends.ok (h : Ends x post stop) {a : α} (hx : x = .ok a) : post a := by
  rw [hx] at h
  exact h

theorem Ends.exit (h : Ends x post stop) {status : Nat} {state : σ} {printed : List String}
    (hx : x = .error (.exit status state printed)) : stop status state printed := by
  rw [hx] at h
  exact h

/-- The rule of sequences. -/
theorem Ends.bind {f : α → Outcome σ β} {last : β → Prop} (h : Ends x post stop)
    (hf : ∀ a, post a → Ends (f a) last stop) : Ends (x >>= f) last stop := by
  rcases x with (⟨status, state, printed⟩ | why) | a
  · exact h
  · exact h
  · exact hf a h

/-- The rule of consequence. -/
theorem Ends.mono (h : Ends x post stop) (hpost : ∀ a, post a → post' a)
    (hstop : ∀ status state printed, stop status state printed → stop' status state printed) :
    Ends x post' stop' := by
  rcases x with (⟨status, state, printed⟩ | why) | a
  · exact hstop _ _ _ h
  · exact h
  · exact hpost a h

/-- The result of a call is known where it returns. -/
theorem Ends.eq_ok (h : Ends x post stop) : Ends x (fun a => x = .ok a ∧ post a) stop := by
  rcases x with (⟨status, state, printed⟩ | why) | a
  · exact h
  · exact h
  · exact ⟨rfl, h⟩

/-- The rule of a loop over a list whose results are collected. -/
theorem Ends.mapM {xs : List α} {f : α → Outcome σ β}
    (hf : ∀ a ∈ xs, Ends (f a) (fun _ => True) stop) :
    Ends (xs.mapM f) (fun _ => True) stop := by
  induction xs with
  | nil => exact trivial
  | cons a xs ih =>
      rw [List.mapM_cons]
      refine (hf a List.mem_cons_self).bind fun b _ => ?_
      exact (ih fun a ha => hf a (List.mem_cons_of_mem _ ha)).bind fun _ _ => trivial

end Ends

/-- The C format {lit}`%d` applied to a 32-bit value. -/
def formatD (x : BitVec 32) : String :=
  toString x.toInt

end ClojitCvm
