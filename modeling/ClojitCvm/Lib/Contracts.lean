import Mathlib.Tactic.Common

/-!
# Contracts of procedures

A machine without blocks calls and returns by what it finds in its state, and still keeps its
calls in order.  Then procedures can be given contracts, and the places inside of them
assertions, that are checked turn by turn: a call may rely on the contract of the callee,
recursive or not, because only a return that meets it leads back behind the call.

Main results:

- Definition {lit}`Annotation.Verified`: the checks of single turns.
- Theorem {lit}`Honoured.turn`: a turn of a verified machine keeps all promises to the
  running procedure and to its callers.
- Theorem {lit}`Honoured.returns`: every return meets the contract of its procedure.
-/

namespace Contracts

universe u v w

variable {σ : Type u} {V : Type v} {R : Type w}

/-- A machine whose turns stay in a procedure, enter one or leave one. -/
structure Machine (σ : Type u) (V : Type v) (R : Type w) where
  /-- What the running procedure sees of the state. -/
  view : σ → V
  stays : σ → σ → Prop
  enters : σ → σ → Prop
  leaves : σ → σ → Prop
  /-- What a return hands over. -/
  result : σ → σ → R
  /-- What the caller sees behind its call when it is handed a result. -/
  resume : σ → σ → R → V

/-- The calls that have not returned, the last one first, each with the states in front of and
behind it. -/
abbrev Calls (σ : Type u) : Type u := List (σ × σ)

/-- A turn of a machine that keeps its calls in order: a return leads behind the last call. -/
inductive Machine.Turn (M : Machine σ V R) (s s' : σ) : Calls σ → Calls σ → Prop
  | stays {calls : Calls σ} (h : M.stays s s') : Turn M s s' calls calls
  | enters {calls : Calls σ} (h : M.enters s s') : Turn M s s' calls ((s, s') :: calls)
  | leaves {call : σ × σ} {calls : Calls σ} (h : M.leaves s s')
      (hview : M.view s' = M.resume call.1 call.2 (M.result s s')) :
      Turn M s s' (call :: calls) calls

/-- Contracts of the procedures, told apart by what they see when they are entered, and
assertions about what they see later. -/
structure Annotation (V : Type v) (R : Type w) where
  pre : V → Prop
  post : V → R → Prop
  /-- What holds of the second view in a procedure that was entered with the first one. -/
  holds : V → V → Prop

/-- Every turn keeps the assertions, if the calls keep their contracts. -/
structure Annotation.Verified (A : Annotation V R) (M : Machine σ V R) : Prop where
  entry : ∀ view, A.pre view → A.holds view view
  stays : ∀ entry s s', A.holds entry (M.view s) → M.stays s s' → A.holds entry (M.view s')
  enters : ∀ entry s s', A.holds entry (M.view s) → M.enters s s' → A.pre (M.view s')
  resumes : ∀ entry s s' result, A.holds entry (M.view s) → M.enters s s' →
    A.post (M.view s') result → A.holds entry (M.resume s s' result)
  leaves : ∀ entry s s', A.holds entry (M.view s) → M.leaves s s' →
    A.post entry (M.result s s')

/-- What the running procedure saw when it was entered. -/
def entryOf (M : Machine σ V R) (start : V) : Calls σ → V
  | [] => start
  | call :: _ => M.view call.2

/-- The running procedure is where its assertions say, and so is every caller behind its call,
whatever it is handed within the contract. -/
inductive Honoured (A : Annotation V R) (M : Machine σ V R) (start : V) : Calls σ → V → Prop
  | outermost {view : V} (h : A.holds start view) : Honoured A M start [] view
  | call {call : σ × σ} {calls : Calls σ} {view : V} (h : A.holds (M.view call.2) view)
      (hback : ∀ result, A.post (M.view call.2) result →
        Honoured A M start calls (M.resume call.1 call.2 result)) :
      Honoured A M start (call :: calls) view

namespace Honoured

variable {A : Annotation V R} {M : Machine σ V R} {start view view' : V} {calls calls' : Calls σ}
    {s s' : σ}

theorem holds (h : Honoured A M start calls view) : A.holds (entryOf M start calls) view := by
  cases h with
  | outermost h => exact h
  | call h _ => exact h

/-- What the running procedure does in its own right is no affair of its callers. -/
theorem change (h : Honoured A M start calls view)
    (hview : A.holds (entryOf M start calls) view → A.holds (entryOf M start calls) view') :
    Honoured A M start calls view' := by
  cases h with
  | outermost h => exact .outermost (hview h)
  | call h hback => exact .call (hview h) hback

/-- A return meets the contract. -/
theorem returns (h : Honoured A M start calls (M.view s)) (hverified : A.Verified M)
    (hleaves : M.leaves s s') : A.post (entryOf M start calls) (M.result s s') :=
  hverified.leaves _ s s' h.holds hleaves

/-- A turn keeps the promises. -/
theorem turn (h : Honoured A M start calls (M.view s)) (hverified : A.Verified M)
    (hturn : M.Turn s s' calls calls') : Honoured A M start calls' (M.view s') := by
  cases hturn with
  | stays hstays => exact h.change fun hholds => hverified.stays _ s s' hholds hstays
  | enters henters =>
      have hpre := hverified.enters _ s s' h.holds henters
      refine .call (hverified.entry _ hpre) fun result hpost => ?_
      exact h.change fun hholds => hverified.resumes _ s s' result hholds henters hpost
  | leaves hleaves hview =>
      have hpost := h.returns hverified hleaves
      rw [hview]
      cases h with
      | call _ hback => exact hback _ hpost

end Honoured

end Contracts
