import ClojitCvm.Lib.CellArray
import Mathlib.Logic.Relation

/-!
# Frames that overlap on one array

A machine keeps the local values of all its calls in one growable array.  A frame is
an index into the array, the base, with some data that belongs to the call; the callee's
frame begins inside the caller's.  This module is about such machines at arbitrary
cells and call data: assignments relative to the base, truncation, entering a frame and
leaving it.

Main results:

- Theorem {lit}`run_ordered`: the bases stay in order and inside the array.
- Theorems {lit}`Suspended.stays`, {lit}`Suspended.enters` and {lit}`Suspended.leaves`: a
  return finds the frame of its caller as it was when the call was made.
- Theorem {lit}`run_spaced`: the bases stay as close to each other as frames are entered.
- Theorem {lit}`Stays.enter_leave`: a call that comes back changes nothing below its
  caller's base.
- Theorems {lit}`Nested.stay`, {lit}`Nested.enter` and {lit}`Nested.leave`: what a call
  protects while it is running, whatever calls it makes.
-/

namespace FrameStack

open CellArray

variable {κ α : Type*}

/-- The base of a frame and the data of its call. -/
structure Frame (κ : Type*) where
  base : Nat
  link : κ

/-- The running frame, the frames of the callers, the oldest first, the array, and the
log of the indices assigned to, the last one first. -/
structure Frames (κ α : Type*) where
  current : Frame κ
  callers : List (Frame κ)
  cells : List α
  stores : List Nat

inductive Action (κ α : Type*) where
  | assign (offset : Nat) (value : α)
  | truncate (keep : Nat)
  | enter (offset : Nat) (link : κ)
  | leave

namespace Frames

/-- The absolute index of an offset in the running frame. -/
def index (f : Frames κ α) (offset : Nat) : Nat :=
  f.current.base + offset

/-- One action, if it is possible. -/
def act (pad : α) (f : Frames κ α) : Action κ α → Option (Frames κ α)
  | .assign offset value => some { f with
      cells := assign pad f.cells (f.index offset) value
      stores := f.index offset :: f.stores }
  | .truncate keep =>
      if f.index keep ≤ f.cells.length then
        some { f with cells := f.cells.take (f.index keep) }
      else none
  | .enter offset link =>
      if f.index offset ≤ f.cells.length then
        some { f with
          current := ⟨f.index offset, link⟩
          callers := f.callers ++ [f.current] }
      else none
  | .leave => f.callers.getLast?.map fun caller =>
      { f with current := caller, callers := f.callers.dropLast }

section Act

variable {pad : α} {f f' : Frames κ α}

theorem act_truncate_eq_some {keep : Nat} :
    f.act pad (.truncate keep) = some f' ↔
      f.index keep ≤ f.cells.length ∧ f' = { f with cells := f.cells.take (f.index keep) } := by
  simp only [act, Option.ite_none_right_eq_some, Option.some.injEq, @eq_comm _ f']

theorem act_enter_eq_some {offset : Nat} {link : κ} :
    f.act pad (.enter offset link) = some f' ↔
      f.index offset ≤ f.cells.length ∧
        f' = { f with current := ⟨f.index offset, link⟩, callers := f.callers ++ [f.current] } := by
  simp only [act, Option.ite_none_right_eq_some, Option.some.injEq, @eq_comm _ f']

theorem act_leave_eq_some :
    f.act pad .leave = some f' ↔
      ∃ caller, f.callers.getLast? = some caller ∧
        f' = { f with current := caller, callers := f.callers.dropLast } := by
  simp only [act, Option.map_eq_some_iff, @eq_comm _ f']

end Act

def run (pad : α) : List (Action κ α) → Frames κ α → Option (Frames κ α)
  | [], f => some f
  | action :: actions, f => (f.act pad action).bind (run pad actions)

theorem run_append (pad : α) (front back : List (Action κ α)) (f : Frames κ α) :
    run pad (front ++ back) f = (run pad front f).bind (run pad back) := by
  induction front generalizing f with
  | nil => rfl
  | cons action front ih =>
      simp only [List.cons_append, run]
      cases f.act pad action with
      | none => rfl
      | some f' => exact ih f'

theorem run_trans {pad : α} {front back : List (Action κ α)} {f g h : Frames κ α}
    (hfront : run pad front f = some g) (hback : run pad back g = some h) :
    run pad (front ++ back) f = some h := by
  rw [run_append, hfront]
  exact hback

theorem run_append_eq_some {pad : α} {front back : List (Action κ α)} {f h : Frames κ α} :
    run pad (front ++ back) f = some h ↔
      ∃ g, run pad front f = some g ∧ run pad back g = some h := by
  rw [run_append, Option.bind_eq_some_iff]

/-- A run of a single action is the action. -/
@[simp]
theorem run_singleton (pad : α) (action : Action κ α) (f : Frames κ α) :
    run pad [action] f = f.act pad action := by
  simp [run]

/-! ## Order of the bases -/

/-- The running frame begins inside the array, and no frame begins before the frame of
its caller. -/
structure Ordered (f : Frames κ α) : Prop where
  base_le : f.current.base ≤ f.cells.length
  sorted : (f.callers ++ [f.current]).Pairwise fun x y => x.base ≤ y.base

variable {pad : α} {f f' : Frames κ α}

theorem Ordered.caller_le (h : f.Ordered) : ∀ x ∈ f.callers, x.base ≤ f.current.base :=
  fun x hx => (List.pairwise_append.mp h.sorted).2.2 x hx _ (by simp)

theorem act_ordered {action : Action κ α} (h : f.Ordered) (hact : f.act pad action = some f') :
    f'.Ordered := by
  have hbase := h.base_le
  cases action with
  | assign offset value =>
      cases hact
      refine ⟨?_, h.sorted⟩
      simp only [length_assign]
      omega
  | truncate keep =>
      rcases act_truncate_eq_some.mp hact with ⟨hle, rfl⟩
      refine ⟨?_, h.sorted⟩
      simp only [List.length_take, index] at hle ⊢
      omega
  | enter offset link =>
      rcases act_enter_eq_some.mp hact with ⟨hle, rfl⟩
      refine ⟨hle, ?_⟩
      rw [List.pairwise_append]
      refine ⟨h.sorted, by simp, ?_⟩
      intro x hx y hy
      rw [List.mem_singleton.mp hy]
      refine Nat.le_trans ?_ (Nat.le_add_right _ offset)
      rcases List.mem_append.mp hx with hx | hx
      · exact h.caller_le x hx
      · exact Nat.le_of_eq (congrArg Frame.base (List.mem_singleton.mp hx))
  | leave =>
      rcases act_leave_eq_some.mp hact with ⟨caller, hlast, rfl⟩
      have hmem := List.mem_of_getLast? hlast
      have hcaller := h.caller_le caller hmem
      refine ⟨by simp only; omega, ?_⟩
      have hcallers : f.callers = f.callers.dropLast ++ [caller] :=
        (List.dropLast_append_getLast? caller hlast).symm
      have hsorted := (List.pairwise_append.mp h.sorted).1
      rwa [hcallers] at hsorted

/-- The bases stay in order and inside the array. -/
theorem run_ordered {actions : List (Action κ α)} (h : f.Ordered)
    (hrun : run pad actions f = some f') : f'.Ordered := by
  induction actions generalizing f with
  | nil =>
      cases hrun
      exact h
  | cons action actions ih =>
      rcases Option.bind_eq_some_iff.mp hrun with ⟨g, hact, hrest⟩
      exact ih (act_ordered h hact) hrest

/-! ## Distance of the bases -/

/-- No frame begins farther than a gap behind the frame of its caller. -/
structure Spaced (gap : Nat) (f : Frames κ α) : Prop where
  base_le : f.current.base ≤ gap * f.callers.length
  caller_le : ∀ i caller, f.callers[i]? = some caller → caller.base ≤ gap * i

/-- No frame is entered farther than a gap behind the running one. -/
def EntersWithin (gap : Nat) (actions : List (Action κ α)) : Prop :=
  ∀ offset link, .enter offset link ∈ actions → offset ≤ gap

theorem act_spaced {gap : Nat} {action : Action κ α} (h : f.Spaced gap)
    (henter : ∀ offset link, action = .enter offset link → offset ≤ gap)
    (hact : f.act pad action = some f') : f'.Spaced gap := by
  cases action with
  | assign offset value =>
      cases hact
      exact ⟨h.base_le, h.caller_le⟩
  | truncate keep =>
      rcases act_truncate_eq_some.mp hact with ⟨_, rfl⟩
      exact ⟨h.base_le, h.caller_le⟩
  | enter offset link =>
      rcases act_enter_eq_some.mp hact with ⟨_, rfl⟩
      have hoffset := henter offset link rfl
      have hbase := h.base_le
      refine ⟨?_, fun i caller hcaller => ?_⟩
      · simp only [List.length_append, List.length_singleton, Nat.mul_add, index]
        omega
      · rcases Nat.lt_or_ge i f.callers.length with hlt | hge
        · rw [List.getElem?_append_left hlt] at hcaller
          exact h.caller_le i caller hcaller
        · rw [List.getElem?_append_right hge, List.getElem?_singleton] at hcaller
          split at hcaller
          · next hi =>
            cases hcaller
            rwa [show i = f.callers.length by omega]
          · cases hcaller
  | leave =>
      rcases act_leave_eq_some.mp hact with ⟨caller, hlast, rfl⟩
      rw [List.getLast?_eq_getElem?] at hlast
      refine ⟨?_, fun i other hother => ?_⟩
      · simp only [List.length_dropLast]
        exact h.caller_le _ caller hlast
      · rw [List.getElem?_dropLast] at hother
        split at hother
        · exact h.caller_le i other hother
        · cases hother

/-- Short entries keep the distance. -/
theorem run_spaced {gap : Nat} {actions : List (Action κ α)} (h : f.Spaced gap)
    (henters : EntersWithin gap actions) (hrun : run pad actions f = some f') :
    f'.Spaced gap := by
  induction actions generalizing f with
  | nil =>
      cases hrun
      exact h
  | cons action actions ih =>
      rcases Option.bind_eq_some_iff.mp hrun with ⟨g, hact, hrest⟩
      refine ih (act_spaced h ?_ hact) ?_ hrest
      · rintro offset link rfl
        exact henters offset link List.mem_cons_self
      · exact fun offset link hmem => henters offset link (List.mem_cons_of_mem _ hmem)

/-! ## Properties of all cells -/

/-- Every value the actions assign has a property. -/
def Brings (P : α → Prop) (actions : List (Action κ α)) : Prop :=
  ∀ offset value, .assign offset value ∈ actions → P value

section Brings

variable {P : α → Prop} {actions : List (Action κ α)}

theorem brings_nil : Brings P ([] : List (Action κ α)) :=
  fun _ _ hmem => absurd hmem List.not_mem_nil

theorem brings_append {front back : List (Action κ α)} :
    Brings P (front ++ back) ↔ Brings P front ∧ Brings P back := by
  simp only [Brings, List.mem_append, or_imp, forall_and]

theorem brings_cons_assign {offset : Nat} {value : α} :
    Brings P (.assign offset value :: actions) ↔ P value ∧ Brings P actions := by
  simp only [Brings, List.mem_cons, Action.assign.injEq, or_imp, forall_and, and_imp]
  exact and_congr_left fun _ => ⟨fun h => h _ _ rfl rfl, fun h _ _ _ heq => heq ▸ h⟩

/-- Other actions bring nothing. -/
theorem brings_cons_of_ne {action : Action κ α}
    (hne : ∀ offset value, action ≠ .assign offset value) :
    Brings P (action :: actions) ↔ Brings P actions := by
  simp only [Brings, List.mem_cons, or_imp, forall_and]
  exact and_iff_right fun offset value heq => absurd heq.symm (hne offset value)

end Brings

theorem act_forall {P : α → Prop} {action : Action κ α} (hpad : P pad)
    (hvalue : ∀ offset value, action = .assign offset value → P value)
    (h : ∀ x ∈ f.cells, P x) (hact : f.act pad action = some f') : ∀ x ∈ f'.cells, P x := by
  cases action with
  | assign offset value =>
      cases hact
      intro x hx
      simp only [assign] at hx
      rcases List.mem_or_eq_of_mem_set hx with hx | rfl
      · rcases List.mem_append.mp hx with hx | hx
        · exact h x hx
        · rw [List.eq_of_mem_replicate hx]
          exact hpad
      · exact hvalue _ _ rfl
  | truncate keep =>
      rcases act_truncate_eq_some.mp hact with ⟨_, rfl⟩
      exact fun x hx => h x (List.mem_of_mem_take hx)
  | enter offset link =>
      rcases act_enter_eq_some.mp hact with ⟨_, rfl⟩
      exact h
  | leave =>
      rcases act_leave_eq_some.mp hact with ⟨_, _, rfl⟩
      exact h

/-- A property of the padding and of every value brought in holds of all cells. -/
theorem run_forall {P : α → Prop} {actions : List (Action κ α)} (hpad : P pad)
    (hbrings : Brings P actions) (h : ∀ x ∈ f.cells, P x)
    (hrun : run pad actions f = some f') : ∀ x ∈ f'.cells, P x := by
  induction actions generalizing f with
  | nil =>
      cases hrun
      exact h
  | cons action actions ih =>
      rcases Option.bind_eq_some_iff.mp hrun with ⟨g, hact, hrest⟩
      have hg : ∀ x ∈ g.cells, P x :=
        act_forall hpad (fun o v heq => hbrings o v (heq ▸ List.mem_cons_self)) h hact
      exact ih (fun o v hmem => hbrings o v (List.mem_cons_of_mem _ hmem)) hg hrest

/-! ## Code that ends in its frame -/

/-- The indices a log has in front of an older log. -/
def newStores (before after : List Nat) : List Nat :=
  after.take (after.length - before.length)

@[simp]
theorem newStores_append (new before : List Nat) : newStores before (new ++ before) = new := by
  simp [newStores]

/-- Between two states of one frame the array only grew, and the log names every older
cell that changed; all of them belong to the frame. -/
structure Stays (f f' : Frames κ α) : Prop where
  current_eq : f'.current = f.current
  callers_eq : f'.callers = f.callers
  grows : f.cells.length ≤ f'.cells.length
  log : ∃ new, f'.stores = new ++ f.stores ∧ (∀ i ∈ new, f.current.base ≤ i) ∧
    ∀ i < f.cells.length, i ∉ new → f'.cells[i]? = f.cells[i]?

namespace Stays

theorem refl (f : Frames κ α) : Stays f f :=
  ⟨rfl, rfl, Nat.le_refl _, [], rfl, by simp, fun _ _ _ => rfl⟩

theorem trans {g : Frames κ α} (hfirst : Stays f g) (hsecond : Stays g f') : Stays f f' := by
  rcases hfirst.log with ⟨new, hnew, hge, hkept⟩
  rcases hsecond.log with ⟨new', hnew', hge', hkept'⟩
  refine ⟨hsecond.current_eq.trans hfirst.current_eq,
    hsecond.callers_eq.trans hfirst.callers_eq, Nat.le_trans hfirst.grows hsecond.grows,
    new' ++ new, ?_, ?_, ?_⟩
  · rw [hnew', hnew, List.append_assoc]
  · intro i hi
    rcases List.mem_append.mp hi with hi | hi
    · rw [← hfirst.current_eq]
      exact hge' i hi
    · exact hge i hi
  · intro i hlt hi
    rw [List.mem_append, not_or] at hi
    have hgrows := hfirst.grows
    rw [hkept' i (by omega) hi.1, hkept i hlt hi.2]

theorem assign (pad : α) (f : Frames κ α) (offset : Nat) (value : α) :
    Stays f { f with
      cells := CellArray.assign pad f.cells (f.index offset) value
      stores := f.index offset :: f.stores } := by
  refine ⟨rfl, rfl, ?_, [f.index offset], rfl, ?_, ?_⟩
  · simp only [length_assign]
    omega
  · intro i hi
    rw [List.mem_singleton.mp hi]
    exact Nat.le_add_right _ _
  · intro i hlt hi
    exact getElem?_assign_of_ne pad value (fun heq => hi (by simp [heq])) hlt

/-- Assignments alone stay in the frame. -/
theorem of_run {actions : List (Action κ α)}
    (hassign : ∀ action ∈ actions, ∃ offset value, action = .assign offset value)
    (hrun : run pad actions f = some f') : Stays f f' := by
  induction actions generalizing f with
  | nil =>
      cases hrun
      exact refl _
  | cons action actions ih =>
      rcases Option.bind_eq_some_iff.mp hrun with ⟨g, hact, hrest⟩
      rcases hassign action (by simp) with ⟨offset, value, rfl⟩
      cases hact
      exact (assign pad f offset value).trans
        (ih (fun a ha => hassign a (List.mem_cons_of_mem _ ha)) hrest)

/-- An older cell that no assignment names stays. -/
theorem run_kept {actions : List (Action κ α)} {i : Nat}
    (hassign : ∀ action ∈ actions, ∃ offset value, action = .assign offset value ∧
      f.index offset ≠ i)
    (hi : i < f.cells.length) (hrun : run pad actions f = some f') :
    f'.cells[i]? = f.cells[i]? := by
  induction actions generalizing f with
  | nil =>
      cases hrun
      rfl
  | cons action actions ih =>
      rcases Option.bind_eq_some_iff.mp hrun with ⟨g, hact, hrest⟩
      rcases hassign action (by simp) with ⟨offset, value, rfl, hne⟩
      cases hact
      have hgrows := (assign pad f offset value).grows
      refine Eq.trans (ih ?_ (Nat.lt_of_lt_of_le hi hgrows) hrest) ?_
      · exact fun a ha => hassign a (List.mem_cons_of_mem _ ha)
      · exact getElem?_assign_of_ne pad value hne.symm hi

/-- What the frame does not own stays. -/
theorem below (h : Stays f f') (hordered : f.Ordered) {i : Nat} (hi : i < f.current.base) :
    f'.cells[i]? = f.cells[i]? := by
  rcases h.log with ⟨new, _, hge, hkept⟩
  have hbase := hordered.base_le
  exact hkept i (by omega) fun hmem => absurd (hge i hmem) (by omega)

/-- A call that comes back without truncating stays in the caller's frame. -/
theorem enter_leave {g g' : Frames κ α} {offset : Nat} {link : κ}
    (henter : f.act pad (.enter offset link) = some g) (h : Stays g g')
    (hleave : g'.act pad .leave = some f') : Stays f f' := by
  rcases act_enter_eq_some.mp henter with ⟨_, rfl⟩
  rcases act_leave_eq_some.mp hleave with ⟨caller, hlast, rfl⟩
  simp only [h.callers_eq, List.getLast?_concat, Option.some.injEq] at hlast
  subst hlast
  rcases h.log with ⟨new, hnew, hge, hkept⟩
  refine ⟨rfl, ?_, h.grows, new, hnew, ?_, hkept⟩
  · simp only [h.callers_eq, List.dropLast_concat]
  · intro i hi
    exact Nat.le_trans (Nat.le_add_right _ _) (hge i hi)

/-- A call whose code assigns and comes back without truncating stays in the caller's
frame. -/
theorem of_call {body : List (Action κ α)} {offset : Nat} {link : κ}
    (hassign : ∀ action ∈ body, ∃ offset value, action = .assign offset value)
    (hrun : run pad ([.enter offset link] ++ body ++ [.leave]) f = some f') : Stays f f' := by
  rcases run_append_eq_some.mp hrun with ⟨g', hinner, hleave⟩
  rcases run_append_eq_some.mp hinner with ⟨g, henter, hbody⟩
  rw [run_singleton] at henter hleave
  exact enter_leave henter (of_run hassign hbody) hleave

end Stays

/-! ## What a running call protects -/

/-- The state is inside a call that was entered at the first state: the callers from
that time are still there, followed by the frame of the call itself, and the array is as
it was up to the base of that frame. -/
structure Nested (entry f : Frames κ α) : Prop where
  callers : ∃ above, f.callers = entry.callers ++ above ∧
    (above ++ [f.current]).head? = some entry.current
  room : entry.current.base < f.cells.length
  kept : ∀ i ≤ entry.current.base, f.cells[i]? = entry.cells[i]?

namespace Nested

variable {entry : Frames κ α}

theorem refl (hroom : entry.current.base < entry.cells.length) : Nested entry entry :=
  ⟨⟨[], by simp, by simp⟩, hroom, fun _ _ => rfl⟩

/-- No frame inside the call begins before the frame of the call. -/
theorem base_le (h : Nested entry f) (hordered : f.Ordered) :
    entry.current.base ≤ f.current.base := by
  rcases h.callers with ⟨above, hcallers, hhead⟩
  cases above with
  | nil =>
      simp only [List.nil_append, List.head?_cons, Option.some.injEq] at hhead
      exact Nat.le_of_eq (congrArg Frame.base hhead.symm)
  | cons first above =>
      simp only [List.cons_append, List.head?_cons, Option.some.injEq] at hhead
      rw [← hhead]
      exact hordered.caller_le first (by simp [hcallers])

/-- At the depth of the entry the running frame is the frame of the call. -/
theorem current_eq (h : Nested entry f) (hdepth : f.callers.length = entry.callers.length) :
    f.current = entry.current ∧ f.callers = entry.callers := by
  rcases h.callers with ⟨above, hcallers, hhead⟩
  have hnil : above = [] := by
    rw [hcallers, List.length_append] at hdepth
    exact List.length_eq_zero_iff.mp (by omega)
  subst hnil
  simp only [List.nil_append, List.head?_cons, Option.some.injEq] at hhead
  exact ⟨hhead, by simpa using hcallers⟩

/-- Code that stays in its frame keeps what the call protects, unless it assigns to the
first cell of the call. -/
theorem stay (h : Nested entry f) (hordered : f.Ordered) (hstays : Stays f f')
    (hnew : entry.current.base ∉ newStores f.stores f'.stores) : Nested entry f' := by
  rcases hstays.log with ⟨new, hlog, hge, hkept⟩
  rw [hlog, newStores_append] at hnew
  have hbase := h.base_le hordered
  have hroom := h.room
  refine ⟨?_, Nat.lt_of_lt_of_le hroom hstays.grows, ?_⟩
  · rw [hstays.callers_eq, hstays.current_eq]
    exact h.callers
  · intro i hi
    have hmem : i ∉ new := by
      intro hmem
      rcases Nat.lt_or_eq_of_le hi with hlt | rfl
      · exact absurd (hge i hmem) (by omega)
      · exact hnew hmem
    rw [hkept i (by omega) hmem, h.kept i hi]

/-- A call inside the call protects at least as much. -/
theorem enter {offset : Nat} {link : κ} (h : Nested entry f)
    (henter : f.act pad (.enter offset link) = some f') : Nested entry f' := by
  rcases act_enter_eq_some.mp henter with ⟨_, rfl⟩
  rcases h.callers with ⟨above, hcallers, hhead⟩
  refine ⟨⟨above ++ [f.current], ?_, ?_⟩, h.room, h.kept⟩
  · simp only [hcallers, List.append_assoc]
  · rw [List.head?_append, hhead, Option.some_or]

/-- A return from a frame behind the first cell of the call leaves an inner call. -/
theorem leave {keep : Nat} (h : Nested entry f) (hlt : entry.current.base < f.current.base)
    (hrun : run pad [.truncate keep, .leave] f = some f') : Nested entry f' := by
  rcases Option.bind_eq_some_iff.mp hrun with ⟨g, htruncate, hrest⟩
  rcases Option.bind_eq_some_iff.mp hrest with ⟨g', hleave, hdone⟩
  rcases act_truncate_eq_some.mp htruncate with ⟨hle, rfl⟩
  rcases act_leave_eq_some.mp hleave with ⟨caller, hlast, rfl⟩
  cases hdone
  rcases h.callers with ⟨above, hcallers, hhead⟩
  have hkeep : entry.current.base < f.index keep := by
    unfold index
    omega
  rcases List.eq_nil_or_concat above with rfl | ⟨rest, last, habove⟩
  · -- the running frame would be the frame of the call
    simp only [List.nil_append, List.head?_cons, Option.some.injEq] at hhead
    rw [hhead] at hlt
    exact absurd hlt (Nat.lt_irrefl _)
  · rw [List.concat_eq_append] at habove
    subst habove
    simp only [hcallers, ← List.append_assoc, List.getLast?_concat, Option.some.injEq] at hlast
    subst hlast
    refine ⟨⟨rest, ?_, ?_⟩, ?_, ?_⟩
    · simp only [hcallers, ← List.append_assoc, List.dropLast_concat]
    · rw [List.append_assoc, List.head?_append] at hhead
      cases rest with
      | nil => simpa using hhead
      | cons first rest => simpa using hhead
    · simp only [List.length_take]
      omega
    · intro i hi
      rw [List.getElem?_take_of_lt (by omega)]
      exact h.kept i hi

end Nested

/-! ## Turns of a machine with calls -/

/-- Code that does not return: it stays in its frame, or it enters the frame of a callee
at the end. -/
def Advances (pad : α) (f f' : Frames κ α) : Prop :=
  Stays f f' ∨ ∃ g offset link, Stays f g ∧ g.act pad (.enter offset link) = some f'

/-- A turn of a machine whose calls return a value in the first cell of their frame. -/
def Turn (pad : α) (f f' : Frames κ α) : Prop :=
  Advances pad f f' ∨
    ∃ value keep, f.run pad [.assign 0 value, .truncate keep, .leave] = some f'

theorem Stays.ordered (hstays : Stays f f') (h : f.Ordered) : f'.Ordered := by
  refine ⟨?_, ?_⟩
  · rw [hstays.current_eq]
    exact Nat.le_trans h.base_le hstays.grows
  · rw [hstays.current_eq, hstays.callers_eq]
    exact h.sorted

/-- Code that does not return leaves no frame. -/
theorem Advances.callers_le (h : Advances pad f f') :
    f.callers.length ≤ f'.callers.length := by
  rcases h with hstays | ⟨g, offset, link, hstays, henter⟩
  · exact Nat.le_of_eq (congrArg List.length hstays.callers_eq.symm)
  · rw [act_enter_eq_some] at henter
    rw [henter.2, ← hstays.callers_eq]
    exact List.length_append ▸ Nat.le_add_right _ _

theorem Turn.ordered (hturn : Turn pad f f') (h : f.Ordered) : f'.Ordered := by
  rcases hturn with (hstays | ⟨g, offset, link, hstays, henter⟩) | ⟨value, keep, hrun⟩
  · exact hstays.ordered h
  · exact act_ordered (hstays.ordered h) henter
  · exact run_ordered h hrun

/-- Code that does not return keeps what the frame does not own. -/
theorem Advances.below (hadvances : Advances pad f f') (h : f.Ordered) {i : Nat}
    (hi : i < f.current.base) : f'.cells[i]? = f.cells[i]? := by
  rcases hadvances with hstays | ⟨g, offset, link, hstays, henter⟩
  · exact hstays.below h hi
  · rcases act_enter_eq_some.mp henter with ⟨_, rfl⟩
    exact hstays.below h hi

/-- A return first assigns to the first cell of the frame, then drops it. -/
theorem run_ret {value : α} {keep : Nat}
    (hrun : f.run pad [.assign 0 value, .truncate keep, .leave] = some f') :
    ∃ caller, f.callers.getLast? = some caller ∧ f' =
      { current := caller
        callers := f.callers.dropLast
        cells := (CellArray.assign pad f.cells f.current.base value).take (f.index keep)
        stores := f.current.base :: f.stores } := by
  rcases Option.bind_eq_some_iff.mp hrun with ⟨g, hassign, hrest⟩
  rcases Option.bind_eq_some_iff.mp hrest with ⟨g', htruncate, hrest⟩
  rcases Option.bind_eq_some_iff.mp hrest with ⟨g'', hleave, hdone⟩
  cases hassign
  rcases act_truncate_eq_some.mp htruncate with ⟨_, rfl⟩
  rcases act_leave_eq_some.mp hleave with ⟨caller, hlast, rfl⟩
  cases hdone
  exact ⟨caller, hlast, rfl⟩

/-- A cell that is not assigned to stays as long as it is in use. -/
theorem Turn.kept (hturn : Turn pad f f') {i : Nat}
    (hnew : i ∉ newStores f.stores f'.stores) (hi : i < f.cells.length)
    (hi' : i < f'.cells.length) : f'.cells[i]? = f.cells[i]? := by
  rcases hturn with (hstays | ⟨g, offset, link, hstays, henter⟩) | ⟨value, keep, hrun⟩
  · rcases hstays.log with ⟨new, hlog, _, hkept⟩
    rw [hlog, newStores_append] at hnew
    exact hkept i hi hnew
  · rcases act_enter_eq_some.mp henter with ⟨_, rfl⟩
    rcases hstays.log with ⟨new, hlog, _, hkept⟩
    rw [hlog, newStores_append] at hnew
    exact hkept i hi hnew
  · rcases run_ret hrun with ⟨caller, _, rfl⟩
    rw [show f.current.base :: f.stores = [f.current.base] ++ f.stores from rfl,
      newStores_append, List.mem_singleton] at hnew
    simp only [List.length_take] at hi'
    rw [List.getElem?_take_of_lt (by omega), getElem?_assign_of_ne pad value hnew hi]

/-- No turn touches what the running frame does not own. -/
theorem Turn.below (hturn : Turn pad f f') (h : f.Ordered) {i : Nat}
    (hi : i < f.current.base) : f'.cells[i]? = f.cells[i]? := by
  rcases hturn with hadvances | ⟨value, keep, hrun⟩
  · exact hadvances.below h hi
  · have hbase := h.base_le
    rcases run_ret hrun with ⟨caller, _, rfl⟩
    have hkeep : i < f.index keep := Nat.lt_of_lt_of_le hi (Nat.le_add_right _ _)
    rw [List.getElem?_take_of_lt hkeep, getElem?_assign_of_ne pad value (by omega) (by omega)]

theorem Turn.base_le (hturn : Turn pad f f') (h : f.Ordered) :
    f.current.base ≤ f'.cells.length := by
  have hbase := h.base_le
  rcases hturn with (hstays | ⟨g, offset, link, hstays, henter⟩) | ⟨value, keep, hrun⟩
  · exact Nat.le_trans hbase hstays.grows
  · rcases act_enter_eq_some.mp henter with ⟨_, rfl⟩
    exact Nat.le_trans hbase hstays.grows
  · rcases run_ret hrun with ⟨caller, _, rfl⟩
    simp only [List.length_take, length_assign, index]
    omega

theorem Turn.take_below (hturn : Turn pad f f') (h : f.Ordered) :
    f'.cells.take f.current.base = f.cells.take f.current.base := by
  refine List.ext_getElem? fun i => ?_
  by_cases hi : i < f.current.base
  · rw [List.getElem?_take_of_lt hi, List.getElem?_take_of_lt hi, hturn.below h hi]
  · rw [List.getElem?_take, List.getElem?_take, if_neg hi, if_neg hi]

/-- The log only grows. -/
theorem Turn.stores (hturn : Turn pad f f') : ∃ new, f'.stores = new ++ f.stores := by
  rcases hturn with (hstays | ⟨g, offset, link, hstays, henter⟩) | ⟨value, keep, hrun⟩
  · rcases hstays.log with ⟨new, hnew, _⟩
    exact ⟨new, hnew⟩
  · rcases act_enter_eq_some.mp henter with ⟨_, rfl⟩
    rcases hstays.log with ⟨new, hnew, _⟩
    exact ⟨new, hnew⟩
  · rcases run_ret hrun with ⟨caller, _, rfl⟩
    exact ⟨[f.current.base], rfl⟩

/-- A turn keeps what a running call protects, unless it assigns to the first cell of the
call. -/
theorem Nested.turn {entry : Frames κ α} (h : Nested entry f) (hordered : f.Ordered)
    (hturn : Turn pad f f') (hnew : entry.current.base ∉ newStores f.stores f'.stores) :
    Nested entry f' := by
  have hbase := h.base_le hordered
  rcases hturn with (hstays | ⟨g, offset, link, hstays, henter⟩) | ⟨value, keep, hrun⟩
  · exact h.stay hordered hstays hnew
  · have henter' := henter
    rcases act_enter_eq_some.mp henter with ⟨_, rfl⟩
    exact (h.stay hordered hstays hnew).enter henter'
  · -- a return assigns to the first cell of the running frame, so an inner call returns
    rcases Option.bind_eq_some_iff.mp hrun with ⟨g, hassign, hleave⟩
    cases hassign
    have hne : entry.current.base ≠ f.current.base := by
      rcases run_ret hrun with ⟨caller, _, rfl⟩
      intro heq
      exact hnew (by simp [newStores, heq])
    refine Nested.leave (h.stay hordered (Stays.assign pad f 0 value) ?_) ?_ hleave
    · intro hmem
      rw [show f.index 0 :: f.stores = [f.index 0] ++ f.stores from rfl, newStores_append,
        List.mem_singleton] at hmem
      exact hne hmem
    · change entry.current.base < f.current.base
      omega

/-- The log only grows over a run. -/
theorem turns_stores (hturns : Relation.ReflTransGen (Turn pad) f f') :
    ∃ new, f'.stores = new ++ f.stores := by
  induction hturns with
  | refl => exact ⟨[], rfl⟩
  | tail _ hturn ih =>
      rcases ih with ⟨new, hnew⟩
      rcases hturn.stores with ⟨new', hnew'⟩
      exact ⟨new' ++ new, by rw [hnew', hnew, List.append_assoc]⟩

/-- What a running call protects is kept over a run. -/
theorem Nested.turns {entry : Frames κ α} (h : Nested entry f) (hordered : f.Ordered)
    (hturns : Relation.ReflTransGen (Turn pad) f f')
    (hnew : entry.current.base ∉ newStores f.stores f'.stores) :
    Nested entry f' ∧ f'.Ordered := by
  induction hturns with
  | refl => exact ⟨h, hordered⟩
  | tail hturns hturn ih =>
      rcases turns_stores hturns with ⟨new, hlog⟩
      rcases hturn.stores with ⟨new', hlog'⟩
      rw [hlog', hlog, ← List.append_assoc, newStores_append, List.mem_append, not_or] at hnew
      rcases ih (by rw [hlog, newStores_append]; exact hnew.2) with ⟨hnested, hmid⟩
      refine ⟨hnested.turn hmid hturn ?_, hturn.ordered hmid⟩
      rw [hlog', newStores_append]
      exact hnew.1

/-! ## Suspended frames -/

/-- Under the frame that starts at {lit}`base` are the callers of the calls listed, each with
the states in front of and behind its call, and their cells are as they were then. -/
inductive Suspended : List (Frames κ α × Frames κ α) → Nat → List (Frame κ) → List α → Prop
  | outermost {base : Nat} {cells : List α} : Suspended [] base [] cells
  | call {g g' : Frames κ α} {calls : List (Frames κ α × Frames κ α)} {cells : List α}
      (hbase : g.current.base ≤ g'.current.base)
      (hkept : cells.take g'.current.base = g'.cells.take g'.current.base)
      (hrest : Suspended calls g.current.base g.callers cells) :
      Suspended ((g, g') :: calls) g'.current.base (g.callers ++ [g.current]) cells

section Suspended

variable {calls : List (Frames κ α × Frames κ α)} {base : Nat} {callers : List (Frame κ)}
    {cells cells' : List α}

theorem Suspended.congr (h : Suspended calls base callers cells)
    (hkept : cells'.take base = cells.take base) : Suspended calls base callers cells' := by
  induction h generalizing cells' with
  | outermost => exact .outermost
  | @call g g' calls cells hbase hold hrest ih =>
      refine .call hbase (hkept.trans hold) (ih ?_)
      have hshort := congrArg (List.take g.current.base) hkept
      rwa [List.take_take, List.take_take, Nat.min_eq_left hbase] at hshort

/-- A turn in the running frame leaves the callers suspended. -/
theorem Suspended.stays (h : Suspended calls f.current.base f.callers f.cells)
    (hordered : f.Ordered) (hturn : Turn pad f f') (hstays : f'.callers.length = f.callers.length) :
    Suspended calls f'.current.base f'.callers f'.cells := by
  have hbelow := hturn.take_below hordered
  rcases hturn with (hstay | ⟨g, offset, link, hstay, henter⟩) | ⟨value, keep, hrun⟩
  · rw [hstay.current_eq, hstay.callers_eq]
    exact h.congr hbelow
  · rcases act_enter_eq_some.mp henter with ⟨_, rfl⟩
    rw [hstay.callers_eq, List.length_append, List.length_singleton] at hstays
    omega
  · rcases run_ret hrun with ⟨caller, hlast, rfl⟩
    have hpos := List.length_pos_of_mem (List.mem_of_getLast? hlast)
    simp only [List.length_dropLast] at hstays
    omega

/-- A call suspends the frame it is made in. -/
theorem Suspended.enters (h : Suspended calls f.current.base f.callers f.cells)
    (hordered : f.Ordered) (hturn : Turn pad f f')
    (henters : f'.callers.length = f.callers.length + 1) :
    Suspended ((f, f') :: calls) f'.current.base f'.callers f'.cells := by
  have hbelow := hturn.take_below hordered
  rcases hturn with (hstay | ⟨g, offset, link, hstay, henter⟩) | ⟨value, keep, hrun⟩
  · rw [hstay.callers_eq] at henters
    omega
  · rcases act_enter_eq_some.mp henter with ⟨_, rfl⟩
    have hcallers : g.callers ++ [g.current] = f.callers ++ [f.current] := by
      rw [hstay.callers_eq, hstay.current_eq]
    rw [hcallers]
    refine .call ?_ rfl (h.congr hbelow)
    change f.current.base ≤ g.current.base + offset
    rw [hstay.current_eq]
    exact Nat.le_add_right _ _
  · rcases run_ret hrun with ⟨caller, hlast, rfl⟩
    simp only [List.length_dropLast] at henters
    omega

/-- A return goes on in the frame of the last call, whose cells are as they were. -/
theorem Suspended.leaves {g g' : Frames κ α}
    (h : Suspended ((g, g') :: calls) f.current.base f.callers f.cells) (hordered : f.Ordered)
    (hturn : Turn pad f f') (hleaves : f'.callers.length + 1 = f.callers.length) :
    Suspended calls f'.current.base f'.callers f'.cells ∧ f'.current = g.current ∧
      f'.cells.drop g.current.base =
        (g'.cells.take g'.current.base).drop g.current.base ++ f'.cells.drop f.current.base := by
  have hbelow := hturn.take_below hordered
  have hlength := hturn.base_le hordered
  rcases hturn with (hstay | ⟨_, offset, link, hstay, henter⟩) | ⟨value, keep, hrun⟩
  · rw [hstay.callers_eq] at hleaves
    omega
  · rcases act_enter_eq_some.mp henter with ⟨_, rfl⟩
    rw [hstay.callers_eq, List.length_append] at hleaves
    omega
  · rcases run_ret hrun with ⟨caller, hlast, rfl⟩
    generalize hcells : (CellArray.assign pad f.cells f.current.base value).take (f.index keep) =
      cells at hbelow hlength ⊢
    generalize hframe : f.current.base = top at h hbelow hlength ⊢
    generalize hcallers : f.callers = below at h hlast ⊢
    cases h with
    | call hbase hkept hrest =>
        rw [List.getLast?_concat, Option.some.injEq] at hlast
        subst hlast
        refine ⟨?_, rfl, ?_⟩
        · rw [List.dropLast_concat]
          refine hrest.congr ?_
          have hshort := congrArg (List.take g.current.base) hbelow
          rwa [List.take_take, List.take_take, Nat.min_eq_left hbase] at hshort
        · have hfits : g.current.base ≤ (cells.take g'.current.base).length := by
            rw [List.length_take]
            exact Nat.le_min.mpr ⟨hbase, Nat.le_trans hbase hlength⟩
          rw [← hkept, ← hbelow, ← List.drop_append_of_le_length hfits, List.take_append_drop]

end Suspended

end Frames

end FrameStack
