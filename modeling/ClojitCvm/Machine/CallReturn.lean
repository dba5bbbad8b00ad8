import ClojitCvm.Machine.BumpHost
import ClojitCvm.Machine.FrameInvariant

/-!
# Calls and returns

A call saves the context of the caller and stores the return address in the first slot
of the callee's frame.  Whatever the callee calls in turn, its return finds both again,
unless some code has assigned to that slot.

Main results:

- The structure {lit}`ReturnsTo`: what the caller may rely on behind a call.
- Theorem {lit}`call_returnsTo`: calls of functions and of builtins come back so.
-/

namespace ClojitCvm

open CellArray FrameStack Slot

/-- The machine is behind the call in {lit}`s` with the result in slot {lit}`a` of the
caller.  The slots below the callee's frame are as they were, and those that were not in
use are nil. -/
structure ReturnsTo (s : VM) (a : Nat) (value : Word) (s₂ : VM) : Prop where
  pc_eq : s₂.pc = s.pc + 1
  base_eq : s₂.base = s.base
  ip_eq : s₂.ip = s.ip
  contexts_eq : s₂.contexts = s.contexts
  slots_eq : ∀ i < s.base + a, s₂.words[i]? = some (s.words.getD i 0#64)
  result_eq : s₂.words[s.base + a]? = some value

namespace VM

variable {host : Host} {sec : Sections} {s s₁ s₂ t : VM} {a : Nat}

/-- The slots below a slot that was assigned to. -/
theorem getElem?_assign_below {xs : List Word} {i n : Nat} (v : Word) (hi : i < n) :
    (assign 0#64 xs n v)[i]? = some (xs.getD i 0#64) := by
  rw [getElem?_assign, if_neg (by omega), if_pos hi, List.getD_eq_getElem?_getD]
  split
  · next hlt => simp [hlt]
  · next hge => simp [List.getElem?_eq_none (Nat.le_of_not_lt hge)]

/-- A caller's frame that is current again. -/
theorem returnsTo_of_frames {value : Word} (hpc : s₂.pc = s.pc + 1)
    (hcurrent : s₂.frames.current = s.frames.current)
    (hcallers : s₂.frames.callers = s.frames.callers)
    (hslots : ∀ i < s.base + a, s₂.words[i]? = some (s.words.getD i 0#64))
    (hresult : s₂.words[s.base + a]? = some value) : ReturnsTo s a value s₂ :=
  ⟨hpc, congrArg Frame.base hcurrent, congrArg Frame.link hcurrent,
    List.map_injective_iff.mpr Context.frame_injective hcallers, hslots, hresult⟩

/-- The state inside a callee, right behind the call. -/
theorem call_frames {func : BitVec 16} (hmoves : Moves s
      [.assign a (toSmallInt s.pc), .enter a (func.setWidth 32)] s₁) :
    s₁.frames = {
      current := ⟨s.base + a, func.setWidth 32⟩
      callers := s.frames.callers ++ [s.frames.current]
      cells := assign 0#64 s.words (s.base + a) (toSmallInt s.pc)
      stores := (s.base + a) :: s.stores } := by
  rcases Option.bind_eq_some_iff.mp hmoves.run with ⟨stored, hset, henter⟩
  cases hset
  exact (Frames.act_enter_eq_some.mp ((Frames.run_singleton ..).symm.trans henter)).2

/-- The state behind a return. -/
theorem ret_step {inst : Decoded} (h : t.WellFormed host)
    (hinst : current? host sec t = some inst) (hret : inst.op = some .ret)
    (hstep : step host sec t = .ok s₂) :
    ∃ slot value, t.words[t.base]? = some slot ∧ t.words[t.base + inst.a]? = some value ∧
      s₂.pc = getSmallInt slot + 1 ∧
      ∃ caller, t.frames.callers.getLast? = some caller ∧ s₂.frames =
        { current := caller
          callers := t.frames.callers.dropLast
          cells := (assign 0#64 t.words t.base value).take (t.base + inst.a)
          stores := t.base :: t.stores } := by
  rcases h.effect hinst hstep with ⟨_, _, _, actions, heffect, hmoves⟩
  rw [hret] at heffect
  generalize hrest : s₂.rest = rest at heffect
  cases heffect with
  | ret hslot hvalue =>
      exact ⟨_, _, hslot, hvalue, congrArg Rest.pc hrest, Frames.run_ret hmoves.run⟩
  | _ => contradiction

/-- What a call protects is still there as long as its context is on the stack and its
return address was not stored to. -/
theorem callee_kept {func : BitVec 16} {n : Nat} (h : s.WellFormed host)
    (hcall : step host sec s = .ok s₁)
    (hmoves : Moves s [.assign a (toSmallInt s.pc), .enter a (func.setWidth 32)] s₁)
    (hrun : run host sec n s₁ = .ok t)
    (hstores : s.base + a ∉ Frames.newStores s₁.stores t.stores)
    (hdepth : t.stack.top = s.stack.top + 1) :
    t.base = s.base + a ∧ t.frames.callers = s.frames.callers ++ [s.frames.current] ∧
      ∀ i ≤ s.base + a,
        t.words[i]? = (assign 0#64 s.words (s.base + a) (toSmallInt s.pc))[i]? := by
  have h₁ := h.step hcall
  have hentry := call_frames hmoves
  have hbase₁ : s₁.frames.current.base = s.base + a := by rw [hentry]
  have hroom : s₁.frames.current.base < s₁.frames.cells.length := by
    simp only [hentry, length_assign]
    omega
  rcases (Frames.Nested.refl hroom).turns h₁.ordered (run_turns h₁ hrun)
    (hbase₁.symm ▸ hstores) with ⟨hnested, _⟩
  have hlength : t.frames.callers.length = s₁.frames.callers.length := by
    have htop := (h₁.run hrun).top_eq
    have htops := h.top_eq
    rw [hentry]
    simp only [frames, List.length_append, List.length_map, List.length_singleton]
    omega
  rcases hnested.current_eq hlength with ⟨hcurrent, hcallers⟩
  refine ⟨(congrArg Frame.base hcurrent).trans hbase₁, by rw [hcallers, hentry], ?_⟩
  intro i hi
  have hcells := hnested.kept i (hbase₁.symm ▸ hi)
  rwa [hentry] at hcells

/-- A call of a function that is still running when it returns. -/
theorem function_returnsTo {func : BitVec 16} {n : Nat} {inst : Decoded}
    (h : s.WellFormed host) (hcall : step host sec s = .ok s₁)
    (hmoves : Moves s [.assign a (toSmallInt s.pc), .enter a (func.setWidth 32)] s₁)
    (hrun : run host sec n s₁ = .ok t)
    (hstores : s.base + a ∉ Frames.newStores s₁.stores t.stores)
    (hdepth : t.stack.top = s.stack.top + 1) (hinst : current? host sec t = some inst)
    (hret : inst.op = some .ret) (hpos : 1 ≤ inst.a) (hstep : step host sec t = .ok s₂) :
    ∃ value, t.words[t.base + inst.a]? = some value ∧ ReturnsTo s a value s₂ := by
  rcases callee_kept h hcall hmoves hrun hstores hdepth with ⟨hbase, hcallers, hkept⟩
  rcases ret_step ((h.step hcall).run hrun) hinst hret hstep with
    ⟨slot, value, hslot, hvalue, hpc, caller, hlast, hframes⟩
  have hlt : t.base + inst.a < t.words.length := (List.getElem?_eq_some_iff.mp hvalue).1
  have hwords : s₂.words = (assign 0#64 t.words t.base value).take (t.base + inst.a) :=
    congrArg Frames.cells hframes
  refine ⟨value, hvalue, returnsTo_of_frames ?_ ?_ ?_ ?_ ?_⟩
  · rw [hbase, hkept _ (Nat.le_refl _), getElem?_assign_self, Option.some.injEq] at hslot
    rw [hpc, ← hslot, getSmallInt_toSmallInt]
  · rw [hcallers, List.getLast?_concat, Option.some.injEq] at hlast
    rw [hframes, hlast]
  · rw [hframes, hcallers, List.dropLast_concat]
  · intro i hi
    rw [hwords, List.getElem?_take_of_lt (by omega), hbase,
      getElem?_assign_of_ne 0#64 value (by omega) (by omega), hkept i (by omega),
      getElem?_assign_below _ hi]
  · rw [hwords, List.getElem?_take_of_lt (by omega), ← hbase, getElem?_assign_self]

/-- The state behind the call of a builtin. -/
theorem builtin_returnsTo (hmoves : Moves s (builtinCall s.pc a) s₁)
    (hpc : s₁.pc = s.pc + 1) : ReturnsTo s a getNil s₁ := by
  rcases Frames.run_append_eq_some.mp hmoves.run with ⟨stored, hset, hcall⟩
  rcases Frames.run_append_eq_some.mp hcall with ⟨g, hinner, hleave⟩
  rcases Frames.run_append_eq_some.mp hinner with ⟨entered, henter, hbody⟩
  rcases Option.bind_eq_some_iff.mp hbody with ⟨nilled, hnil, hclears⟩
  rw [Frames.run_singleton] at hset henter hleave
  cases hset
  rcases Frames.act_enter_eq_some.mp henter with ⟨_, rfl⟩
  cases hnil
  rcases Frames.act_leave_eq_some.mp hleave with ⟨caller, hlast, hframes⟩
  have hclear : ∀ action ∈ clears (a + 8) 2, ∃ offset value, action = .assign offset value ∧
      2 ≤ offset := by
    intro action haction
    rcases List.mem_map.mp haction with ⟨k, hk, rfl⟩
    exact ⟨k, getNil, rfl, (List.mem_range'_1.mp hk).1⟩
  have hstays := Frames.Stays.of_run
    (fun action haction => (hclear action haction).imp fun _ h => h.imp fun _ h => h.1) hclears
  have hcallers : g.callers = s.frames.callers ++ [s.frames.current] := hstays.callers_eq
  -- the loop begins behind the first two slots of the frame
  have hwords : ∀ i ≤ s.base + a, s₁.words[i]? =
      (assign 0#64 (assign 0#64 s.words (s.base + a) (toSmallInt s.pc)) (s.base + a)
        getNil)[i]? := by
    intro i hi
    change s₁.frames.cells[i]? = _
    rw [hframes]
    refine Frames.Stays.run_kept ?_ ?_ hclears
    · intro action haction
      rcases hclear action haction with ⟨offset, value, rfl, hoffset⟩
      refine ⟨offset, value, rfl, ?_⟩
      change s.base + a + offset ≠ i
      omega
    · simp only [length_assign]
      change i < max (max s.words.length (s.base + a + 1)) (s.base + a + 0 + 1)
      omega
  refine returnsTo_of_frames hpc ?_ ?_ ?_ ?_
  · rw [hcallers, List.getLast?_concat, Option.some.injEq] at hlast
    rw [hframes, hlast]
  · rw [hframes, hcallers, List.dropLast_concat]
  · intro i hi
    rw [hwords i (by omega), getElem?_assign_of_ne 0#64 getNil (by omega)
      (by rw [length_assign]; omega), getElem?_assign_below _ hi]
  · rw [hwords _ (Nat.le_refl _), getElem?_assign_self]

end VM

/-! ## The discipline -/

/-- Let the machine execute a call.  If it calls a function, then whatever runs until the
return that pops the context of this call, without a store to the first slot of the
function's frame, the caller goes on behind the call with the slot that is returned.  The
call of a builtin that comes back does so with nil. -/
theorem call_returnsTo {host : Host} {sec : Sections} {s s₁ : VM} {inst : Decoded}
    {fnSlot : Word} (hreach : Reachable host sec s) (hinst : current? host sec s = some inst)
    (hcall : inst.op = some .call) (hfn : s.words[s.base + (inst.a + 1)]? = some fnSlot)
    (hstep : step host sec s = .ok s₁) :
    (isFnew fnSlot = true → getFnew fnSlot ≠ 0#16 →
      ∀ n t, run host sec n s₁ = .ok t →
        s.base + inst.a ∉ Frames.newStores s₁.stores t.stores →
        t.stack.top = s.stack.top + 1 →
        ∀ ret, current? host sec t = some ret → ret.op = some .ret → 1 ≤ ret.a →
          ∀ s₂, step host sec t = .ok s₂ →
            ∃ value, t.words[t.base + ret.a]? = some value ∧ ReturnsTo s inst.a value s₂) ∧
    (isFnew fnSlot = false → isBuiltin fnSlot = true → ReturnsTo s inst.a getNil s₁) := by
  have h := hreach.wellFormed
  rcases h.effect hinst hstep with ⟨_, _, _, actions, heffect, hmoves⟩
  rw [hcall] at heffect
  generalize hrest : s₁.rest = rest at heffect
  cases heffect with
  | call hfn' hfunc hne =>
      rw [hfn, Option.some.injEq] at hfn'
      subst hfn'
      constructor
      · intro _ _ n t hrun hstores hdepth ret hret hop hpos s₂ hstep₂
        exact VM.function_returnsTo h hstep hmoves hrun hstores hdepth hret hop hpos hstep₂
      · intro hfnew hbuiltin
        simp only [calledFunc, hfnew, hbuiltin, Bool.false_eq_true, if_false, if_true,
          Option.some.injEq] at hfunc
        exact absurd hfunc.symm hne
  | builtin hfn' hfunc hprintln =>
      rw [hfn, Option.some.injEq] at hfn'
      subst hfn'
      constructor
      · intro hfnew hne
        simp only [calledFunc, hfnew, if_true, Option.some.injEq] at hfunc
        exact absurd hfunc hne
      · intro _ _
        exact VM.builtin_returnsTo hmoves (congrArg Rest.pc hrest)
  | _ => contradiction

/-- The outer call comes back with the result of the inner one, and a call of
{lit}`println` with nil. -/
theorem nestedCalls_returnTo :
    (∃ value, (nestedState 6).words[(nestedState 6).base + 2]? = some value ∧
      ReturnsTo (nestedState 1) 1 value (nestedState 7)) ∧
    ReturnsTo (nestedState 9) 1 getNil (nestedState 10) := by
  have hcall : current? nestedHost (loadfile nestedHost) (nestedState 1) =
      some ⟨some .call, 1, 0, 0, 0⟩ := by decide
  have hret : current? nestedHost (loadfile nestedHost) (nestedState 6) =
      some ⟨some .ret, 2, 0, 0, 0⟩ := by decide
  have hprint : current? nestedHost (loadfile nestedHost) (nestedState 9) =
      some ⟨some .call, 1, 0, 0, 0⟩ := by decide
  have hfn : (nestedState 1).words[(nestedState 1).base + (1 + 1)]? = some (toFnew 6#16) := by
    decide
  have hprintln : (nestedState 9).words[(nestedState 9).base + (1 + 1)]? =
      some (toBuiltin nestedHost.println) := by decide
  constructor
  · exact (call_returnsTo (reachable_stateAfter (by decide)) hcall rfl hfn
      (step_stateAfter (by decide) (by decide))).1 (by decide) (by decide) 4 _
      (run_between (by decide) (by decide)) (by decide) (by decide) _ hret rfl (by decide) _
      (step_stateAfter (by decide) (by decide))
  · exact (call_returnsTo (reachable_stateAfter (by decide)) hprint rfl hprintln
      (step_stateAfter (by decide) (by decide))).2 (by decide) (by decide)

end ClojitCvm
