import ClojitCvm.Lib.ForwardCopy
import ClojitCvm.Machine.CallReturn

/-!
# Function values

The value that {lit}`FNEW` creates for a code address is moved between slots, through the
symbol table and from callee to caller before a call enters the function.  This file
follows the value over the run.

Main results:

- Definition {lit}`Carries`: the places a function value reaches in a run.
- Theorem {lit}`Carries.held`: the value is still there.
- Theorem {lit}`carried_enters_iff`: when a call of the value enters the function.
-/

namespace ClojitCvm

open ByteMemory CellArray ForwardCopy FrameStack Slot

/-! ## Places -/

/-- A place that keeps a value while instructions run: a slot, by its index in the array, or
a name of the symbol table. -/
inductive Place where
  | slot (i : Nat)
  | name (key : List Byte)
deriving DecidableEq, Repr

def VM.held? (vm : VM) : Place → Option Word
  | .slot i => vm.words[i]?
  | .name key => vm.symbolTable.lookup key

@[simp]
theorem VM.held?_slot (vm : VM) (i : Nat) : vm.held? (.slot i) = vm.words[i]? := rfl

@[simp]
theorem VM.held?_name (vm : VM) (key : List Byte) :
    vm.held? (.name key) = vm.symbolTable.lookup key := rfl

/-- The value of the first place is in the second one behind the instruction: the instruction
copies it there, or leaves its place alone. -/
inductive Copies (host : Host) (sec : Sections) (vm : VM) (inst : Decoded) (vm' : VM) :
    Place → Place → Prop
  | mov (hop : inst.op = some .mov) :
      Copies host sec vm inst vm' (.slot (vm.base + inst.d.toNat)) (.slot (vm.base + inst.a))
  | bulkmov {i : Nat} (hop : inst.op = some .bulkmov) (hi : i < inst.c) :
      Copies host sec vm inst vm'
        (.slot (sourceIndex (vm.base + inst.b) (vm.base + inst.a) i))
        (.slot (vm.base + inst.a + i))
  | nsset {key : List Byte} (hop : inst.op = some .nsset)
      (hkey : nameOf? host sec inst.d = some key) :
      Copies host sec vm inst vm' (.slot (vm.base + inst.a)) (.name key)
  | nsget {key : List Byte} (hop : inst.op = some .nsget)
      (hkey : nameOf? host sec inst.d = some key) :
      Copies host sec vm inst vm' (.name key) (.slot (vm.base + inst.a))
  | ret (hop : inst.op = some .ret) (hpos : 0 < inst.a) :
      Copies host sec vm inst vm' (.slot (vm.base + inst.a)) (.slot vm.base)
  | slot {i : Nat} (hstores : i ∉ Frames.newStores vm.stores vm'.stores)
      (hin : i < vm'.words.length) : Copies host sec vm inst vm' (.slot i) (.slot i)
  | name {key : List Byte}
      (hkey : inst.op = some .nsset → nameOf? host sec inst.d ≠ some key) :
      Copies host sec vm inst vm' (.name key) (.name key)

/-- The places that hold a function value of a code address: {lit}`FNEW` puts it into a slot,
and instructions carry it from there. -/
inductive Carries (host : Host) (sec : Sections) (d : BitVec 16) : VM → Place → Prop
  | fnew {vm vm' : VM} {inst : Decoded} (hreach : Reachable host sec vm)
      (hinst : current? host sec vm = some inst) (hop : inst.op = some .fnew)
      (hd : inst.d = d) (hok : step host sec vm = .ok vm') :
      Carries host sec d vm' (.slot (vm.base + inst.a))
  | step {vm vm' : VM} {inst : Decoded} {source target : Place}
      (hcarries : Carries host sec d vm source) (hinst : current? host sec vm = some inst)
      (hok : step host sec vm = .ok vm') (hcopies : Copies host sec vm inst vm' source target) :
      Carries host sec d vm' target

/-! ## Copies of single instructions -/

namespace VM

variable {host : Host} {sec : Sections} {vm vm' : VM} {inst : Decoded} {word : Word}
    {a b : Nat} {d : BitVec 16}

/-- The words behind the loop of {lit}`BULKMOV`. -/
theorem bulkMove_words {turns i : Nat} (h : vm.WellFramed) (hroom : a + i + turns < 2 ^ 20)
    (hroom' : b + i + turns < 2 ^ 20) (hok : bulkMove a b turns i vm = .ok vm') :
    copyForward 0#64 (vm.base + b) (vm.base + a) turns i vm.words = some vm'.words := by
  induction turns generalizing vm i with
  | zero =>
      cases hok
      rfl
  | succ turns ih =>
      rcases bind_eq_ok.mp hok with ⟨mid, hmove, hrest⟩
      rcases move_acts h (by omega) (by omega) hmove with ⟨word, hword, hfirst⟩
      rcases hfirst.of_assign with ⟨hwords, hbase⟩
      have hmid := ih (hfirst.wellFramed h) (by omega) (by omega) hrest
      rw [hwords, hbase] at hmid
      rw [copyForward, Nat.add_assoc, hword, Nat.add_assoc]
      exact hmid

/-- The table behind {lit}`NSSET`. -/
theorem execNsset_table (h : vm.WellFramed) (ha : a < 256)
    (hok : execNsset host sec vm a d = .ok vm') :
    ∃ name value, nameOf? host sec d = some name ∧ vm.words[vm.base + a]? = some value ∧
      vm'.symbolTable = (vm.addSymbolTablePair name value).symbolTable := by
  rcases bind_eq_ok.mp hok with ⟨⟨mid, value⟩, hget, hrest⟩
  rcases bind_eq_ok.mp hrest with ⟨⟨mid₂, p⟩, hcstr, hrest⟩
  rcases bind_eq_ok.mp hrest with ⟨⟨last, name⟩, hname, hret⟩
  cases hret
  rcases nameOf?_of_reads hcstr hname with ⟨rfl, hkey⟩
  rcases get_acts h (by omega) hget with ⟨hvalue, hacts⟩
  refine ⟨name, value, hkey, hvalue, ?_⟩
  change symbolTableOps.insert last.symbolTable name value = _
  rw [hacts.rest_fields.2.1]
  rfl

/-- The word that {lit}`NSGET` assigns. -/
theorem execNsget_words (h : vm.WellFramed) (ha : a < 256)
    (hok : execNsget host sec vm a d = .ok vm') :
    ∃ name, nameOf? host sec d = some name ∧
      vm'.words[vm.base + a]? = some (vm.getSymbolTable name) := by
  rcases bind_eq_ok.mp hok with ⟨⟨mid, p⟩, hcstr, hrest⟩
  rcases bind_eq_ok.mp hrest with ⟨⟨mid₂, name⟩, hname, hrest⟩
  rcases bind_eq_ok.mp hrest with ⟨last, hset, hret⟩
  cases hret
  rcases nameOf?_of_reads hcstr hname with ⟨rfl, hkey⟩
  refine ⟨name, hkey, ?_⟩
  change last.words[_]? = _
  rw [(set_acts h (by omega) hset).of_assign.1]
  exact getElem?_assign_self ..

/-- Only {lit}`NSSET` changes the symbol table. -/
theorem Effect.symbolTable_eq {op : Option Opcode} {actions : List SlotAction} {rest : Rest}
    {c : Nat} (heffect : Effect host sec vm a b c d op actions rest) (hop : op ≠ some .nsset) :
    rest.symbolTable = vm.symbolTable := by
  cases heffect with
  | nsset => exact absurd rfl hop
  | branch => split <;> rfl
  | _ => rfl

/-- The words behind {lit}`MOV`. -/
theorem words_of_mov (h : vm.WellFormed host) (hinst : current? host sec vm = some inst)
    (hop : inst.op = some .mov) (hok : step host sec vm = .ok vm') :
    vm'.words[vm.base + inst.a]? = vm.words[vm.base + inst.d.toNat]? := by
  rcases h.effect hinst hok with ⟨_, _, _, actions, heffect, hmoves⟩
  generalize vm'.rest = rest at heffect
  rw [hop] at heffect
  cases heffect with
  | mov hword =>
      rw [hword, hmoves.of_assign.1]
      exact getElem?_assign_self ..
  | _ => contradiction

/-- The words behind {lit}`BULKMOV`. -/
theorem words_of_bulkmov {i : Nat} (h : vm.WellFormed host)
    (hinst : current? host sec vm = some inst) (hop : inst.op = some .bulkmov)
    (hok : step host sec vm = .ok vm') (hi : i < inst.c)
    (hword : vm.words[sourceIndex (vm.base + inst.b) (vm.base + inst.a) i]? = some word) :
    vm'.words[vm.base + inst.a + i]? = some word := by
  rcases current?_lt hinst with ⟨ha, hb, hc⟩
  have hexec := step_eq_execute hinst ▸ hok
  rw [hop] at hexec
  rcases bind_eq_ok.mp hexec with ⟨mid, hmove, hret⟩
  cases hret
  have hcopy := bulkMove_words h.toWellFramed (by omega) (by omega) hmove
  exact (copyForward_copied (Copied.refl _ _ _) hcopy).moved i (by omega) word hword

/-- The result of {lit}`RET` is the first word of the frame it leaves. -/
theorem words_of_ret (h : vm.WellFormed host) (hinst : current? host sec vm = some inst)
    (hop : inst.op = some .ret) (hpos : 0 < inst.a) (hok : step host sec vm = .ok vm') :
    vm'.words[vm.base]? = vm.words[vm.base + inst.a]? := by
  rcases ret_step h hinst hop hok with ⟨_, value, _, hvalue, _, caller, _, hframes⟩
  have hwords : vm'.words = _ := congrArg Frames.cells hframes
  rw [hvalue, hwords, List.getElem?_take_of_lt (by omega)]
  exact getElem?_assign_self ..

/-- The table behind an instruction that does not bind the name. -/
theorem lookup_of_step {key : List Byte} (h : vm.WellFormed host)
    (hinst : current? host sec vm = some inst) (hok : step host sec vm = .ok vm')
    (hkey : inst.op = some .nsset → nameOf? host sec inst.d ≠ some key) :
    vm'.symbolTable.lookup key = vm.symbolTable.lookup key := by
  by_cases hop : inst.op = some .nsset
  · have hexec := step_eq_execute hinst ▸ hok
    rw [hop] at hexec
    rcases execNsset_table h.toWellFramed (current?_lt hinst).1 hexec with
      ⟨name, value, hname, _, htable⟩
    have hne : key ≠ name := by
      rintro rfl
      exact hkey hop hname
    rw [htable, lookup_addSymbolTablePair_of_ne vm value hne]
  · rcases h.effect hinst hok with ⟨_, _, _, actions, heffect, _⟩
    have htable : vm'.symbolTable = _ := Effect.symbolTable_eq heffect hop
    rw [htable]

/-- Whatever copies a value finds it at its new place. -/
theorem held_of_copies {source target : Place} (h : vm.WellFormed host)
    (hinst : current? host sec vm = some inst) (hok : step host sec vm = .ok vm')
    (hcopies : Copies host sec vm inst vm' source target) (hheld : vm.held? source = some word) :
    vm'.held? target = some word := by
  rcases current?_lt hinst with ⟨ha, _, _⟩
  have hexec := step_eq_execute hinst ▸ hok
  cases hcopies with
  | mov hop => exact (words_of_mov h hinst hop hok).trans hheld
  | bulkmov hop hi => exact words_of_bulkmov h hinst hop hok hi hheld
  | nsset hop hkey =>
      rw [hop] at hexec
      rcases execNsset_table h.toWellFramed ha hexec with ⟨name, value, hname, hvalue, htable⟩
      obtain rfl := Option.some.inj (hkey.symm.trans hname)
      obtain rfl := Option.some.inj (hvalue.symm.trans hheld)
      rw [held?_name, htable, lookup_addSymbolTablePair_self]
  | nsget hop hkey =>
      rw [hop] at hexec
      rcases execNsget_words h.toWellFramed ha hexec with ⟨name, hname, hword⟩
      obtain rfl := Option.some.inj (hkey.symm.trans hname)
      rw [held?_name] at hheld
      rw [held?_slot, hword, getSymbolTable_eq, hheld]
      rfl
  | ret hop hpos => exact (words_of_ret h hinst hop hpos hok).trans hheld
  | slot hstores hin =>
      rw [held?_slot] at hheld ⊢
      rw [← hheld]
      exact (step_turn h hok).kept hstores (List.getElem?_eq_some_iff.mp hheld).1 hin
  | name hkey => exact (lookup_of_step h hinst hok hkey).trans hheld

end VM

/-! ## Carried values -/

namespace Carries

variable {host : Host} {sec : Sections} {d : BitVec 16} {vm : VM} {place : Place}

theorem reachable (h : Carries host sec d vm place) : Reachable host sec vm := by
  induction h with
  | fnew hreach _ _ _ hok => exact hreach.step hok
  | step _ _ hok _ ih => exact ih.step hok

/-- A place that a function value was carried to holds it. -/
theorem held (h : Carries host sec d vm place) : vm.held? place = some (toFnew d) := by
  induction h with
  | @fnew vm vm' inst hreach hinst hop hd hok =>
      rcases hreach.wellFormed.effect hinst hok with ⟨_, _, _, actions, heffect, hmoves⟩
      generalize vm'.rest = rest at heffect
      rw [hop] at heffect
      cases heffect with
      | constant hword =>
          cases hword
          change vm'.words[_]? = _
          rw [hmoves.of_assign.1, hd]
          exact getElem?_assign_self ..
      | _ => contradiction
  | step hcarries hinst hok hcopies ih =>
      exact VM.held_of_copies hcarries.reachable.wellFormed hinst hok hcopies ih

end Carries

/-! ## Calls of function values -/

/-- The call enters the function: the machine goes on at the code address, in a frame that
begins at the local base of the caller's. -/
def Enters (host : Host) (sec : Sections) (vm : VM) (localbase : Nat) (d : BitVec 16) : Prop :=
  ∃ vm', step host sec vm = .ok vm' ∧ vm'.pc = d.setWidth 32 ∧
    vm'.base = vm.base + localbase ∧ vm'.contexts = vm.contexts ++ [vm.getContext]

/-- A function value is one unless the sign of the address overwrites its tag. -/
theorem calledFunc_toFnew (d : BitVec 16) :
    calledFunc (toFnew d) = if d.msb then none else some d := by
  have htag : tag (toFnew d) = if d.msb then BitVec.allOnes 16 else tagFnew := by
    rw [toFnew_eq_packed, tag_packed]
  rw [calledFunc, isFnew, isBuiltin, htag, getFnew_toFnew]
  cases d.msb <;> rfl

namespace VM

variable {host : Host} {sec : Sections} {vm : VM} {a : Nat} {fnSlot : Word}

/-- A call behind its function slot. -/
theorem WellFramed.execCall_spec (host : Host) (h : vm.WellFramed) (ha : a < 256)
    (hfn : vm.words[vm.base + (a + 1)]? = some fnSlot) :
    ∃ mid, Acts vm [.assign a (toSmallInt vm.pc)] mid ∧ execCall host vm a =
      match calledFunc fnSlot with
      | none => callError host mid
      | some func => do
          let vm ← enterContext mid a func
          if func = 0#16 then callBuiltin host vm fnSlot a
          else return { vm with pc := func.setWidth 32 } := by
  have hlt : vm.base + (a + 1) < vm.words.length := (List.getElem?_eq_some_iff.mp hfn).1
  have hlength := h.slots.length_le
  have hset := h.set_spec (by omega : a < 2 ^ 20) (toSmallInt vm.pc)
  rw [if_pos (by omega)] at hset
  rcases hset with ⟨stored, hset, hstored⟩
  rcases hstored.of_assign with ⟨hwords, hbase⟩
  rcases (hstored.wellFramed h).get_spec (by omega : a + 1 < 2 ^ 20) with ⟨mid, hmid, hget⟩
  have hread : stored.words[stored.base + (a + 1)]? = some fnSlot := by
    rw [hwords, hbase, getElem?_assign_of_ne 0#64 _ (by omega) hlt, hfn]
  rw [hread] at hget
  refine ⟨mid, hstored.trans hmid, ?_⟩
  rw [execCall, hset]
  change Except.bind (stored.get (a + 1)) _ = _
  rw [hget]
  rfl

/-- The context of the caller is saved by a call. -/
theorem contexts_of_call {vm' : VM} {func : BitVec 16}
    (hmoves : Moves vm [.assign a (toSmallInt vm.pc), .enter a (func.setWidth 32)] vm') :
    vm'.base = vm.base + a ∧ vm'.contexts = vm.contexts ++ [vm.getContext] := by
  have hframes := call_frames hmoves
  refine ⟨congrArg (fun f => f.current.base) hframes, ?_⟩
  apply List.map_injective_iff.mpr Context.frame_injective
  rw [List.map_append]
  exact congrArg Frames.callers hframes

/-- A call of the function value for address zero does not return. -/
theorem callBuiltin_toFnew_zero (host : Host) (vm : VM) (a : Nat) :
    callBuiltin host vm (toFnew 0#16) a = .error (.fault .badCall) := by
  have hzero : getBuiltin (toFnew 0#16) = 0#64 := by decide
  rw [callBuiltin, hzero, if_neg host.println_ne_zero.symm]

theorem not_enters {sec : Sections} {localbase : Nat} {d : BitVec 16}
    (hne : ∀ vm', step host sec vm ≠ .ok vm') : ¬ Enters host sec vm localbase d := by
  rintro ⟨vm', hok, _⟩
  exact hne vm' hok

/-- A call of a function value enters the function exactly when its address is positive as a
signed number and the stack of contexts can grow. -/
theorem WellFramed.enters_iff {sec : Sections} {inst : Decoded} {d : BitVec 16}
    (h : vm.WellFramed) (hinst : current? host sec vm = some inst)
    (hop : inst.op = some .call)
    (hfn : vm.words[vm.base + (inst.a + 1)]? = some (toFnew d)) :
    Enters host sec vm inst.a d ↔
      0 < d.toNat ∧ d.toNat < 2 ^ 15 ∧ vm.contexts.length < maxDepth := by
  rcases current?_lt hinst with ⟨ha, _, _⟩
  rcases h.execCall_spec host ha hfn with ⟨mid, hmid, hexec⟩
  have hstep : step host sec vm = execCall host vm inst.a := by
    rw [step_eq_execute hinst, hop]
    rfl
  rw [calledFunc_toFnew, ← hstep] at hexec
  have hmsb := BitVec.msb_eq_decide d
  by_cases hneg : 2 ^ 15 ≤ d.toNat
  · -- the value is no function
    rw [decide_eq_true (by simpa using hneg)] at hmsb
    rw [hmsb] at hexec
    have hstops : ∀ vm', step host sec vm ≠ .ok vm' := by
      intro vm' hok
      rw [hexec] at hok
      exact callError_ne_ok hok
    exact iff_of_false (not_enters hstops) (by omega)
  rw [decide_eq_false (by simpa using hneg)] at hmsb
  rw [hmsb] at hexec
  have hbase := hmid.of_assign.2
  have hle : mid.base + inst.a ≤ mid.words.length := by
    rw [hbase, hmid.of_assign.1, length_assign]
    omega
  have hcontexts := hmid.contexts_of_assign
  have henter := (hmid.wellFramed h).enterContext_spec (by omega) hle d
  rw [hcontexts] at henter
  by_cases hdepth : vm.contexts.length < maxDepth
  · rw [if_pos hdepth] at henter
    rcases henter with ⟨entered, henter, hentered⟩
    simp only [Bool.false_eq_true, if_false, henter, bind, Except.bind] at hexec
    by_cases hzero : d = 0#16
    · -- address zero counts as a builtin
      subst hzero
      rw [if_pos rfl, callBuiltin_toFnew_zero] at hexec
      exact iff_of_false (not_enters fun vm' => by simp [hexec]) (by simp)
    · rw [if_neg hzero] at hexec
      have hpos : 0 < d.toNat := by
        rw [Nat.pos_iff_ne_zero]
        exact fun hd => hzero (BitVec.eq_of_toNat_eq hd)
      have hcall := contexts_of_call (hmid.trans hentered).toMoves
      exact iff_of_true ⟨_, hexec, rfl, hcall.1, hcall.2⟩ ⟨hpos, by omega, hdepth⟩
  · rw [if_neg hdepth] at henter
    simp only [Bool.false_eq_true, if_false, henter, bind, Except.bind] at hexec
    exact iff_of_false (not_enters fun vm' => by simp [hexec]) (fun hall => hdepth hall.2.2)

end VM

/-- A call of a function value that was carried to its slot enters the function exactly when
the address is not zero, fits a signed number and the stack of contexts can grow. -/
theorem carried_enters_iff {host : Host} {sec : Sections} {vm : VM} {inst : Decoded}
    {d : BitVec 16} (h : Carries host sec d vm (.slot (vm.base + (inst.a + 1))))
    (hinst : current? host sec vm = some inst) (hop : inst.op = some .call) :
    Enters host sec vm inst.a d ↔
      0 < d.toNat ∧ d.toNat < 2 ^ 15 ∧ vm.contexts.length < maxDepth :=
  h.reachable.wellFormed.toWellFramed.enters_iff hinst hop h.held

/-- The outer call of the program with nested calls enters its function. -/
theorem nestedCalls_enter :
    Enters nestedHost (loadfile nestedHost) (nestedState 1) 1 6#16 := by
  have hfnew : current? nestedHost (loadfile nestedHost) (nestedState 0) =
      some ⟨some .fnew, 2, 0, 6, 6#16⟩ := by decide
  have hcarries : Carries nestedHost (loadfile nestedHost) 6#16 (nestedState 1)
      (.slot ((nestedState 0).base + 2)) :=
    .fnew (reachable_stateAfter (by decide)) hfnew rfl rfl (step_stateAfter (by decide) (by decide))
  have hcall : current? nestedHost (loadfile nestedHost) (nestedState 1) =
      some ⟨some .call, 1, 0, 0, 0⟩ := by decide
  exact (carried_enters_iff hcarries hcall rfl).mpr ⟨by decide, by decide, by decide⟩

/-- A program that calls the function at address zero. -/
def callOfZero : CvmbFile where
  sections := [.instructions [.ad Opcode.fnew.number 1 0, .ad Opcode.call.number 0 0], .cint []]
  nodup := by decide
  wellFormed := by decide

def callOfZeroHost : Host :=
  bumpHost callOfZero (by decide)

def callOfZeroState (n : Nat) : VM :=
  stateAfter callOfZeroHost (loadfile callOfZeroHost) n

/-- The call of the function at address zero, which lies in the code, does not enter it. -/
theorem callOfZero_not_enters :
    ¬ ∀ host sec vm inst d, Carries host sec d vm (.slot (vm.base + (inst.a + 1))) →
      current? host sec vm = some inst → inst.op = some .call →
      (instrAt host sec (d.setWidth 32)).isSome = true → Enters host sec vm inst.a d := by
  intro h
  have hreach : Reachable callOfZeroHost (loadfile callOfZeroHost) (callOfZeroState 1) :=
    reachable_stateAfter (by decide)
  have hfnew : current? callOfZeroHost (loadfile callOfZeroHost) (callOfZeroState 0) =
      some ⟨some .fnew, 1, 0, 0, 0#16⟩ := by decide
  have hcarries : Carries callOfZeroHost (loadfile callOfZeroHost) 0#16 (callOfZeroState 1)
      (.slot ((callOfZeroState 0).base + 1)) :=
    .fnew (reachable_stateAfter (by decide)) hfnew rfl rfl (step_stateAfter (by decide) (by decide))
  have hcall : current? callOfZeroHost (loadfile callOfZeroHost) (callOfZeroState 1) =
      some ⟨some .call, 0, 0, 0, 0⟩ := by decide
  have henters := h _ _ _ _ _ hcarries hcall rfl (by decide)
  have hiff := hreach.wellFormed.toWellFramed.enters_iff hcall rfl hcarries.held
  exact absurd (hiff.mp henters).1 (by decide)

end ClojitCvm
