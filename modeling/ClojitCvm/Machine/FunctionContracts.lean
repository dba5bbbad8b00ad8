import ClojitCvm.Lib.Contracts
import ClojitCvm.Machine.CheckedPrograms

/-!
# Contracts of functions

A function of a program sees its frame, the globals, the objects and the output.  Its contract
says what a call may expect of it, and is checked instruction by instruction with the contracts
of the functions it calls; nothing has to be said about the frames of its callers, about
return addresses, or about the address a call goes back to.

Main results:

- Definition {lit}`functions`: the functions of a program as procedures.
- Theorem {lit}`contracts_kept`: if the instructions of a checked program keep their assertions
  one by one, all assertions and contracts hold in every run.
- Theorems {lit}`Annotation.Kept.put` to {lit}`Annotation.Kept.ret`: the rules of instructions.
- Theorem {lit}`functionRetTrunc_verified`: the contracts of a program of the repository.
-/

namespace ClojitCvm

open ByteMemory CellArray Contracts FrameStack LockStep Slot

/-! ## What a function sees -/

/-- What all functions see. -/
structure Shared where
  globals : List Byte → Word
  objects : List Object
  out : List String

/-- What a function sees at one of its instructions. -/
structure View extends Shared where
  pc : BitVec 32
  frame : List Word

/-- What a caller is handed: the words from the frame of the call on. -/
structure Returned extends Shared where
  words : List Word

namespace Ideal

/-- The globals, the objects and the output, without the slots. -/
def shared (p : Ideal) : Shared where
  globals := p.globals
  objects := p.objects
  out := p.out

/-- The slots from the base on. -/
def frame (p : Ideal) : List Word :=
  p.words.drop p.base

/-- What the running function sees. -/
def view (p : Ideal) : View :=
  { p.shared with pc := p.pc, frame := p.frame }

end Ideal

/-- The functions of a program.  A call goes on behind its instruction, with its own part of
the frame as it was. -/
def functions (prog : Program) : Machine Ideal View Returned where
  view := Ideal.view
  stays p p' := p.step prog = .ok p' ∧ p'.contexts.length = p.contexts.length
  enters p p' := p.step prog = .ok p' ∧ p'.contexts.length = p.contexts.length + 1
  leaves p p' := p.step prog = .ok p' ∧ p'.contexts.length + 1 = p.contexts.length
  result p p' := { p'.shared with words := p'.words.drop p.base }
  resume p p' r :=
    { r.toShared with pc := p.pc + 1, frame := (p'.words.take p'.base).drop p.base ++ r.words }

/-! ## Calls beside a run -/

/-- The calls that have not returned behind a turn, with the states in front of and behind
them. -/
def openBehind (vm vm' : VM) (calls : Calls VM) : Calls VM :=
  if vm.contexts.length < vm'.contexts.length then (vm, vm') :: calls
  else if vm'.contexts.length < vm.contexts.length then calls.tail
  else calls

/-- A turn of the machine with the open calls kept beside it. -/
def stepOpen (host : Host) (sec : Sections) : VM × Calls VM → Outcome VM (VM × Calls VM) :=
  recorded (step host sec) openBehind

/-- The calls of the ideal machine. -/
def ideals (calls : Calls VM) : Calls Ideal :=
  calls.map fun call => (call.1.ideal, call.2.ideal)

/-- A run of a checked program is under control, and the frames of its callers are as they
left them. -/
structure Followed (host : Host) (top : Nat) (vm : VM) (calls : Calls VM) : Prop where
  control : InControl host top (vm, calls.map fun call => call.1.pc)
  suspended : Frames.Suspended (calls.map fun call => (call.1.frames, call.2.frames))
    vm.frames.current.base vm.frames.callers vm.frames.cells

section Runs

variable {host : Host} {top : Nat} {vm vm' : VM} {calls : Calls VM}

/-- The open calls are those of the call sites. -/
theorem map_openBehind (vm vm' : VM) (calls : Calls VM) :
    (openBehind vm vm' calls).map (fun call => call.1.pc) =
      callsBehind vm vm' (calls.map fun call => call.1.pc) := by
  unfold openBehind callsBehind
  split
  · rfl
  · split
    · exact List.map_tail
    · rfl

/-- A turn in a function opens and closes no call. -/
theorem openBehind_stays (h : vm'.contexts.length = vm.contexts.length) (calls : Calls VM) :
    openBehind vm vm' calls = calls := by
  rw [openBehind, if_neg (by omega), if_neg (by omega)]

/-- A call is put in front, with the states around it. -/
theorem openBehind_enters (h : vm'.contexts.length = vm.contexts.length + 1) (calls : Calls VM) :
    openBehind vm vm' calls = (vm, vm') :: calls := by
  rw [openBehind, if_pos (by omega)]

/-- A return takes the last one away. -/
theorem openBehind_leaves (h : vm'.contexts.length + 1 = vm.contexts.length) (calls : Calls VM) :
    openBehind vm vm' calls = calls.tail := by
  rw [openBehind, if_neg (by omega), if_pos (by omega)]

/-- A turn goes on in its function, calls a function or returns behind the last call. -/
theorem Followed.turn (h : Followed host top vm calls) (hchecked : Checked host top)
    (hok : step host (loadfile host) vm = .ok vm') :
    Followed host top vm' (openBehind vm vm' calls) ∧
      (functions (host.program (loadfile host))).Turn vm.ideal vm'.ideal (ideals calls)
        (ideals (openBehind vm vm' calls)) := by
  have hreach : Reachable host (loadfile host) vm := h.control.reachable
  have hordered := hreach.wellFormed.ordered
  have hframes := VM.step_turn hreach.wellFormed hok
  have hideal := hreach.step_ideal hok
  have hlength := length_bases vm
  have hlength' := length_bases vm'
  have hcallers := VM.length_callers vm
  have hcallers' := VM.length_callers vm'
  rcases h.control.step hchecked hok with ⟨hcontrol, hturned⟩
  rw [← map_openBehind] at hcontrol
  generalize hpcs : calls.map (fun call => call.1.pc) = pcs at hturned
  generalize callsBehind vm vm' pcs = pcs' at hturned
  cases hturned with
  | stays hbases =>
      rw [hbases, hlength] at hlength'
      have hstays : vm'.contexts.length = vm.contexts.length := by omega
      rw [openBehind_stays hstays] at hcontrol ⊢
      exact ⟨⟨hcontrol, h.suspended.stays hordered hframes (by omega)⟩,
        .stays ⟨hideal, hstays⟩⟩
  | enters hbases =>
      rw [hbases, List.length_cons, hlength] at hlength'
      have henters : vm'.contexts.length = vm.contexts.length + 1 := by omega
      have hdeeper : vm'.frames.callers.length = vm.frames.callers.length + 1 := by omega
      rw [openBehind_enters henters] at hcontrol ⊢
      exact ⟨⟨hcontrol, h.suspended.enters hordered hframes hdeeper⟩,
        .enters ⟨hideal, henters⟩⟩
  | @leaves pc rest hbases hpc =>
      rw [← hbases, List.length_tail, hlength] at hlength'
      have hleaves : vm'.contexts.length + 1 = vm.contexts.length := by
        have hpos : 0 < vm'.ideal.bases.length := Nat.succ_pos _
        rw [← hbases, List.length_tail, hlength] at hpos
        omega
      rw [openBehind_leaves hleaves] at hcontrol ⊢
      cases calls with
      | nil => cases hpcs
      | cons call calls =>
          cases hpcs
          rcases h.suspended.leaves hordered hframes (by omega) with ⟨hsuspended, hcurrent, hwords⟩
          refine ⟨⟨hcontrol, hsuspended⟩, .leaves ⟨hideal, hleaves⟩ ?_⟩
          have hbase : vm'.base = call.1.base := congrArg Frame.base hcurrent
          have hframe : vm'.words.drop vm'.base =
              (call.2.words.take call.2.base).drop call.1.base ++ vm'.words.drop vm.base := by
            rw [hbase]
            exact hwords
          have hback : vm'.pc = call.1.pc + 1 := hpc
          change View.mk vm'.ideal.shared vm'.pc (vm'.words.drop vm'.base) = _
          rw [hframe, hback]
          rfl

/-- No call is open at the start. -/
theorem Followed.init (hchecked : Checked host top) : Followed host top (vmInit host) [] :=
  ⟨.init hchecked, .outermost⟩

/-- A run that is under control keeps its contracts and assertions. -/
structure Promised (A : Annotation View Returned) (host : Host) (top : Nat) (s : VM × Calls VM) :
    Prop where
  followed : Followed host top s.1 s.2
  honoured : Honoured A (functions (host.program (loadfile host)))
    (Ideal.init (host.program (loadfile host))).view (ideals s.2) s.1.ideal.view

section Promised

variable {A : Annotation View Returned} (hchecked : Checked host top)
  (hverified : A.Verified (functions (host.program (loadfile host))))
include hchecked hverified

/-- A step of a run keeps what its calls promised. -/
theorem Promised.step (h : Promised A host top (vm, calls))
    (hok : ClojitCvm.step host (loadfile host) vm = .ok vm') :
    Promised A host top (vm', openBehind vm vm' calls) := by
  rcases h.followed.turn hchecked hok with ⟨hfollowed, hturn⟩
  exact ⟨hfollowed, h.honoured.turn hverified hturn⟩

variable (hpre : A.pre (Ideal.init (host.program (loadfile host))).view)
include hpre

/-- Nothing is promised before the first call. -/
theorem Promised.init : Promised A host top (vmInit host, []) := by
  refine ⟨.init hchecked, ?_⟩
  rw [vmInit_ideal host (loadfile host)]
  exact .outermost (hverified.entry _ hpre)

/-- A run from the start keeps what its calls promised. -/
theorem Promised.run {n : Nat} {s : VM × Calls VM}
    (hrun : steps (stepOpen host (loadfile host)) n (vmInit host, []) = .ok s) :
    Promised A host top s := by
  refine steps_induction (fun s s' h hok => ?_) (Promised.init hchecked hverified hpre) hrun
  rcases recorded_eq_ok.mp hok with ⟨vm', hturn, rfl⟩
  exact h.step hchecked hverified hturn

/-- Every state of a run has a list of calls. -/
theorem Reachable.exists_promised (h : Reachable host (loadfile host) vm) :
    ∃ calls, Promised A host top (vm, calls) := by
  induction h with
  | init => exact ⟨[], .init hchecked hverified hpre⟩
  | @step vm vm' _ hok ih =>
      rcases ih with ⟨calls, h⟩
      exact ⟨_, h.step hchecked hverified hok⟩

end Promised

/-- Contracts that are checked instruction by instruction hold: in every run of a checked
program the running function is where its assertions say, for what it saw when it was
entered, and its return meets its contract. -/
theorem contracts_kept (hchecked : Checked host top) {A : Annotation View Returned}
    (hverified : A.Verified (functions (host.program (loadfile host))))
    (hpre : A.pre (Ideal.init (host.program (loadfile host))).view) {n : Nat}
    (hrun : steps (stepOpen host (loadfile host)) n (vmInit host, []) = .ok (vm, calls)) :
    A.holds (entryOf (functions (host.program (loadfile host)))
        (Ideal.init (host.program (loadfile host))).view (ideals calls)) vm.ideal.view ∧
      ∀ inst vm', current? host (loadfile host) vm = some inst → inst.op = some .ret →
        step host (loadfile host) vm = .ok vm' →
          A.post (entryOf (functions (host.program (loadfile host)))
              (Ideal.init (host.program (loadfile host))).view (ideals calls))
            { vm'.ideal.shared with words := vm'.words.drop vm.base } := by
  rcases Promised.run hchecked hverified hpre hrun with ⟨hfollowed, hhonoured⟩
  refine ⟨hhonoured.holds, fun inst vm' hinst hop hok => ?_⟩
  have hreach : Reachable host (loadfile host) vm := hfollowed.control.reachable
  have hleaves : (functions (host.program (loadfile host))).leaves vm.ideal vm'.ideal :=
    ⟨hreach.step_ideal hok, contexts_of_return hreach hinst hop hok⟩
  exact hhonoured.returns hverified hleaves

end Runs

/-! ## Instructions on views -/

/-- A word is put into a slot of the frame. -/
def View.put (view : View) (i : Nat) (word : Word) : View :=
  { view with pc := view.pc + 1, frame := assign 0#64 view.frame i word }

/-- What a function that is called sees: the frame from the return address on. -/
def View.called (view : View) (a : Nat) (func : BitVec 16) : View :=
  { view with
    pc := func.setWidth 32
    frame := (assign 0#64 view.frame a (toSmallInt view.pc)).drop a }

/-- What the caller sees behind the call. -/
def View.resumed (view : View) (a : Nat) (r : Returned) : View :=
  { r.toShared with
    pc := view.pc + 1
    frame := (assign 0#64 view.frame a (toSmallInt view.pc)).take a ++ r.words }

namespace Ideal

variable {prog : Program} {p p' : Ideal} {a b c i source : Nat} {fn word : Word} {inst : Decoded}

/-- A step that returns is the instruction that was decoded. -/
theorem execute_of_step (h : p.step prog = .ok p') (hinst : prog.code p.pc = some inst) :
    p.execute prog inst.op inst.a inst.b inst.c inst.d = .ok p' := by
  rcases bind_eq_ok.mp h with ⟨inst', hload, hrest⟩
  cases hinst.symm.trans (orWild_eq_ok hload)
  exact hrest

/-- A slot that was read is one of the frame. -/
theorem get_frame (h : p.get i = .ok word) : p.frame[i]? = some word := by
  unfold get at h
  split at h
  · next hword =>
    cases h
    rw [frame, List.getElem?_drop]
    exact hword
  · cases h

/-- A write changes the words only. -/
theorem set_eq (h : p.set i word = .ok p') :
    p' = { p with words := assign 0#64 p.words (p.base + i) word } := by
  unfold set at h
  split at h
  · cases h
    rfl
  · cases h

/-- In the frame it is an assignment. -/
theorem set_frame (h : p.set i word = .ok p') : p'.frame = assign 0#64 p.frame i word := by
  rw [set_eq h]
  exact drop_assign 0#64 p.words p.base i word

/-- The rule of the instructions that put a word into a slot. -/
theorem view_put (h : p.put i word = .ok p') :
    p'.view = p.view.put i word ∧ p'.contexts.length = p.contexts.length := by
  rcases bind_eq_ok.mp h with ⟨mid, hset, hret⟩
  cases hret
  have hframe := set_frame hset
  cases set_eq hset
  refine ⟨?_, rfl⟩
  rw [View.put]
  exact congrArg (fun frame => ({ p.shared with pc := p.pc + 1, frame := frame } : View)) hframe

/-- The rule of {lit}`MOV`. -/
theorem view_move (h : (do let p ← p.move i source; return p.next) = .ok p') :
    ∃ word, p.view.frame[source]? = some word ∧ p'.view = p.view.put i word ∧
      p'.contexts.length = p.contexts.length := by
  rcases bind_eq_ok.mp h with ⟨mid, hmove, hret⟩
  rcases bind_eq_ok.mp hmove with ⟨word, hget, hset⟩
  exact ⟨word, get_frame hget, view_put (bind_eq_ok.mpr ⟨mid, hset, hret⟩)⟩

/-- The rule of the arithmetic instructions on two integers. -/
theorem view_arith {int : BitVec 32 → BitVec 32 → Option (BitVec 32)} {x y : Word}
    (h : p.arith int a b c = .ok p') (hx : p.view.frame[b]? = some x)
    (hy : p.view.frame[c]? = some y) (hintx : isSmallInt x = true) (hinty : isSmallInt y = true) :
    ∃ num, int (getSmallInt x) (getSmallInt y) = some num ∧
      p'.view = p.view.put a (toSmallInt num) ∧ p'.contexts.length = p.contexts.length := by
  rcases bind_eq_ok.mp h with ⟨x', hgetx, hrest⟩
  rcases bind_eq_ok.mp hrest with ⟨y', hgety, hrest⟩
  cases hx.symm.trans (get_frame hgetx)
  cases hy.symm.trans (get_frame hgety)
  rw [hintx, hinty] at hrest
  rcases bind_eq_ok.mp hrest with ⟨mid, hint, hret⟩
  unfold setInt at hint
  split at hint
  · next num hnum => exact ⟨num, hnum, view_put (bind_eq_ok.mpr ⟨mid, hint, hret⟩)⟩
  · cases hint

/-- The rule of {lit}`CALL`: what is below the return address stays with the caller. -/
theorem view_call {func : BitVec 16} (h : p.call prog a = .ok p')
    (hfn : p.view.frame[a + 1]? = some fn) (hfunc : calledFunc fn = some func)
    (hne : func ≠ 0#16) :
    p'.view = p.view.called a func ∧
      p'.contexts.length = p.contexts.length + 1 ∧
      (p'.words.take p'.base).drop p.base =
        (assign 0#64 p.view.frame a (toSmallInt p.pc)).take a := by
  rcases bind_eq_ok.mp h with ⟨mid, hset, h⟩
  rcases bind_eq_ok.mp h with ⟨fn', hget, h⟩
  have hframe := set_frame hset
  have hgot := get_frame hget
  rw [hframe, getElem?_assign_of_lt _ _ _ (Nat.lt_succ_self a)] at hgot
  rw [Option.some.inj (hgot.symm.trans hfn), hfunc] at h
  rcases bind_eq_ok.mp h with ⟨entered, henter, h⟩
  rw [if_neg hne] at h
  cases h
  cases set_eq hset
  unfold enter at henter
  split at henter
  · cases henter
    refine ⟨?_, List.length_append, ?_⟩
    · refine congrArg (fun frame =>
        ({ p.shared with pc := func.setWidth 32, frame := frame } : View)) ?_
      change (assign 0#64 p.words (p.base + a) (toSmallInt p.pc)).drop (p.base + a) = _
      rw [← List.drop_drop]
      exact congrArg (List.drop a) hframe
    · change ((assign 0#64 p.words (p.base + a) (toSmallInt p.pc)).take (p.base + a)).drop _ = _
      rw [List.drop_take, Nat.add_sub_cancel_left]
      exact congrArg (List.take a) hframe
  · cases henter

/-- The rule of {lit}`RET`: the caller is handed the value in slot zero, and the slots in
between as they are. -/
theorem view_ret (h : p.ret a = .ok p') (hword : p.view.frame[a]? = some word) :
    p'.shared = p.shared ∧ p'.contexts.length + 1 = p.contexts.length ∧
      p'.words.drop p.base = (assign 0#64 p.view.frame 0 word).take a := by
  rcases bind_eq_ok.mp h with ⟨slot, _, h⟩
  rcases bind_eq_ok.mp h with ⟨moved, hmove, h⟩
  rcases bind_eq_ok.mp hmove with ⟨word', hget, hset⟩
  rcases bind_eq_ok.mp h with ⟨left, hleave, h⟩
  cases h
  cases hword.symm.trans (get_frame hget)
  have hframe := set_frame hset
  cases set_eq hset
  unfold leave at hleave
  split at hleave
  · next caller hlast =>
    cases hleave
    refine ⟨rfl, ?_, ?_⟩
    · change p.contexts.dropLast.length + 1 = p.contexts.length
      have hpos : 0 < p.contexts.length := 
        List.length_pos_of_mem (List.mem_of_getLast? hlast)
      rw [List.length_dropLast]
      omega
    · change ((assign 0#64 p.words (p.base + 0) word).take (p.base + a)).drop p.base = _
      rw [List.drop_take, Nat.add_sub_cancel_left]
      exact congrArg (List.take a) hframe
  · cases hleave

end Ideal

/-! ## Frames behind a call -/

section Resumed

variable {view : View} {r : Returned} {a i : Nat} {word : Word}

/-- The function finds its arguments behind the return address. -/
theorem getElem?_called (func : BitVec 16) (h : view.frame[a + (i + 1)]? = some word) :
    (view.called a func).frame[i + 1]? = some word := by
  rw [View.called, List.getElem?_drop, getElem?_assign_of_lt _ _ _ (by omega)]
  exact h

/-- The caller finds what it is handed from the slot of the call on. -/
theorem getElem?_resumed (h : r.words[i]? = some word) :
    (view.resumed a r).frame[a + i]? = some word := by
  have hlength : ((assign 0#64 view.frame a (toSmallInt view.pc)).take a).length = a := by
    rw [List.length_take, length_assign]
    omega
  rw [View.resumed, List.getElem?_append_right (by omega), hlength, Nat.add_sub_cancel_left]
  exact h

/-- The caller finds its own slots as it left them. -/
theorem getElem?_resumed_of_lt (h : view.frame[i]? = some word) (hi : i < a) :
    (view.resumed a r).frame[i]? = some word := by
  rw [View.resumed, List.getElem?_append_left, List.getElem?_take, if_pos hi,
    getElem?_assign_of_ne _ _ (by omega) (List.getElem?_eq_some_iff.mp h).1]
  · exact h
  · rw [List.length_take, length_assign]
    omega

end Resumed

/-! ## Checks of instructions -/

/-- What a turn has to keep: the assertion behind it, or the contract of the function it calls,
or the contract of its own function. -/
inductive Annotation.Kept (A : Annotation View Returned) (entry : View) (p p' : Ideal) : Prop
  | stays (hcontexts : p'.contexts.length = p.contexts.length) (h : A.holds entry p'.view)
  | enters (hcontexts : p'.contexts.length = p.contexts.length + 1) (hpre : A.pre p'.view)
      (hresumes : ∀ r : Returned, A.post p'.view r → A.holds entry
        { r.toShared with
          pc := p.pc + 1
          frame := (p'.words.take p'.base).drop p.base ++ r.words })
  | leaves (hcontexts : p'.contexts.length + 1 = p.contexts.length)
      (hpost : A.post entry { p'.shared with words := p'.words.drop p.base })

namespace Annotation.Kept

variable {A : Annotation View Returned} {prog : Program} {entry : View} {p p' : Ideal}
    {a b c i source : Nat} {fn word x y : Word}

/-- An instruction that writes one word keeps the assertions if the next one holds then. -/
theorem put (hput : p.put i word = .ok p') (hnext : A.holds entry (p.view.put i word)) :
    Kept A entry p p' := by
  rcases Ideal.view_put hput with ⟨hview, hcontexts⟩
  refine .stays hcontexts ?_
  rw [hview]
  exact hnext

/-- A move of a known word keeps the assertions if the next one holds with the word there. -/
theorem move (hmove : (do let p ← p.move i source; return p.next) = .ok p')
    (hword : p.view.frame[source]? = some word) (hnext : A.holds entry (p.view.put i word)) :
    Kept A entry p p' := by
  rcases Ideal.view_move hmove with ⟨word', hword', hview, hcontexts⟩
  cases hword.symm.trans hword'
  refine .stays hcontexts ?_
  rw [hview]
  exact hnext

/-- An operation on integers keeps the assertions if the next one holds with any result. -/
theorem arith {int : BitVec 32 → BitVec 32 → Option (BitVec 32)}
    (harith : p.arith int a b c = .ok p')
    (hx : p.view.frame[b]? = some x) (hy : p.view.frame[c]? = some y)
    (hintx : isSmallInt x = true) (hinty : isSmallInt y = true)
    (hnext : ∀ num, int (getSmallInt x) (getSmallInt y) = some num →
      A.holds entry (p.view.put a (toSmallInt num))) :
    Kept A entry p p' := by
  rcases Ideal.view_arith harith hx hy hintx hinty with ⟨num, hnum, hview, hcontexts⟩
  refine .stays hcontexts ?_
  rw [hview]
  exact hnext num hnum

/-- A function is called within its contract, and all it may return will do. -/
theorem call {func : BitVec 16} (hcall : p.call prog a = .ok p')
    (hfn : p.view.frame[a + 1]? = some fn) (hfunc : calledFunc fn = some func)
    (hne : func ≠ 0#16) (hpre : A.pre (p.view.called a func))
    (hresumes : ∀ r, A.post (p.view.called a func) r → A.holds entry (p.view.resumed a r)) :
    Kept A entry p p' := by
  rcases Ideal.view_call hcall hfn hfunc hne with ⟨hview, hcontexts, hbelow⟩
  refine .enters hcontexts ?_ fun r hpost => ?_
  · rw [hview]
    exact hpre
  · rw [hview] at hpost
    rw [hbelow]
    exact hresumes r hpost

/-- A return keeps the assertions if the postcondition holds of the words that are left. -/
theorem ret (hret : p.ret a = .ok p') (hword : p.view.frame[a]? = some word)
    (hpost : A.post entry
      { p.shared with words := (assign 0#64 p.view.frame 0 word).take a }) :
    Kept A entry p p' := by
  rcases Ideal.view_ret hret hword with ⟨hshared, hcontexts, hwords⟩
  refine .leaves hcontexts ?_
  rw [hshared, hwords]
  exact hpost

end Annotation.Kept

/-- The functions keep their contracts if every instruction does. -/
theorem verified_of_kept {prog : Program} {A : Annotation View Returned}
    (hentry : ∀ view, A.pre view → A.holds view view)
    (hkept : ∀ entry p p', A.holds entry p.view → p.step prog = .ok p' →
      Annotation.Kept A entry p p') :
    A.Verified (functions prog) where
  entry := hentry
  stays entry p p' h hturn := by
    have hcontexts := hturn.2
    cases hkept entry p p' h hturn.1 with
    | stays _ h => exact h
    | enters _ _ _ => omega
    | leaves _ _ => omega
  enters entry p p' h hturn := by
    have hcontexts := hturn.2
    cases hkept entry p p' h hturn.1 with
    | stays _ _ => omega
    | enters _ hpre _ => exact hpre
    | leaves _ _ => omega
  resumes entry p p' r h hturn hpost := by
    have hcontexts := hturn.2
    cases hkept entry p p' h hturn.1 with
    | stays _ _ => omega
    | enters _ _ hresumes => exact hresumes r hpost
    | leaves _ _ => omega
  leaves entry p p' h hturn := by
    have hcontexts := hturn.2
    cases hkept entry p p' h hturn.1 with
    | stays _ _ => omega
    | enters _ _ _ => omega
    | leaves _ hpost => exact hpost

/-! ## A program of the repository -/

/-- Slots of a frame have values. -/
def View.Has (view : View) (slots : List (Nat × Word)) : Prop :=
  ∀ s ∈ slots, view.frame[s.1]? = some s.2

namespace View.Has

variable {view : View} {slots : List (Nat × Word)} {i : Nat} {word : Word}

/-- Nothing is asked of the frame. -/
theorem nil (view : View) : view.Has [] :=
  fun _ hs => absurd hs List.not_mem_nil

/-- One more slot with a known word. -/
theorem cons (h : view.frame[i]? = some word) (hslots : view.Has slots) :
    view.Has ((i, word) :: slots) :=
  List.forall_mem_cons.mpr ⟨h, hslots⟩

/-- The other slots keep their values. -/
theorem put (h : view.Has slots) (hne : ∀ s ∈ slots, s.1 ≠ i) (word : Word) :
    (view.put i word).Has ((i, word) :: slots) := by
  refine cons (getElem?_assign_self _ _ _ _) fun s hs => ?_
  have hword := h s hs
  rw [← hword]
  exact getElem?_assign_of_ne _ _ (hne s hs) (List.getElem?_eq_some_iff.mp hword).1

end View.Has

/-- The functions of {lit}`function-ret-trunc.cvmb`. -/
inductive Callee where
  | addFive
  | twoMinus
deriving DecidableEq

namespace Callee

/-- Where the function begins. -/
def start : Callee → BitVec 32
  | addFive => 6
  | twoMinus => 11

/-- What it does to its argument. -/
def op : Callee → Opcode
  | addFive => .addvv
  | twoMinus => .subvv

/-- What it adds, or subtracts from. -/
def constant : Callee → BitVec 16
  | addFive => 5
  | twoMinus => 2

/-- The result for an argument. -/
def result : Callee → Word → Word
  | addFive, x => toSmallInt (5 + getSmallInt x)
  | twoMinus, x => toSmallInt (2 - getSmallInt x)

/-- The call of a function with a number. -/
structure Entered (f : Callee) (x : Word) (view : View) : Prop where
  pc : view.pc = f.start
  argument : view.frame[2]? = some x
  isInt : isSmallInt x = true

variable {f g : Callee} {x y : Word} {view : View}

/-- A view belongs to one function and one argument. -/
theorem Entered.unique (h : f.Entered x view) (h' : g.Entered y view) : f = g ∧ x = y := by
  refine ⟨?_, Option.some.inj (h.argument.symm.trans h'.argument)⟩
  have hstart : f.start = g.start := h.pc.symm.trans h'.pc
  revert hstart
  cases f <;> cases g <;> decide

/-- The instruction behind an instruction of the function. -/
theorem next {pc k : BitVec 32} (h : pc = f.start + k) : pc + 1 = f.start + (k + 1) := by
  rw [h, BitVec.add_assoc]

end Callee

/-- The assertions at the instructions of {lit}`function-ret-trunc.cvmb`. -/
inductive FunctionRetTrunc (entry view : View) : Prop
  | makeOuter (hentry : entry.pc = 0) (hpc : view.pc = 0)
  | makeInner (hentry : entry.pc = 0) (hpc : view.pc = 1) (hslots : view.Has [(1, toFnew 11)])
  | makeArgument (hentry : entry.pc = 0) (hpc : view.pc = 2)
      (hslots : view.Has [(3, toFnew 6), (1, toFnew 11)])
  | callInner (hentry : entry.pc = 0) (hpc : view.pc = 3)
      (hslots : view.Has [(4, toSmallInt 10), (3, toFnew 6), (1, toFnew 11)])
  | callOuter (hentry : entry.pc = 0) (hpc : view.pc = 4)
      (hslots : view.Has [(2, toSmallInt 15), (1, toFnew 11)])
  | exit (hentry : entry.pc = 0) (hpc : view.pc = 5) (hslots : view.Has [(0, toSmallInt (-13))])
  | entered (f : Callee) (x : Word) (hentry : f.Entered x entry) (hpc : view.pc = f.start)
      (hslots : view.Has [(2, x)])
  | body (f : Callee) (x : Word) (hentry : f.Entered x entry) (hpc : view.pc = f.start + 1)
      (hslots : view.Has [(2, x)])
  | moved (f : Callee) (x : Word) (hentry : f.Entered x entry) (hpc : view.pc = f.start + 2)
      (hslots : view.Has [(3, x)])
  | loaded (f : Callee) (x : Word) (hentry : f.Entered x entry) (hpc : view.pc = f.start + 3)
      (hslots : view.Has [(4, toSmallInt (f.constant.setWidth 32)), (3, x)])
  | computed (f : Callee) (x : Word) (hentry : f.Entered x entry) (hpc : view.pc = f.start + 4)
      (hslots : view.Has [(3, f.result x)])

/-- The contracts of the two functions: each returns its result. -/
def functionRetTruncContracts : Annotation View Returned where
  pre view := view.pc = 0 ∨ ∃ (f : Callee) (x : Word), f.Entered x view
  post entry r := ∀ (f : Callee) (x : Word), f.Entered x entry →
    r.words[0]? = some (f.result x)
  holds := FunctionRetTrunc

/-- The program of {lit}`function-ret-trunc.cvmb`. -/
def functionRetTruncProgram : Program :=
  functionRetTruncHost.program (loadfile functionRetTruncHost)

/-- The code in front of the functions. -/
theorem functionRetTrunc_code :
    functionRetTruncProgram.code 0 = some ⟨some .fnew, 1, 0, 11, 11⟩ ∧
      functionRetTruncProgram.code 1 = some ⟨some .fnew, 3, 0, 6, 6⟩ ∧
      functionRetTruncProgram.code 2 = some ⟨some .cshort, 4, 0, 10, 10⟩ ∧
      functionRetTruncProgram.code 3 = some ⟨some .call, 2, 0, 2, 2⟩ ∧
      functionRetTruncProgram.code 4 = some ⟨some .call, 0, 0, 2, 2⟩ ∧
      functionRetTruncProgram.code 5 = some ⟨some .exit, 0, 0, 0, 0⟩ := by
  decide +kernel

/-- The code of both functions. -/
theorem Callee.code (f : Callee) :
    functionRetTruncProgram.code f.start = some ⟨some .funcf, 1, 0, 0, 0⟩ ∧
      functionRetTruncProgram.code (f.start + 1) = some ⟨some .mov, 3, 0, 2, 2⟩ ∧
      functionRetTruncProgram.code (f.start + 2) =
        some ⟨some .cshort, 4, 0, f.constant.toNat, f.constant⟩ ∧
      functionRetTruncProgram.code (f.start + 3) = some ⟨some f.op, 3, 4, 3, 0x403⟩ ∧
      functionRetTruncProgram.code (f.start + 4) = some ⟨some .ret, 3, 0, 0, 0⟩ := by
  cases f <;> decide +kernel

/-- Every instruction keeps the assertions and the contracts. -/
theorem functionRetTrunc_kept {entry : View} {p p' : Ideal} (h : FunctionRetTrunc entry p.view)
    (hstep : p.step functionRetTruncProgram = .ok p') :
    Annotation.Kept functionRetTruncContracts entry p p' := by
  rcases functionRetTrunc_code with ⟨hcode0, hcode1, hcode2, hcode3, hcode4, hcode5⟩
  cases h with
  | makeOuter hentry hpc =>
      have hput := Ideal.execute_of_step hstep ((congrArg _ hpc).trans hcode0)
      exact .put hput (.makeInner hentry (congrArg (· + 1) hpc) ((View.Has.nil _).put (by simp) _))
  | makeInner hentry hpc hslots =>
      have hput := Ideal.execute_of_step hstep ((congrArg _ hpc).trans hcode1)
      exact .put hput (.makeArgument hentry (congrArg (· + 1) hpc) (hslots.put (by simp) _))
  | makeArgument hentry hpc hslots =>
      have hput := Ideal.execute_of_step hstep ((congrArg _ hpc).trans hcode2)
      exact .put hput (.callInner hentry (congrArg (· + 1) hpc) (hslots.put (by simp) _))
  | callInner hentry hpc hslots =>
      have hcall := Ideal.execute_of_step hstep ((congrArg _ hpc).trans hcode3)
      have hentered : Callee.addFive.Entered (toSmallInt 10) (p.view.called 2 6) :=
        ⟨rfl, getElem?_called 6 (hslots (4, toSmallInt 10) (by simp)), by decide⟩
      refine .call hcall (hslots (3, toFnew 6) (by simp)) (by decide) (by decide)
        (.inr ⟨_, _, hentered⟩) fun r hpost => ?_
      have hresult := hpost .addFive (toSmallInt 10) hentered
      exact .callOuter hentry (congrArg (· + 1) hpc) (.cons (getElem?_resumed hresult)
        (.cons (getElem?_resumed_of_lt (hslots (1, toFnew 11) (by simp)) (by decide)) (.nil _)))
  | callOuter hentry hpc hslots =>
      have hcall := Ideal.execute_of_step hstep ((congrArg _ hpc).trans hcode4)
      have hentered : Callee.twoMinus.Entered (toSmallInt 15) (p.view.called 0 11) :=
        ⟨rfl, getElem?_called 11 (hslots (2, toSmallInt 15) (by simp)), by decide⟩
      refine .call hcall (hslots (1, toFnew 11) (by simp)) (by decide) (by decide)
        (.inr ⟨_, _, hentered⟩) fun r hpost => ?_
      have hresult := hpost .twoMinus (toSmallInt 15) hentered
      exact .exit hentry (congrArg (· + 1) hpc) (.cons (getElem?_resumed hresult) (.nil _))
  | exit hentry hpc hslots =>
      have hexit := Ideal.execute_of_step hstep ((congrArg _ hpc).trans hcode5)
      cases hexit
  | entered f x hentry hpc hslots =>
      have hnext := Ideal.execute_of_step hstep ((congrArg _ hpc).trans f.code.1)
      cases hnext
      exact .stays rfl (.body f x hentry (congrArg (· + 1) hpc) hslots)
  | body f x hentry hpc hslots =>
      have hmove := Ideal.execute_of_step hstep ((congrArg _ hpc).trans f.code.2.1)
      exact .move hmove (hslots (2, x) (by simp))
        (.moved f x hentry (Callee.next hpc) ((View.Has.nil _).put (by simp) _))
  | moved f x hentry hpc hslots =>
      have hput := Ideal.execute_of_step hstep ((congrArg _ hpc).trans f.code.2.2.1)
      exact .put hput (.loaded f x hentry (Callee.next hpc) (hslots.put (by simp) _))
  | loaded f x hentry hpc hslots =>
      have harith := Ideal.execute_of_step hstep ((congrArg _ hpc).trans f.code.2.2.2.1)
      have hconstant := hslots (4, toSmallInt (f.constant.setWidth 32)) (by simp)
      have hargument := hslots (3, x) (by simp)
      have hcomputed (num : BitVec 32) (hnum : toSmallInt num = f.result x) :
          FunctionRetTrunc entry (p.view.put 3 (toSmallInt num)) := by
        refine .computed f x hentry (Callee.next hpc) ?_
        rw [hnum]
        exact (View.Has.nil _).put (by simp) _
      cases f with
      | addFive =>
          refine .arith harith hconstant hargument (by decide) hentry.isInt fun num hnum => ?_
          cases hnum
          exact hcomputed _ (by rw [getSmallInt_toSmallInt]; rfl)
      | twoMinus =>
          refine .arith harith hconstant hargument (by decide) hentry.isInt fun num hnum => ?_
          cases hnum
          exact hcomputed _ (by rw [getSmallInt_toSmallInt]; rfl)
  | computed f x hentry hpc hslots =>
      have hret := Ideal.execute_of_step hstep ((congrArg _ hpc).trans f.code.2.2.2.2)
      refine .ret hret (hslots (3, f.result x) (by simp)) fun g y hentered => ?_
      rcases hentry.unique hentered with ⟨rfl, rfl⟩
      rw [List.getElem?_take, if_pos (by decide)]
      exact getElem?_assign_self _ _ _ _

/-- The contracts are verified, one instruction at a time. -/
theorem functionRetTrunc_verified :
    functionRetTruncContracts.Verified (functions functionRetTruncProgram) := by
  refine verified_of_kept (fun view hpre => ?_) fun entry p p' => functionRetTrunc_kept
  rcases hpre with hstart | ⟨f, x, hentered⟩
  · exact .makeOuter hstart hstart
  · exact .entered f x hentered hentered.pc (.cons hentered.argument (.nil _))

/-- The second function is about to return what its contract says. -/
theorem functionRetTrunc_contracts :
    ∃ calls, steps (stepOpen functionRetTruncHost (loadfile functionRetTruncHost)) 14
          (vmInit functionRetTruncHost, []) = .ok (functionRetTruncState 14, calls) ∧
      functionRetTruncContracts.post
        (entryOf (functions (functionRetTruncHost.program (loadfile functionRetTruncHost)))
          (Ideal.init (functionRetTruncHost.program (loadfile functionRetTruncHost))).view
          (ideals calls))
        { (functionRetTruncState 15).ideal.shared with
          words := (functionRetTruncState 15).words.drop (functionRetTruncState 14).base } := by
  have hrun : run functionRetTruncHost (loadfile functionRetTruncHost) 14
      (vmInit functionRetTruncHost) = .ok (functionRetTruncState 14) :=
    run_stateAfter (by decide +kernel)
  rw [run_eq_steps] at hrun
  rcases exists_recorded hrun openBehind [] with ⟨calls, hcalls⟩
  have hinst : current? functionRetTruncHost (loadfile functionRetTruncHost)
      (functionRetTruncState 14) = some ⟨some .ret, 3, 0, 0, 0⟩ := by decide +kernel
  exact ⟨calls, hcalls, (contracts_kept functionRetTrunc_checked functionRetTrunc_verified
    (.inl rfl) hcalls).2 _ _ hinst rfl (step_stateAfter (by decide +kernel) (by decide +kernel))⟩

end ClojitCvm
