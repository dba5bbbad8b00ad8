import ClojitCvm.Lib.FrameStack
import ClojitCvm.Machine.Execute
import ClojitCvm.Slots.Refinement

/-!
# The machine as a stack of frames

The abstract machine keeps the slots in a list and the contexts of the callers in
another.  The operations of {lit}`vm.c` on slots and contexts are actions of that
machine: assignments relative to the base, truncation, entering a frame and leaving it.

Main results:

- The structure {lit}`VM.WellFramed`: slots and contexts are in order, and so are the
  bases.
- Theorems {lit}`VM.get_acts` to {lit}`VM.truncate_acts`: the actions of each
  operation.
-/

namespace ClojitCvm

open ByteMemory CellArray FrameStack Slot

/-! ## The abstract machine of a state -/

/-- An action on slots and contexts. -/
abbrev SlotAction := Action (BitVec 32) Word

/-- The words of the slots in use. -/
def VM.words (vm : VM) : List Word :=
  (vm.slots.data.take vm.slots.size).reduceOption

/-- The contexts on the stack, the oldest first. -/
def VM.contexts (vm : VM) : List Context :=
  (vm.stack.data.take vm.stack.top.toNat).reduceOption

/-- The frame that a context stands for. -/
def Context.frame (ctx : Context) : Frame (BitVec 32) :=
  ⟨ctx.baseSlot, ctx.ip⟩

/-- The abstract machine that a state stands for. -/
def VM.frames (vm : VM) : Frames (BitVec 32) Word where
  current := vm.getContext.frame
  callers := vm.contexts.map Context.frame
  cells := vm.words
  stores := vm.stores

/-- The part of the state that the operations on slots and contexts leave alone. -/
structure Rest where
  pc : BitVec 32
  symbolTable : List (List Byte × Word)
  heap : Memory
  blocks : List Block
  reserves : Nat
  fieldStores : List FieldStore

/-- The part of the state that no slot action touches. -/
def VM.rest (vm : VM) : Rest :=
  ⟨vm.pc, vm.symbolTable, vm.heap, vm.blocks, vm.reserves, vm.fieldStores⟩

/-- The counter steps on. -/
def Rest.next (rest : Rest) : Rest :=
  { rest with pc := rest.pc + 1 }

/-- The counter jumps. -/
def Rest.jump (rest : Rest) (d : BitVec 16) : Rest :=
  { rest with pc := rest.pc + d.signExtend 32 }

/-- Different contexts stand for different frames. -/
theorem Context.frame_injective : Function.Injective Context.frame := by
  rintro ⟨base, ip⟩ ⟨base', ip'⟩ h
  simpa [Context.frame] using h

namespace VM

variable {vm vm' : VM}

/-- The words in use are the list that the array represents. -/
theorem words_eq {xs : List Word} (h : vm.slots.Represents xs) : vm.words = xs := by
  rw [words, h.size_eq]
  exact h.holds.reduceOption_take

/-- The contexts are the list that the stack represents. -/
theorem contexts_eq {ctxs : List Context} (h : vm.stack.Represents ctxs) :
    vm.contexts = ctxs := by
  rw [contexts, h.top_eq, Int.toNat_natCast]
  exact h.holds.reduceOption_take

/-- Slots and contexts are in order, and so are the bases. -/
structure WellFramed (vm : VM) : Prop where
  slots : vm.slots.Represents vm.words
  stack : vm.stack.Represents vm.contexts
  ordered : vm.frames.Ordered

/-- The machine took actions on slots and contexts. -/
structure Moves (vm : VM) (actions : List SlotAction) (vm' : VM) : Prop where
  slots : vm'.slots.Represents vm'.words
  stack : vm'.stack.Represents vm'.contexts
  run : vm.frames.run 0#64 actions = some vm'.frames

/-- The machine took actions on slots and contexts and left everything else alone, the
output apart. -/
structure Acts (vm : VM) (actions : List SlotAction) (vm' : VM) : Prop extends
    Moves vm actions vm' where
  rest : vm'.rest = vm.rest

/-! ## Rules for actions -/

section Rules

variable {actions front back : List SlotAction}

/-- Doing nothing is no action. -/
theorem Acts.refl (h : vm.WellFramed) : Acts vm [] vm :=
  ⟨⟨h.slots, h.stack, rfl⟩, rfl⟩

/-- Actions one after the other. -/
theorem Moves.trans {mid : VM} (hfront : Moves vm front mid) (hback : Moves mid back vm') :
    Moves vm (front ++ back) vm' :=
  ⟨hback.slots, hback.stack, Frames.run_trans hfront.run hback.run⟩

/-- Actions one after the other, with the rest kept throughout. -/
theorem Acts.trans {mid : VM} (hfront : Acts vm front mid) (hback : Acts mid back vm') :
    Acts vm (front ++ back) vm' :=
  ⟨hfront.toMoves.trans hback.toMoves, hback.rest.trans hfront.rest⟩

/-- The words behind an assignment. -/
theorem Moves.of_assign {i : Nat} {word : Word} (hmoves : Moves vm [.assign i word] vm') :
    vm'.words = assign 0#64 vm.words (vm.base + i) word ∧ vm'.base = vm.base := by
  have hframes : vm'.frames = _ := (Option.some.inj hmoves.run).symm
  exact ⟨congrArg Frames.cells hframes, congrArg (fun f => f.current.base) hframes⟩

/-- An assignment keeps the contexts. -/
theorem Moves.contexts_of_assign {i : Nat} {word : Word}
    (hmoves : Moves vm [.assign i word] vm') : vm'.contexts = vm.contexts := by
  apply List.map_injective_iff.mpr Context.frame_injective
  exact congrArg Frames.callers (Option.some.inj hmoves.run).symm

/-- The program counter is no part of the frames. -/
theorem Moves.setPc (hmoves : Moves vm actions vm') (pc : BitVec 32) :
    Moves vm actions { vm' with pc := pc } :=
  ⟨hmoves.slots, hmoves.stack, hmoves.run⟩

/-- Actions keep the machine well framed. -/
theorem Moves.wellFramed (h : vm.WellFramed) (hmoves : Moves vm actions vm') :
    vm'.WellFramed :=
  ⟨hmoves.slots, hmoves.stack, Frames.run_ordered h.ordered hmoves.run⟩

/-- Actions that leave the rest alone keep it well framed too. -/
theorem Acts.wellFramed (h : vm.WellFramed) (hacts : Acts vm actions vm') : vm'.WellFramed :=
  hacts.toMoves.wellFramed h

/-- Printing is no action. -/
theorem Acts.print (hacts : Acts vm actions vm') (text : String) :
    Acts vm actions (vm'.print text) :=
  ⟨⟨hacts.slots, hacts.stack, hacts.run⟩, hacts.rest⟩

/-- No actions leave the frames as they were. -/
theorem Acts.frames_eq (hacts : Acts vm [] vm') : vm'.frames = vm.frames :=
  (Option.some.inj hacts.run).symm

/-- No actions leave the words as they were. -/
theorem Acts.words_eq (hacts : Acts vm [] vm') : vm'.words = vm.words :=
  congrArg Frames.cells hacts.frames_eq

/-- No actions leave the base where it was. -/
theorem Acts.base_eq (hacts : Acts vm [] vm') : vm'.base = vm.base :=
  congrArg (fun f => f.current.base) hacts.frames_eq

/-- The rest of the state, field by field. -/
theorem Acts.rest_fields (hacts : Acts vm actions vm') :
    vm'.pc = vm.pc ∧ vm'.symbolTable = vm.symbolTable ∧ vm'.heap = vm.heap ∧
      vm'.blocks = vm.blocks ∧ vm'.reserves = vm.reserves ∧
      vm'.fieldStores = vm.fieldStores := by
  simpa only [VM.rest, Rest.mk.injEq] using hacts.rest

end Rules

/-- The running frame begins within the words in use, or right behind them. -/
theorem WellFramed.base_le (h : vm.WellFramed) : vm.base ≤ vm.words.length :=
  h.ordered.base_le

/-- The offsets that instructions name are far too small to wrap. -/
theorem WellFramed.index_eq (h : vm.WellFramed) {i : Nat} (hi : i < 2 ^ 20) :
    (vm.base + i) % 2 ^ 32 = vm.base + i := by
  have hbase := h.base_le
  have hlength := h.slots.length_le
  unfold maxCapacity at hlength
  exact Nat.mod_eq_of_lt (by omega)

/-- An operation of the context stack succeeds exactly when it does as part of the machine. -/
theorem onStack_eq_ok {α : Type} {x : Outcome Stack α} {a : α} :
    vm.onStack x = .ok a ↔ x = .ok a := by
  rcases x with (⟨status, stack, printed⟩ | why) | b <;> simp [onStack]

/-- New slots are an action when the lists agree. -/
theorem Acts.of_slots {actions : List SlotAction} {slots : Slots}
    {xs : List Word} {stores : List Nat} (h : vm.WellFramed) (hrep : slots.Represents xs)
    (hrun : vm.frames.run 0#64 actions =
      some { vm.frames with cells := xs, stores := stores }) :
    Acts vm actions { vm with slots := slots, stores := stores } := by
  have hwords : { vm with slots := slots, stores := stores }.words = xs := VM.words_eq hrep
  refine ⟨⟨?_, h.stack, ?_⟩, rfl⟩
  · rw [hwords]
    exact hrep
  · rw [hrun, ← hwords]
    rfl

/-- A new stack and context are an action when the lists agree. -/
theorem Acts.of_stack {actions : List SlotAction} {stack : Stack}
    {ctxs : List Context} {ctx : Context} (h : vm.WellFramed) (hrep : stack.Represents ctxs)
    (hrun : vm.frames.run 0#64 actions = some { vm.frames with
      current := ctx.frame, callers := ctxs.map Context.frame }) :
    Acts vm actions ({ vm with stack := stack }.setContext ctx) := by
  have hcontexts : ({ vm with stack := stack }.setContext ctx).contexts = ctxs :=
    VM.contexts_eq hrep
  refine ⟨⟨h.slots, ?_, ?_⟩, rfl⟩
  · rw [hcontexts]
    exact hrep
  · rw [hrun, ← hcontexts]
    rfl

/-! ## Actions of the operations -/

/-- A read gives the word of the frame, and stops with status 1 behind the last one; it
takes no action. -/
theorem WellFramed.get_spec (h : vm.WellFramed) {i : Nat} (hi : i < 2 ^ 20) :
    ∃ vm', Acts vm [] vm' ∧
      match vm.words[vm.base + i]? with
      | some word => vm.get i = .ok (vm', word)
      | none => ∃ printed, vm.get i = .error (.exit 1 vm' printed) := by
  rcases h.slots.get (vm.base + i) with ⟨shrunk, hrep, hread⟩
  refine ⟨{ vm with slots := shrunk }, Acts.of_slots h hrep rfl, ?_⟩
  unfold VM.get
  rw [h.index_eq hi]
  cases hword : vm.words[vm.base + i]? with
  | some word =>
      rw [hword] at hread
      rw [hread]
      rfl
  | none =>
      rw [hword] at hread
      rcases hread with ⟨printed, hread⟩
      exact ⟨printed, by rw [hread]; rfl⟩

/-- A write is one assignment, as far as the capacity can grow. -/
theorem WellFramed.set_spec (h : vm.WellFramed) {i : Nat} (hi : i < 2 ^ 20) (word : Word) :
    if vm.base + i < maxCapacity then
      ∃ vm', vm.set i word = .ok vm' ∧ Acts vm [.assign i word] vm'
    else vm.set i word = .error (.fault .overrun) := by
  have hwrite := h.slots.set (vm.base + i) word
  unfold VM.set
  rw [h.index_eq hi]
  by_cases hlt : vm.base + i < maxCapacity
  · rw [if_pos hlt] at hwrite ⊢
    rcases hwrite with ⟨slots', hwritten, hrep⟩
    rw [hwritten]
    exact ⟨_, rfl, Acts.of_slots h hrep rfl⟩
  · rw [if_neg hlt] at hwrite ⊢
    rw [hwrite]
    rfl

/-- A write behind operations that took no action. -/
theorem Acts.set_spec {mid : VM} (hmid : Acts vm [] mid) (h : vm.WellFramed) {i : Nat}
    (hi : i < 2 ^ 20) (word : Word) :
    if vm.base + i < maxCapacity then
      ∃ vm', mid.set i word = .ok vm' ∧ Acts vm [.assign i word] vm'
    else mid.set i word = .error (.fault .overrun) := by
  have hset := (hmid.wellFramed h).set_spec hi word
  rw [hmid.base_eq] at hset
  by_cases hlt : vm.base + i < maxCapacity
  · rw [if_pos hlt] at hset ⊢
    rcases hset with ⟨vm', hok, hacts⟩
    exact ⟨vm', hok, hmid.trans hacts⟩
  · rwa [if_neg hlt] at hset ⊢

/-- A read gives a word of the frame and takes no action. -/
theorem get_acts (h : vm.WellFramed) {i : Nat} {word : Word} (hi : i < 2 ^ 20)
    (hget : vm.get i = .ok (vm', word)) :
    vm.words[vm.base + i]? = some word ∧ Acts vm [] vm' := by
  rcases h.get_spec hi with ⟨read, hacts, hread⟩
  split at hread
  · next w hw =>
    rw [hget] at hread
    cases hread
    exact ⟨hw, hacts⟩
  · rcases hread with ⟨printed, hread⟩
    rw [hget] at hread
    cases hread

/-- A read of a slot in use returns. -/
theorem get_eq_ok (h : vm.WellFramed) {i : Nat} {word : Word} (hi : i < 2 ^ 20)
    (hword : vm.words[vm.base + i]? = some word) : ∃ vm', vm.get i = .ok (vm', word) := by
  rcases h.get_spec hi with ⟨read, _, hread⟩
  rw [hword] at hread
  exact ⟨read, hread⟩

/-- A write is one assignment. -/
theorem set_acts (h : vm.WellFramed) {i : Nat} {word : Word} (hi : i < 2 ^ 20)
    (hset : vm.set i word = .ok vm') : Acts vm [.assign i word] vm' :=
  (of_eq_ok (h.set_spec hi word) hset).2

/-- A move assigns a word of the frame, as far as the capacity can grow. -/
theorem WellFramed.move_spec (h : vm.WellFramed) {target source : Nat} {word : Word}
    (htarget : target < 2 ^ 20) (hsource : source < 2 ^ 20)
    (hword : vm.words[vm.base + source]? = some word) :
    if vm.base + target < maxCapacity then
      ∃ vm', vm.move target source = .ok vm' ∧ Acts vm [.assign target word] vm'
    else vm.move target source = .error (.fault .overrun) := by
  rcases h.get_spec hsource with ⟨mid, hmid, hread⟩
  rw [hword] at hread
  have hmove : vm.move target source = mid.set target word := by
    unfold VM.move
    rw [hread]
    rfl
  rw [hmove]
  exact hmid.set_spec h htarget word

/-- A move assigns a word of the frame. -/
theorem move_acts (h : vm.WellFramed) {target source : Nat} (htarget : target < 2 ^ 20)
    (hsource : source < 2 ^ 20) (hmove : vm.move target source = .ok vm') :
    ∃ word, vm.words[vm.base + source]? = some word ∧ Acts vm [.assign target word] vm' := by
  rcases bind_eq_ok.mp hmove with ⟨⟨mid, word⟩, hget, hset⟩
  rcases get_acts h hsource hget with ⟨hword, hmid⟩
  exact ⟨word, hword, hmid.trans (set_acts (hmid.wellFramed h) htarget hset)⟩

/-- An instruction assigns a word and steps on, as far as the slots can grow. -/
def Stores (vm : VM) (a : Nat) (word : Word) (x : Outcome VM VM) : Prop :=
  if vm.base + a < maxCapacity then
    ∃ vm', x = .ok vm' ∧ Moves vm [.assign a word] vm' ∧ vm'.rest = vm.rest.next
  else x = .error (.fault .overrun)

/-- An operation that assigns, and a step on. -/
theorem stores_next {a : Nat} {word : Word} {x : Outcome VM VM}
    (h : if vm.base + a < maxCapacity then
        ∃ vm', x = .ok vm' ∧ Acts vm [.assign a word] vm'
      else x = .error (.fault .overrun)) :
    Stores vm a word (do let vm ← x; return vm.next) := by
  unfold Stores
  by_cases hlt : vm.base + a < maxCapacity
  · rw [if_pos hlt] at h ⊢
    rcases h with ⟨last, hok, hacts⟩
    refine ⟨last.next, by rw [hok]; rfl, hacts.toMoves.setPc _, ?_⟩
    change last.rest.next = vm.rest.next
    rw [hacts.rest]
  · rw [if_neg hlt] at h ⊢
    rw [h]
    rfl

/-- An operation that assigns behind a step on. -/
theorem next_set_stores {mid : VM} {a : Nat} (h : vm.WellFramed) (ha : a < 2 ^ 20)
    (hmid : Acts vm [] mid) (word : Word) : Stores vm a word (mid.next.set a word) := by
  have hnext : Moves vm [] mid.next := hmid.toMoves.setPc _
  have hset := (hnext.wellFramed h).set_spec ha word
  rw [show mid.next.base = vm.base from hmid.base_eq] at hset
  unfold Stores
  by_cases hlt : vm.base + a < maxCapacity
  · rw [if_pos hlt] at hset ⊢
    rcases hset with ⟨vm', hok, hacts⟩
    refine ⟨vm', hok, hnext.trans hacts.toMoves, ?_⟩
    rw [hacts.rest]
    change mid.rest.next = vm.rest.next
    rw [hmid.rest]
  · rw [if_neg hlt] at hset ⊢
    exact hset

/-- Reading two operands takes no action, and stops with status 1 if one of them is
behind the last slot. -/
theorem WellFramed.operands_spec (h : vm.WellFramed) {b c : Nat} (hb : b < 2 ^ 20)
    (hc : c < 2 ^ 20) {α : Type} (rest : VM → Word → Word → Outcome VM α) :
    ∃ mid, Acts vm [] mid ∧
      match vm.words[vm.base + b]?, vm.words[vm.base + c]? with
      | some x, some y =>
          (do
            let (vm, x) ← vm.get b
            let (vm, y) ← vm.get c
            rest vm x y) = rest mid x y
      | _, _ => ∃ printed,
          (do
            let (vm, x) ← vm.get b
            let (vm, y) ← vm.get c
            rest vm x y) = .error (.exit 1 mid printed) := by
  rcases h.get_spec hb with ⟨first, hfirst, hreadb⟩
  cases hx : vm.words[vm.base + b]? with
  | none =>
      rw [hx] at hreadb
      rcases hreadb with ⟨printed, hreadb⟩
      exact ⟨first, hfirst, printed, by rw [hreadb]; rfl⟩
  | some x =>
      rw [hx] at hreadb
      simp only [hreadb]
      rcases (hfirst.wellFramed h).get_spec hc with ⟨second, hsecond, hreadc⟩
      rw [hfirst.words_eq, hfirst.base_eq] at hreadc
      refine ⟨second, hfirst.trans hsecond, ?_⟩
      cases hy : vm.words[vm.base + c]? with
      | none =>
          rw [hy] at hreadc
          rcases hreadc with ⟨printed, hreadc⟩
          exact ⟨printed, by simp only [bind, Except.bind, hreadc]⟩
      | some y =>
          rw [hy] at hreadc
          simp only [bind, Except.bind, hreadc]

/-- Entering the context of a callee enters a frame, up to the largest depth. -/
theorem WellFramed.enterContext_spec (h : vm.WellFramed) {localbase : Nat}
    (hlocal : localbase < 2 ^ 20) (hle : vm.base + localbase ≤ vm.words.length)
    (func : BitVec 16) :
    if vm.contexts.length < maxDepth then
      ∃ vm', enterContext vm localbase func = .ok vm' ∧
        Acts vm [.enter localbase (func.setWidth 32)] vm'
    else enterContext vm localbase func = .error (.fault .overrun) := by
  unfold enterContext pushContext
  by_cases hdepth : vm.contexts.length < maxDepth
  · rw [if_pos hdepth]
    rcases h.stack.push hdepth vm.getContext with ⟨stack, hpush, hrep⟩
    rw [hpush]
    refine ⟨_, rfl, ?_⟩
    rw [show ({ vm with stack := stack } : VM).base = vm.base from rfl, h.index_eq hlocal]
    apply Acts.of_stack h hrep
    have hle' : vm.frames.index localbase ≤ vm.frames.cells.length := hle
    simp only [Frames.run, Frames.act, if_pos hle', Option.bind_some, List.map_append]
    rfl
  · rw [if_neg hdepth, h.stack.push_overrun (by omega)]
    rfl

/-- Entering the context of a callee enters a frame. -/
theorem enterContext_acts (h : vm.WellFramed) {localbase : Nat} {func : BitVec 16}
    (hlocal : localbase < 2 ^ 20) (hle : vm.base + localbase ≤ vm.words.length)
    (henter : enterContext vm localbase func = .ok vm') :
    Acts vm [.enter localbase (func.setWidth 32)] vm' :=
  (of_eq_ok (h.enterContext_spec hlocal hle func) henter).2

/-- Going back to the context of the caller leaves the frame. -/
theorem popContext_acts (h : vm.WellFramed) {caller : Context}
    (hpop : vm.popContext = .ok (vm', caller)) : Acts vm [.leave] (vm'.setContext caller) := by
  rcases bind_eq_ok.mp hpop with ⟨⟨stack, ctx⟩, hstack, hret⟩
  cases hret
  rw [onStack_eq_ok] at hstack
  have hrule := h.stack.pop
  split at hrule
  · next last hlast =>
    rcases hrule with ⟨stack', hpopped, hrep⟩
    rw [hstack] at hpopped
    cases hpopped
    apply Acts.of_stack h hrep
    have hcaller : vm.frames.callers.getLast? = some caller.frame := by
      change (vm.contexts.map Context.frame).getLast? = _
      rw [List.getLast?_map, hlast]
      rfl
    simp only [Frames.run, Frames.act, hcaller, Option.map_some, Option.bind_some,
      List.map_dropLast]
    rfl
  · rcases hrule with ⟨stack', printed, hstopped⟩
    rw [hstack] at hstopped
    cases hstopped

/-- The direct assignment of the size truncates. -/
theorem truncate_acts (h : vm.WellFramed) {a : Nat} (ha : a < 2 ^ 20)
    (hle : vm.base + a ≤ vm.words.length) : Acts vm [.truncate a] (vm.truncate a) := by
  unfold truncate
  rw [h.index_eq ha]
  apply Acts.of_slots h (h.slots.truncate hle)
  have hle' : vm.frames.index a ≤ vm.frames.cells.length := hle
  simp only [Frames.run, Frames.act, if_pos hle', Option.bind_some]
  rfl

/-- The state of a new machine is in order. -/
theorem vmInit_wellFramed (host : Host) : (vmInit host).WellFramed where
  slots := slotsInit_represents
  stack := stackInit_represents
  ordered := ⟨Nat.le_refl 0, List.pairwise_singleton _ _⟩

end VM

end ClojitCvm
