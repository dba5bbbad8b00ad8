import ClojitCvm.Machine.Ideal
import ClojitCvm.Machine.Tracing

/-!
# The operations on the ideal machine

Each operation of the machine does to the ideal state what the operation of the ideal
machine does.  A traced machine prints more and can fault while it prints, so its rules hold
up to its own lines and its own faults.

Main results:

- Definition {lit}`Refines`: a machine in order and the ideal state it stands for.
- Theorems {lit}`Refines.get` to {lit}`Refines.truncate`: one rule for each operation on slots
  and contexts.
-/

namespace ClojitCvm

open ByteMemory CellArray FrameStack LockStep Slot

/-! ## Related states -/

/-- What a machine at a debug level has printed, against what it prints at level zero. -/
def Printed (level : Int) (out out' : List String) : Prop :=
  if level > 0 then out.Sublist out' else out = out'

/-- The ideal state with another output. -/
def VM.idealWith (vm : VM) (out : List String) : Ideal :=
  { vm.ideal with out := out }

/-- A machine shows an ideal state. -/
def Shows (level : Int) (vm : VM) (p : Ideal) : Prop :=
  ∃ out, p = vm.idealWith out ∧ Printed level out vm.out

/-- Slots, contexts and blocks are in order, and every object has the size of its block in
its header. -/
structure VM.InOrder (host : Host) (vm : VM) : Prop extends vm.WellFormed host where
  headed : ∀ block ∈ vm.blocks, objSize vm.heap block.addr = block.size

/-- A machine in order shows an ideal state. -/
structure Refines (level : Int) (host : Host) (vm : VM) (p : Ideal) : Prop where
  inOrder : vm.InOrder host
  shows : Shows level vm p

/-- Two processes end in the same way. -/
def SameHalt (level : Int) : Halt VM → Halt Ideal → Prop
  | .exit status vm printed, .exit status' p printed' =>
      status = status' ∧ printed = printed' ∧ Shows level vm p
  | .fault why, .fault why' => why = why'
  | _, _ => False

/-- The faults of a traced machine need not be faults of the ideal one. -/
def Excused (level : Int) : Halt VM → Prop
  | .fault _ => level > 0
  | .exit _ _ _ => False

/-- A computation of the machine does what one of the ideal machine does. -/
def Mirrors (level : Int) {α β : Type} (R : α → β → Prop) (x : Outcome VM α)
    (y : Outcome Ideal β) : Prop :=
  Follows (Excused level) (SameHalt level) R x y

/-! ## Output -/

section Printed

variable {level : Int} {out out' : List String}

/-- A machine that prints the same. -/
theorem Printed.refl (level : Int) (out : List String) : Printed level out out := by
  unfold Printed
  split
  · exact List.Sublist.refl out
  · rfl

/-- Both print the same texts. -/
theorem Printed.append (h : Printed level out out') (texts : List String) :
    Printed level (out ++ texts) (out' ++ texts) := by
  unfold Printed at h ⊢
  by_cases hlevel : level > 0
  · rw [if_pos hlevel] at h ⊢
    exact h.append (List.Sublist.refl texts)
  · rw [if_neg hlevel] at h ⊢
    rw [h]

/-- Only the traced machine prints a text. -/
theorem Printed.trace (h : Printed level out out') (hlevel : level > 0) (text : String) :
    Printed level out (out' ++ [text]) := by
  unfold Printed at h ⊢
  rw [if_pos hlevel] at h ⊢
  exact h.trans (List.sublist_append_left out' [text])

/-- At level zero there are no lines of a trace. -/
theorem Printed.zero (h : Printed 0 out out') : out = out' := by
  simpa [Printed] using h

end Printed

/-! ## Machines and ideal states -/

namespace Refines

variable {level : Int} {host : Host} {vm vm' : VM} {p : Ideal} {actions : List SlotAction}

/-- A machine that refines an ideal state is well framed. -/
theorem wellFramed (h : Refines level host vm p) : vm.WellFramed :=
  h.inOrder.toWellFramed

/-- Actions on slots and contexts that print nothing. -/
theorem of_acts {out : List String} (h : vm.InOrder host) (hout : Printed level out vm.out)
    (hacts : VM.Acts vm actions vm') (hprint : vm'.out = vm.out) :
    Refines level host vm' (vm'.idealWith out) := by
  rcases hacts.rest_fields with ⟨_, _, hheap, hblocks, _, _⟩
  refine ⟨⟨⟨hacts.wellFramed h.toWellFramed, ?_⟩, ?_⟩, out, rfl, ?_⟩
  · rw [hblocks]
    exact h.fits
  · rw [hblocks, hheap]
    exact h.headed
  · rw [hprint]
    exact hout

/-- The ideal state behind actions on slots and contexts. -/
theorem idealWith_of_acts (hacts : VM.Acts vm actions vm') (out : List String) :
    vm'.idealWith out = { vm.idealWith out with
      ip := vm'.ip, base := vm'.base, words := vm'.words, contexts := vm'.contexts } := by
  rcases hacts.rest_fields with ⟨hpc, htable, hheap, hblocks, hreserves, _⟩
  simp only [VM.idealWith, VM.ideal, hpc, hheap, hblocks, hreserves]
  congr 1
  funext name
  simp only [VM.getSymbolTable, htable]

/-- Another program counter. -/
theorem setPc (h : Refines level host vm p) (pc : BitVec 32) :
    Refines level host { vm with pc := pc } { p with pc := pc } := by
  rcases h.shows with ⟨out, rfl, hout⟩
  exact ⟨⟨⟨⟨h.wellFramed.slots, h.wellFramed.stack, h.wellFramed.ordered⟩, h.inOrder.fits⟩,
    h.inOrder.headed⟩, out, rfl, hout⟩

/-- The program counter is shown as it is. -/
theorem pc_eq (h : Refines level host vm p) : p.pc = vm.pc := by
  rcases h.shows with ⟨out, rfl, _⟩
  rfl

/-- Both step on. -/
theorem next (h : Refines level host vm p) : Refines level host vm.next p.next := by
  change Refines level host { vm with pc := vm.pc + 1 } { p with pc := p.pc + 1 }
  rw [h.pc_eq]
  exact h.setPc _

/-- Both jump. -/
theorem jump (h : Refines level host vm p) (d : BitVec 16) :
    Refines level host (vm.jump d) (p.jump d) := by
  change Refines level host { vm with pc := vm.pc + d.signExtend 32 }
    { p with pc := p.pc + d.signExtend 32 }
  rw [h.pc_eq]
  exact h.setPc _

/-- Another output, with other marks. -/
theorem setOut (h : Refines level host vm p) {out out' : List String}
    (hout : Printed level out out') (marks : List Nat) :
    Refines level host { vm with out := out', marks := marks } { p with out := out } := by
  rcases h.shows with ⟨old, rfl, _⟩
  exact ⟨⟨⟨⟨h.wellFramed.slots, h.wellFramed.stack, h.wellFramed.ordered⟩, h.inOrder.fits⟩,
    h.inOrder.headed⟩, out, rfl, hout⟩

/-- The traced output has the ideal one as a part. -/
theorem printed (h : Refines level host vm p) : Printed level p.out vm.out := by
  rcases h.shows with ⟨out, rfl, hout⟩
  exact hout

/-- Both print a text. -/
theorem print (h : Refines level host vm p) (text : String) :
    Refines level host (vm.print text) (p.print text) :=
  h.setOut (h.printed.append [text]) _

/-- A traced line is the machine's own. -/
theorem trace (h : Refines level host vm p) (text : String) :
    Refines level host (vm.trace level text) p := by
  unfold VM.trace
  split
  · next hlevel => exact h.setOut (h.printed.trace hlevel text) _
  · exact h

end Refines

/-! ## Slots -/

/-- A read gives the element, or stops with a line that names the index and the size. -/
theorem slotsGet_eq {slots : Slots} {xs : List Word} (h : slots.Represents xs) (i : Nat) :
    ∃ slots', slots'.Represents xs ∧ slotsGet slots i =
      match xs[i]? with
      | some word => .ok (slots', word)
      | none => .error (.exit 1 slots' [Ideal.boundsText i xs.length]) := by
  rcases h.halve with ⟨shrunk, hshrink, hrep⟩
  refine ⟨shrunk, hrep, ?_⟩
  have hsize := hrep.size_eq
  simp only [slotsGet, hshrink, bind, Except.bind]
  by_cases hi : i < xs.length
  · have hload := hrep.holds.load hi
    rw [List.getElem?_eq_getElem hi] at hload ⊢
    simp only [if_neg (show ¬ i ≥ shrunk.size by omega), hload]
  · rw [List.getElem?_eq_none (by omega), if_pos (by omega), hsize]
    rfl

/-- Slots that stand for the same list. -/
theorem Refines.setSlots {level : Int} {host : Host} {vm : VM} {p : Ideal} {slots : Slots}
    (h : Refines level host vm p) (hrep : slots.Represents vm.words) :
    Refines level host { vm with slots := slots } p := by
  rcases h.shows with ⟨out, rfl, hout⟩
  have hacts : VM.Acts vm [] { vm with slots := slots } := .of_slots h.wellFramed hrep rfl
  have hframes : { vm with slots := slots }.frames = vm.frames := hacts.frames_eq
  have heq : { vm with slots := slots }.idealWith out = vm.idealWith out := by
    rw [Refines.idealWith_of_acts hacts out]
    rw [hacts.words_eq]
    rfl
  rw [← heq]
  exact Refines.of_acts h.inOrder hout hacts rfl

namespace Refines

variable {level : Int} {host : Host} {vm vm' : VM} {p : Ideal}

/-- Reading a slot: halving a sparse array does not show. -/
theorem get (h : Refines level host vm p) {i : Nat} (hi : i < 2 ^ 20) :
    Mirrors level (fun r word => r.2 = word ∧ Refines level host r.1 p) (vm.get i)
      (p.get i) := by
  rcases h.shows with ⟨out, rfl, hout⟩
  rcases slotsGet_eq h.wellFramed.slots (vm.base + i) with ⟨slots, hrep, hread⟩
  have hslots := h.setSlots hrep
  unfold VM.get Ideal.get
  rw [h.wellFramed.index_eq hi, hread]
  change Mirrors level _ _ (match vm.words[vm.base + i]? with
    | some word => .ok word
    | none => .error (.exit 1 (vm.idealWith out)
        [Ideal.boundsText (vm.base + i) vm.words.length]))
  cases vm.words[vm.base + i]? with
  | some word => exact .ok ⟨rfl, hslots⟩
  | none => exact .error ⟨rfl, rfl, hslots.shows⟩

/-- Writing a slot: neither the stale cells nor a doubled array show. -/
theorem set (h : Refines level host vm p) {i : Nat} (hi : i < 2 ^ 20) (word : Word) :
    Mirrors level (Refines level host) (vm.set i word) (p.set i word) := by
  rcases h.shows with ⟨out, rfl, hout⟩
  have hwrite := h.wellFramed.slots.set (vm.base + i) word
  unfold VM.set Ideal.set
  rw [h.wellFramed.index_eq hi]
  change Mirrors level _ _ (if vm.base + i < maxCapacity then _ else _)
  by_cases hlt : vm.base + i < maxCapacity
  · rw [if_pos hlt] at hwrite ⊢
    rcases hwrite with ⟨slots, hok, hrep⟩
    rw [hok]
    have hacts : VM.Acts vm [.assign i word]
        { vm with slots := slots, stores := (vm.base + i) :: vm.stores } :=
      .of_slots h.wellFramed hrep rfl
    have hresult := of_acts h.inOrder hout hacts rfl
    rw [idealWith_of_acts hacts out, hacts.toMoves.of_assign.1,
      show ({ vm with slots := slots, stores := (vm.base + i) :: vm.stores } : VM).contexts =
        vm.contexts from rfl] at hresult
    exact .ok hresult
  · rw [if_neg hlt] at hwrite ⊢
    rw [hwrite]
    exact .error rfl

/-- A move is a read and a write. -/
theorem move (h : Refines level host vm p) {target source : Nat} (htarget : target < 2 ^ 20)
    (hsource : source < 2 ^ 20) :
    Mirrors level (Refines level host) (vm.move target source) (p.move target source) := by
  refine (h.get hsource).bind ?_
  rintro ⟨read, word⟩ _ ⟨rfl, hread⟩
  exact hread.set htarget word

/-- The loop of {lit}`BULKMOV`, by induction on its turns. -/
theorem bulkMove {a b turns i : Nat} (h : Refines level host vm p)
    (ha : a + i + turns < 2 ^ 20) (hb : b + i + turns < 2 ^ 20) :
    Mirrors level (Refines level host) (bulkMove a b turns i vm)
      (Ideal.bulkMove a b turns i p) := by
  induction turns generalizing vm p i with
  | zero => exact .ok h
  | succ turns ih =>
      refine (h.move (by omega) (by omega)).bind fun moved p' hmoved => ?_
      exact ih hmoved (by omega) (by omega)

/-- The loop of a builtin that clears its slots. -/
theorem clearSlots {turns i : Nat} (h : Refines level host vm p) (hi : i + turns < 2 ^ 20) :
    Mirrors level (Refines level host) (clearSlots turns i vm) (Ideal.clear turns i p) := by
  induction turns generalizing vm p i with
  | zero => exact .ok h
  | succ turns ih =>
      refine (h.set (by omega) getNil).bind fun cleared p' hcleared => ?_
      exact ih hcleared (by omega)

/-- An instruction that ends with a step on. -/
theorem andNext {x : Outcome VM VM} {y : Outcome Ideal Ideal}
    (h : Mirrors level (Refines level host) x y) :
    Mirrors level (Refines level host) (do let vm ← x; return vm.next)
      (do let p ← y; return p.next) :=
  h.bind fun _ _ hlast => .ok hlast.next

/-- Writing a slot and stepping on. -/
theorem put (h : Refines level host vm p) {i : Nat} (hi : i < 2 ^ 20) (word : Word) :
    Mirrors level (Refines level host) (do let vm ← vm.set i word; return vm.next)
      (p.put i word) :=
  andNext (h.set hi word)

/-! ## Contexts -/

/-- Entering a function from inside the slots pushes the same context. -/
theorem enter (h : Refines level host vm p) {localbase : Nat} (hlocal : localbase < 2 ^ 20)
    (hle : vm.base + localbase ≤ vm.words.length) (func : BitVec 16) :
    Mirrors level (Refines level host) (enterContext vm localbase func)
      (p.enter localbase func) := by
  rcases h.shows with ⟨out, rfl, hout⟩
  unfold enterContext VM.pushContext Ideal.enter
  change Mirrors level _ _ (if vm.contexts.length < maxDepth then _ else _)
  by_cases hdepth : vm.contexts.length < maxDepth
  · rw [if_pos hdepth]
    rcases h.wellFramed.stack.push hdepth vm.getContext with ⟨stack, hpush, hrep⟩
    have henter : enterContext vm localbase func = .ok
        ({ vm with stack := stack }.setContext ⟨vm.base + localbase, func.setWidth 32⟩) := by
      unfold enterContext VM.pushContext
      rw [hpush]
      change Except.ok _ = _
      rw [show ({ vm with stack := stack } : VM).base = vm.base from rfl,
        h.wellFramed.index_eq hlocal]
    have hacts := VM.enterContext_acts h.wellFramed hlocal hle henter
    have hresult := of_acts h.inOrder hout hacts rfl
    rw [idealWith_of_acts hacts out] at hresult
    have hcontexts : ({ vm with stack := stack }.setContext
        ⟨vm.base + localbase, func.setWidth 32⟩).contexts = vm.contexts ++ [vm.getContext] :=
      VM.contexts_eq hrep
    rw [hcontexts] at hresult
    change Mirrors level _ (enterContext vm localbase func) _
    rw [henter]
    exact .ok hresult
  · rw [if_neg hdepth, h.wellFramed.stack.push_overrun (by omega)]
    exact .error rfl

/-- A pop of the empty stack names the index before the first. -/
theorem pop_eq_of_nil {stack : Stack} (h : stack.Represents []) :
    pop stack = .error (.exit 1 { stack with top := -1 } [Ideal.underflowText]) := by
  have htop : stack.top = 0 := h.top_eq
  simp only [pop, htop]
  rfl

/-- Leaving one pops the same context, or exits at an empty stack. -/
theorem leave (h : Refines level host vm p) :
    Mirrors level (fun r p' => Refines level host (r.1.setContext r.2) p') vm.popContext
      p.leave := by
  rcases h.shows with ⟨out, rfl, hout⟩
  have hpop := h.wellFramed.stack.pop
  unfold Ideal.leave
  cases hlast : vm.contexts.getLast? with
  | some caller =>
      have hcaller : (vm.idealWith out).contexts.getLast? = some caller := hlast
      rw [hlast] at hpop
      rcases hpop with ⟨stack, hok, hrep⟩
      have hleft : vm.popContext = .ok ({ vm with stack := stack }, caller) := by
        unfold VM.popContext
        rw [hok]
        rfl
      have hacts := VM.popContext_acts h.wellFramed hleft
      have hresult := of_acts h.inOrder hout hacts rfl
      have hcontexts : ({ vm with stack := stack }.setContext caller).contexts =
          vm.contexts.dropLast := VM.contexts_eq hrep
      rw [idealWith_of_acts hacts out, hcontexts] at hresult
      rw [hleft, hcaller]
      exact .ok hresult
  | none =>
      have hcaller : (vm.idealWith out).contexts.getLast? = none := hlast
      have hnil : vm.contexts = [] := List.getLast?_eq_none_iff.mp hlast
      have hempty := pop_eq_of_nil (hnil ▸ h.wellFramed.stack)
      have hstopped : vm.popContext = .error (.exit 1
          { vm with stack := { vm.stack with top := -1 } } [Ideal.underflowText]) := by
        unfold VM.popContext
        rw [hempty]
        rfl
      rw [hstopped, hcaller]
      refine .error ⟨rfl, rfl, out, ?_, hout⟩
      have hcontexts : ({ vm with stack := { vm.stack with top := -1 } } : VM).contexts =
          vm.contexts := by
        rw [hnil]
        rfl
      simp only [VM.idealWith, VM.ideal, hcontexts]
      rfl

/-- Cutting the slots off keeps the stale cells, which do not show. -/
theorem truncate (h : Refines level host vm p) {a : Nat} (ha : a < 2 ^ 20)
    (hle : vm.base + a ≤ vm.words.length) :
    Refines level host (vm.truncate a) (p.truncate a) := by
  rcases h.shows with ⟨out, rfl, hout⟩
  have hacts := VM.truncate_acts h.wellFramed ha hle
  have hresult := of_acts h.inOrder hout hacts rfl
  have hwords : (vm.truncate a).words = vm.words.take (vm.base + a) := by
    unfold VM.truncate
    rw [h.wellFramed.index_eq ha]
    exact VM.words_eq (h.wellFramed.slots.truncate hle)
  rw [idealWith_of_acts hacts out, hwords] at hresult
  exact hresult

end Refines

end ClojitCvm
