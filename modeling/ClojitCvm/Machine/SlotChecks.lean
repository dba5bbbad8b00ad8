import ClojitCvm.Machine.FunctionContracts

/-!
# Checks of slots

A read behind the last slot ends the process.  How many slots there are changes with every
instruction, every call and every return, so no instruction alone rules this out.  A program
that comes with a height for each of its instructions can be checked once, before the run,
and all that a call is known to do to the frame of its caller is the contract of its function.

Main results:

- Definition {lit}`SlotsChecked`: the check of all instructions of a file with its heights.
- Theorem {lit}`slots_in_bounds`: no run of a program that passes the check ends at a slot
  behind the last one.
-/

namespace ClojitCvm

open ByteMemory CellArray Contracts FrameStack LockStep Slot

/-! ## The check of an instruction -/

/-- How many slots a frame has at least: at an instruction, when it is entered, and when its
function has returned. -/
structure Heights where
  front : BitVec 32 → Nat
  entered : Nat
  returned : Nat

/-- How many slots of its frame an instruction needs in order to read its operands. -/
def Decoded.needs (inst : Decoded) : Nat :=
  match inst.op with
  | some .nsset | some .jumpf | some .jumpt | some .ret | some .alloc => inst.a + 1
  | some .addvv | some .subvv | some .mulvv | some .divvv | some .modvv | some .iseq =>
      max inst.b inst.c + 1
  | some .mov => inst.d.toNat + 1
  | some .bulkmov => inst.b + inst.c
  | some .setfield => max inst.a inst.c + 1
  | _ => 0

/-- How many slots a frame with so many slots has at least behind an instruction that goes on
to the next one. -/
def Decoded.leavesSlots (inst : Decoded) (returned height : Nat) : Nat :=
  match inst.op with
  | some .cstr | some .ckey | some .ctype | some .cbool | some .cnil | some .cshort | some .fnew
  | some .nsget | some .modvv | some .iseq | some .mov => max (inst.a + 1) height
  | some .bulkmov => if inst.c = 0 then height else max (inst.a + inst.c) height
  | some .call => inst.a + returned
  | _ => height

/-- An instruction finds its operands and keeps the heights. -/
def Decoded.SlotsChecked (heights : Heights) (pc : BitVec 32) (inst : Decoded) : Prop :=
  inst.needs ≤ heights.front pc ∧
    (neverFalls inst.op = false →
      heights.front (pc + 1) ≤ inst.leavesSlots heights.returned (heights.front pc)) ∧
    (isJump inst.op = true → heights.front (pc + inst.d.signExtend 32) ≤ heights.front pc) ∧
    (inst.op = some .call → inst.a + heights.entered ≤ heights.front pc) ∧
    (inst.op = some .ret → heights.returned ≤ inst.a) ∧
    (inst.op = some .fnew → heights.front (inst.d.setWidth 32) ≤ heights.entered)

instance (heights : Heights) (pc : BitVec 32) (inst : Decoded) :
    Decidable (inst.SlotsChecked heights pc) :=
  inferInstanceAs (Decidable (_ ∧ _))

/-- All instructions pass the check.  A frame is entered with the return address, the function
and an argument of a builtin at least. -/
structure Program.SlotsChecked (prog : Program) (heights : Heights) (cnt : Nat) : Prop where
  start : heights.front 0 = 0
  entered : 3 ≤ heights.entered
  returned : heights.returned ≤ heights.entered
  code : ∀ (pc : BitVec 32) (inst : Decoded), pc.toNat < cnt → prog.code pc = some inst →
    inst.SlotsChecked heights pc

/-! ## Words and frames -/

/-- A place in the program where so many slots are enough. -/
def Heights.Allows (heights : Heights) (cnt : Nat) (pc : BitVec 32) (height : Nat) : Prop :=
  pc.toNat < cnt ∧ heights.front pc ≤ height

/-- The frame of a function is high enough when it is entered. -/
def Heights.Fits (heights : Heights) (cnt : Nat) (word : Word) : Prop :=
  isFnew word = true → heights.Allows cnt ((getFnew word).setWidth 32) heights.entered

/-- The frame is as high as it has to be, and all functions fit. -/
structure View.Sound (heights : Heights) (cnt : Nat) (view : View) : Prop where
  pc : heights.Allows cnt view.pc view.frame.length
  words : ∀ word ∈ view.frame, heights.Fits cnt word
  globals : ∀ name, heights.Fits cnt (view.globals name)

/-- The contract of all functions: they hand over enough slots, and their functions fit. -/
def slotContracts (heights : Heights) (cnt : Nat) : Annotation View Returned where
  pre := View.Sound heights cnt
  post _ r := heights.returned ≤ r.words.length ∧ (∀ word ∈ r.words, heights.Fits cnt word) ∧
    ∀ name, heights.Fits cnt (r.globals name)
  holds _ := View.Sound heights cnt

section Fits

variable {heights : Heights} {cnt : Nat} {word : Word}

/-- Words that are no functions fit. -/
theorem fits_of_not_isFnew (h : isFnew word = false) : heights.Fits cnt word := by
  intro hfnew
  rw [h] at hfnew
  cases hfnew

/-- Integers are no functions. -/
theorem fits_toSmallInt (num : BitVec 32) : heights.Fits cnt (toSmallInt num) :=
  fits_of_not_isFnew (isFnew_toSmallInt num)

/-- Nil is no function. -/
theorem fits_getNil : heights.Fits cnt getNil :=
  fits_of_not_isFnew (by decide)

end Fits

/-! ## Reads and writes -/

/-- The computation does not exit at a slot behind the last one. -/
def InBounds {α : Type} (x : Outcome Ideal α) (post : α → Prop) : Prop :=
  Ends x post fun _ _ printed => ∀ index size, printed ≠ [Ideal.boundsText index size]

/-- Words are written to the frame, which has so many slots then, and all functions fit. -/
structure Filled (heights : Heights) (cnt n : Nat) (p p' : Ideal) : Prop where
  same : p' = { p with words := p'.words }
  height : max n p.frame.length ≤ p'.frame.length
  fits : ∀ k ≤ p.base, (∀ word ∈ p.words.drop k, heights.Fits cnt word) →
    ∀ word ∈ p'.words.drop k, heights.Fits cnt word

section InBounds

variable {heights : Heights} {cnt i n m : Nat} {p p' p'' : Ideal} {word : Word} {prog : Program}

/-- Only the text of a slot behind the last one has a letter of {lit}`size`. -/
theorem ne_boundsText {text : String} (h : 'z' ∉ text.toList) (index size : Nat) :
    [text] ≠ [Ideal.boundsText index size] := by
  intro heq
  cases heq
  refine h ?_
  simp [Ideal.boundsText]

/-- A computation that can only fault. -/
theorem InBounds.of_faults {α : Type} {x : Outcome Ideal α} {post : α → Prop}
    (h : Ends x post fun _ _ _ => False) : InBounds x post :=
  h.mono (fun _ h => h) fun _ _ _ h => h.elim

/-- A lookup that can fail only faults. -/
theorem orWild_faults {α : Type} (x : Option α) :
    Ends (orWild x) (fun _ => True) fun _ _ _ => False := by
  cases x <;> exact trivial

/-- A read of a slot that is there. -/
theorem get_in_bounds (hi : i < p.frame.length) :
    InBounds (p.get i) fun word => p.frame[i]? = some word := by
  have hlength : p.frame.length = p.words.length - p.base := List.length_drop
  unfold InBounds Ideal.get
  rw [List.getElem?_eq_getElem (by omega)]
  change p.frame[i]? = _
  rw [Ideal.frame, List.getElem?_drop, List.getElem?_eq_getElem]

/-- Nothing has been written yet. -/
theorem Filled.refl (p : Ideal) : Filled heights cnt 0 p p :=
  ⟨rfl, by omega, fun _ _ h => h⟩

/-- What two computations write, one behind the other. -/
theorem Filled.trans (h : Filled heights cnt n p p') (h' : Filled heights cnt m p' p'') :
    Filled heights cnt (max n m) p p'' := by
  have hheight := h.height
  have hheight' := h'.height
  have hbase : p'.base = p.base := by rw [h.same]
  refine ⟨?_, by omega, fun k hk hwords => h'.fits k (by omega) (h.fits k hk hwords)⟩
  rw [h'.same, h.same]

/-- A write fills the frame up to its slot, with nil in a gap. -/
theorem set_filled (h : p.set i word = .ok p') (hword : heights.Fits cnt word) :
    Filled heights cnt (i + 1) p p' := by
  have hframe := Ideal.set_frame h
  refine ⟨?_, ?_, fun k hk hwords w hw => ?_⟩
  · rw [Ideal.set_eq h]
  · rw [hframe, length_assign]
    omega
  · rw [Ideal.set_eq h] at hw
    have hsplit : p.base + i = k + (p.base - k + i) := by omega
    change w ∈ (assign 0#64 p.words (p.base + i) word).drop k at hw
    rw [hsplit, drop_assign] at hw
    rcases mem_of_mem_assign hw with rfl | hw | rfl
    · exact hword
    · exact hwords w hw
    · exact fits_getNil

/-- A write never exits. -/
theorem set_in_bounds (p : Ideal) (i : Nat) (hword : heights.Fits cnt word) :
    InBounds (p.set i word) (Filled heights cnt (i + 1) p) := by
  have hfaults : Ends (p.set i word) (fun _ => True) fun _ _ _ => False := by
    unfold Ideal.set
    split <;> exact trivial
  exact .of_faults (hfaults.eq_ok.mono (fun _ hset => set_filled hset.1 hword) fun _ _ _ h => h)

/-- A move of a slot that is there does not exit, and moves a word that fits. -/
theorem move_in_bounds (hwords : ∀ word ∈ p.frame, heights.Fits cnt word) {target source : Nat}
    (hsource : source < p.frame.length) :
    InBounds (p.move target source) (Filled heights cnt (target + 1) p) :=
  (get_in_bounds hsource).bind fun _ hword =>
    set_in_bounds p target (hwords _ (List.mem_of_getElem? hword))

/-- Neither does the loop of {lit}`BULKMOV` if its last source is there; an empty loop needs
none. -/
theorem bulkMove_in_bounds (hwords : ∀ word ∈ p.frame, heights.Fits cnt word) {a b turns : Nat}
    (hsource : turns ≠ 0 → b + i + turns ≤ p.frame.length) :
    InBounds (Ideal.bulkMove a b turns i p)
      (Filled heights cnt (if turns = 0 then 0 else a + i + turns) p) := by
  induction turns generalizing p i with
  | zero => exact Filled.refl p
  | succ turns ih =>
      have hroom := hsource (Nat.succ_ne_zero turns)
      refine (move_in_bounds hwords (by omega)).bind fun moved hmoved => ?_
      have hheight := hmoved.height
      have hbase : moved.base = p.base := by rw [hmoved.same]
      have hkept : ∀ word ∈ moved.frame, heights.Fits cnt word := by
        rw [Ideal.frame, hbase]
        exact hmoved.fits p.base (Nat.le_refl _) hwords
      refine (ih hkept (i := i + 1) (fun _ => by omega)).mono (fun p' hrest => ?_) fun _ _ _ h => h
      have htrans := hmoved.trans hrest
      rw [if_neg (Nat.succ_ne_zero turns)]
      refine ⟨htrans.same, ?_, htrans.fits⟩
      have := htrans.height
      split at this <;> omega

/-- Clearing slots never exits and leaves nil, which fits. -/
theorem clear_in_bounds (heights : Heights) (cnt : Nat) (p : Ideal) (turns i : Nat) :
    InBounds (Ideal.clear turns i p) (Filled heights cnt 0 p) := by
  induction turns generalizing p i with
  | zero => exact Filled.refl p
  | succ turns ih =>
      have hnil : heights.Fits cnt getNil := fits_getNil
      refine (set_in_bounds p i hnil).bind fun set hset => ?_
      refine (ih set (i + 1)).mono (fun p' hrest => ?_) fun _ _ _ h => h
      have htrans := hset.trans hrest
      exact ⟨htrans.same, by have := htrans.height; omega, htrans.fits⟩

end InBounds

/-! ## Printing -/

section Printing

variable {prog : Program} {p : Ideal}

/-- Printing an object can only fault if printing its fields can. -/
theorem printObject_faults {printField : Word → Outcome Ideal String}
    (hfield : ∀ word, Ends (printField word) (fun _ => True) fun _ _ _ => False) (slot : Word) :
    Ends (p.printObject prog printField slot) (fun _ => True) fun _ _ _ => False := by
  have hheader : Ends (p.header prog slot.toNat) (fun _ => True) fun _ _ _ => False := by
    unfold Ideal.header
    split
    · exact trivial
    · exact (orWild_faults _).bind fun _ _ => (orWild_faults _).bind fun _ _ => trivial
  have hload (i : Nat) : Ends (p.field prog slot.toNat i) (fun _ => True) fun _ _ _ => False := by
    unfold Ideal.field
    split
    · split <;> exact trivial
    · exact (orWild_faults _).bind fun _ _ => trivial
  refine hheader.bind ?_
  rintro ⟨cljtype, size⟩ _
  dsimp only
  -- the number of fields does not matter
  generalize List.range (fieldTurns size) = indices
  refine (Ends.mapM fun i _ => ?_).bind fun _ _ => trivial
  exact (hload i).bind fun word _ => hfield word

/-- Printing a slot can only fault, to every depth. -/
theorem printSlot_faults (depth : Nat) (slot : Word) :
    Ends (p.printSlot prog depth slot) (fun _ => True) fun _ _ _ => False := by
  induction depth generalizing slot with
  | zero => exact trivial
  | succ depth ih =>
      unfold Ideal.printSlot
      split
      · exact trivial
      · split
        · exact trivial
        · split
          · exact trivial
          · split
            · exact printObject_faults ih slot
            · split <;> exact trivial

/-- The text of a {lit}`println` can only fault. -/
theorem printlnSlot_faults (slot : Word) :
    Ends (p.printlnSlot prog slot) (fun _ => True) fun _ _ _ => False := by
  unfold Ideal.printlnSlot
  split
  · exact trivial
  · split
    · exact trivial
    · split
      · exact trivial
      · split
        · exact printObject_faults (printSlot_faults _) slot
        · split <;> exact trivial

/-- The loop over the slots can only fault. -/
theorem printSlotsFrom_faults (turns index : Nat) :
    Ends (Ideal.printSlotsFrom prog turns index p) (fun _ => True) fun _ _ _ => False := by
  induction turns generalizing index p with
  | zero => exact trivial
  | succ turns ih =>
      unfold Ideal.printSlotsFrom
      generalize (if p.base = index then p.print "| " else p) = p
      dsimp only
      split
      · refine (printSlot_faults _ _).bind fun text _ => ?_
        split
        · exact trivial
        · exact ih _
      · exact ih _

end Printing

/-! ## Instructions -/

section Instructions

variable {heights : Heights} {cnt n a b c : Nat} {d : BitVec 16} {p p' : Ideal} {word : Word}
    {prog : Program} {pc : BitVec 32}

/-- A turn that stays in its function and keeps the frame sound. -/
def StaysSound (heights : Heights) (cnt : Nat) (p p' : Ideal) : Prop :=
  p'.contexts.length = p.contexts.length ∧ p'.view.Sound heights cnt

/-- A frame that was written to is sound at any place that is content with its height. -/
theorem Filled.staysSound (h : Filled heights cnt n p p')
    (hwords : ∀ word ∈ p.frame, heights.Fits cnt word)
    (hglobals : ∀ name, heights.Fits cnt (p.globals name)) {pc : BitVec 32}
    (hpc : heights.Allows cnt pc (max n p.frame.length)) :
    StaysSound heights cnt p { p' with pc := pc } := by
  have hbase : p'.base = p.base := by rw [h.same]
  have hkept : p'.globals = p.globals := by rw [h.same]
  have hcontexts : p'.contexts = p.contexts := by rw [h.same]
  refine ⟨congrArg List.length hcontexts, ⟨hpc.1, Nat.le_trans hpc.2 h.height⟩, ?_, ?_⟩
  · change ∀ word ∈ p'.words.drop p'.base, heights.Fits cnt word
    rw [hbase]
    exact h.fits p.base (Nat.le_refl _) hwords
  · change ∀ name, heights.Fits cnt (p'.globals name)
    rw [hkept]
    exact hglobals

variable (hp : p.view.Sound heights cnt)
include hp

/-- The frame stays as it is. -/
theorem View.Sound.keeps {out : List String} {objects : List Object} {reserves : Nat}
    (hpc : heights.Allows cnt pc p.frame.length) :
    StaysSound heights cnt p
      { p with pc := pc, out := out, objects := objects, reserves := reserves } :=
  ⟨rfl, hpc, hp.words, hp.globals⟩

/-- An instruction that writes one word and goes on, if the next one allows the new height. -/
theorem put_in_bounds (hword : heights.Fits cnt word)
    (hnext : heights.Allows cnt (p.pc + 1) (max (a + 1) p.frame.length)) :
    InBounds (p.put a word) (StaysSound heights cnt p) := by
  refine (set_in_bounds p a hword).bind fun set hset => ?_
  have hpc : set.pc = p.pc := by rw [hset.same]
  rw [← hpc] at hnext
  exact hset.staysSound hp.words hp.globals hnext

/-- The result of an operation on integers is written, if the next instruction allows the new
height. -/
theorem setInt_in_bounds (result : Option (BitVec 32))
    (hnext : heights.Allows cnt (p.pc + 1) (max (a + 1) p.frame.length)) :
    InBounds (do let p ← p.setInt a result; return p.next) (StaysSound heights cnt p) := by
  cases result with
  | none => exact trivial
  | some num => exact put_in_bounds hp (fits_toSmallInt num) hnext

/-- An arithmetic instruction, which may write nothing: the next one has to allow the old
height. -/
theorem arith_in_bounds (int : BitVec 32 → BitVec 32 → Option (BitVec 32))
    (hsource : max b c < p.frame.length)
    (hnext : heights.Allows cnt (p.pc + 1) p.frame.length) :
    InBounds (p.arith int a b c) (StaysSound heights cnt p) := by
  refine (get_in_bounds (by omega)).bind fun x _ => ?_
  refine (get_in_bounds (by omega)).bind fun y _ => ?_
  split
  · exact setInt_in_bounds hp _ ⟨hnext.1, by have := hnext.2; omega⟩
  · split
    · exact trivial
    · exact hp.keeps hnext

/-- The remainder finds both operands, and writes its slot or exits with a text of its own. -/
theorem modulo_in_bounds (hsource : max b c < p.frame.length)
    (hnext : heights.Allows cnt (p.pc + 1) (max (a + 1) p.frame.length)) :
    InBounds (p.modulo a b c) (StaysSound heights cnt p) := by
  refine (get_in_bounds (by omega)).bind fun x _ => ?_
  refine (get_in_bounds (by omega)).bind fun y _ => ?_
  split
  · exact setInt_in_bounds hp _ hnext
  · exact ne_boundsText (by decide)

/-- The comparison finds both operands. -/
theorem isEqual_in_bounds (hsource : max b c < p.frame.length)
    (hnext : heights.Allows cnt (p.pc + 1) (max (a + 1) p.frame.length)) :
    InBounds (p.isEqual a b c) (StaysSound heights cnt p) := by
  refine (get_in_bounds (by omega)).bind fun x _ => ?_
  refine (get_in_bounds (by omega)).bind fun y _ => ?_
  split
  · have hword : heights.Fits cnt (toBool (getSmallInt x == getSmallInt y)) :=
      fits_of_not_isFnew (isFnew_toBool _)
    refine (set_in_bounds p.next a hword).mono (fun p' hset => ?_) fun _ _ _ h => h
    have hpc : p'.pc = p.pc + 1 := by rw [hset.same]; rfl
    rw [← hpc] at hnext
    exact hset.staysSound hp.words hp.globals hnext
  · split
    · exact trivial
    · exact ne_boundsText (by decide)

/-- The instruction {lit}`MOV` finds its source. -/
theorem move_stays (hsource : d.toNat < p.frame.length)
    (hnext : heights.Allows cnt (p.pc + 1) (max (a + 1) p.frame.length)) :
    InBounds (do let p ← p.move a d.toNat; return p.next) (StaysSound heights cnt p) := by
  refine (move_in_bounds hp.words hsource).bind fun moved hmoved => ?_
  have hpc : moved.pc = p.pc := by rw [hmoved.same]
  rw [← hpc] at hnext
  exact hmoved.staysSound hp.words hp.globals hnext

/-- The instruction {lit}`BULKMOV` finds all its sources, and grows the frame only if there are
any. -/
theorem bulkmov_stays (hsource : b + c ≤ p.frame.length)
    (hnext : heights.Allows cnt (p.pc + 1)
      (if c = 0 then p.frame.length else max (a + c) p.frame.length)) :
    InBounds (do let p ← Ideal.bulkMove a b c 0 p; return p.next) (StaysSound heights cnt p) := by
  refine (bulkMove_in_bounds hp.words fun _ => hsource).bind fun moved hmoved => ?_
  have hpc : moved.pc = p.pc := by rw [hmoved.same]
  rw [← hpc] at hnext
  refine hmoved.staysSound hp.words hp.globals ⟨hnext.1, Nat.le_trans hnext.2 ?_⟩
  split <;> omega

/-- A conditional jump finds its slot, and both targets allow the height. -/
theorem branch_in_bounds (test : Word → Bool) (lines : Nat) (hsource : a < p.frame.length)
    (hnext : heights.Allows cnt (p.pc + 1) p.frame.length)
    (htarget : heights.Allows cnt (p.pc + d.signExtend 32) p.frame.length) :
    InBounds (p.branch test lines a d) (StaysSound heights cnt p) := by
  refine (get_in_bounds hsource).bind fun slot _ => ?_
  dsimp only
  split
  · exact hp.keeps htarget
  · exact hp.keeps hnext

/-- The instruction {lit}`NSSET` finds its slot and binds a word that fits. -/
theorem nsset_in_bounds (hsource : a < p.frame.length)
    (hnext : heights.Allows cnt (p.pc + 1) p.frame.length) :
    InBounds (p.execute prog (some .nsset) a b c d) (StaysSound heights cnt p) := by
  refine (get_in_bounds hsource).bind fun value hvalue => ?_
  refine (InBounds.of_faults (orWild_faults (prog.name d))).bind fun name _ => ?_
  refine ⟨rfl, hnext, hp.words, fun key => ?_⟩
  change heights.Fits cnt (Function.update p.globals name value key)
  by_cases hkey : key = name
  · rw [hkey, Function.update_self]
    exact hp.words value (List.mem_of_getElem? hvalue)
  · rw [Function.update_of_ne hkey]
    exact hp.globals key

/-- The instruction {lit}`ALLOC` finds the slot it reads. -/
theorem alloc_in_bounds (hsource : a < p.frame.length)
    (hnext : heights.Allows cnt (p.pc + 1) p.frame.length) :
    InBounds (p.execute prog (some .alloc) a b c d) (StaysSound heights cnt p) := by
  refine (InBounds.of_faults (orWild_faults (prog.type d))).bind fun record _ => ?_
  refine (get_in_bounds hsource).bind fun slot _ => ?_
  unfold Ideal.allocate
  split
  · change StaysSound heights cnt p (Ideal.next (if _ then _ else _))
    split
    · exact hp.keeps hnext
    · exact hp.keeps hnext
  · exact trivial

/-- The instruction {lit}`SETFIELD` finds its object and its value. -/
theorem setfield_in_bounds (hsource : max a c < p.frame.length)
    (hnext : heights.Allows cnt (p.pc + 1) p.frame.length) :
    InBounds (p.execute prog (some .setfield) a b c d) (StaysSound heights cnt p) := by
  refine (get_in_bounds (show a < p.frame.length by omega)).bind fun obj _ => ?_
  refine (get_in_bounds (show c < p.frame.length by omega)).bind fun value _ => ?_
  unfold Ideal.setField
  split
  · split
    · exact hp.keeps hnext
    · exact trivial
  · exact trivial

end Instructions

/-! ## Calls and returns -/

section Calls

variable {heights : Heights} {cnt a : Nat} {p p' : Ideal} {prog : Program}

/-- The frame of the caller is the running one again, and what a builtin did to the words of
its own frame is all that has changed. -/
structure CameBack (heights : Heights) (cnt : Nat) (contexts : List Context) (base : Nat)
    (p p' : Ideal) : Prop where
  pc : p'.pc = p.pc + 1
  base : p'.base = base
  contexts : p'.contexts = contexts
  globals : p'.globals = p.globals
  height : p.frame.length ≤ (p'.words.drop p.base).length
  fits : ∀ k ≤ p.base, (∀ word ∈ p.words.drop k, heights.Fits cnt word) →
    ∀ word ∈ p'.words.drop k, heights.Fits cnt word

/-- An open call is left without an exit. -/
theorem leave_in_bounds {contexts : List Context} {caller : Context}
    (h : p.contexts = contexts ++ [caller]) :
    InBounds p.leave fun p' =>
      p' = { p with base := caller.baseSlot, ip := caller.ip, contexts := contexts } := by
  unfold Ideal.leave
  rw [h, List.getLast?_concat, List.dropLast_concat]
  exact rfl

/-- A builtin finds its argument and comes back. -/
theorem callBuiltin_in_bounds (heights : Heights) (cnt : Nat) {contexts : List Context}
    {caller : Context} (hcontexts : p.contexts = contexts ++ [caller])
    (hsource : 2 < p.frame.length) (fn : Word) (localbase : Nat) :
    InBounds (p.callBuiltin prog fn localbase)
      (CameBack heights cnt contexts caller.baseSlot p) := by
  unfold Ideal.callBuiltin
  split
  · refine (get_in_bounds hsource).bind fun slot _ => ?_
    refine (InBounds.of_faults (printlnSlot_faults slot)).bind fun text _ => ?_
    have hnil : heights.Fits cnt getNil := fits_getNil
    refine (set_in_bounds ((p.print text).print "\n") 0 hnil).bind fun set hset => ?_
    refine (clear_in_bounds heights cnt set _ _).bind fun cleared hcleared => ?_
    have hfilled := hset.trans hcleared
    have hbase : cleared.base = p.base := by rw [hfilled.same]; rfl
    have hpc : cleared.pc = p.pc := by rw [hfilled.same]; rfl
    have hglobals : cleared.globals = p.globals := by rw [hfilled.same]; rfl
    have hlast : cleared.contexts = contexts ++ [caller] := by rw [hfilled.same]; exact hcontexts
    refine (leave_in_bounds hlast).bind ?_
    rintro left rfl
    refine ⟨congrArg (· + 1) hpc, rfl, rfl, hglobals, ?_, hfilled.fits⟩
    have hheight := hfilled.height
    rw [Ideal.frame, Ideal.frame, hbase] at hheight
    exact Nat.le_trans (Nat.le_max_right _ _) hheight
  · exact trivial

/-- Entering a function never exits and leaves the words as they are. -/
theorem enter_in_bounds (p : Ideal) (localbase : Nat) (func : BitVec 16) :
    InBounds (p.enter localbase func) fun p' => p'.pc = p.pc ∧ p'.base = p.base + localbase ∧
      p'.contexts = p.contexts ++ [⟨p.base, p.ip⟩] ∧ p'.globals = p.globals ∧
      p'.words = p.words := by
  unfold Ideal.enter
  split
  · exact ⟨rfl, rfl, rfl, rfl, rfl⟩
  · exact trivial

/-- A builtin is back again, and a function is known. -/
theorem call_in_bounds (hp : p.view.Sound heights cnt) (ha : a + 3 ≤ p.frame.length)
    (hnext : heights.Allows cnt (p.pc + 1) p.frame.length) :
    InBounds (p.call prog a) fun p' => ∃ fn func, p.frame[a + 1]? = some fn ∧
      calledFunc fn = some func ∧ (func = 0#16 → StaysSound heights cnt p p') := by
  have hback : heights.Fits cnt (toSmallInt p.pc) := fits_toSmallInt p.pc
  refine (set_in_bounds p a hback).eq_ok.bind fun stored hset => ?_
  rcases hset with ⟨hset, hfilled⟩
  have hframe := Ideal.set_frame hset
  have hheight := hfilled.height
  have hbase : stored.base = p.base := by rw [hfilled.same]
  have hpc : stored.pc = p.pc := by rw [hfilled.same]
  have hglobals : stored.globals = p.globals := by rw [hfilled.same]
  have hcontexts : stored.contexts = p.contexts := by rw [hfilled.same]
  have hwords := hfilled.fits p.base (Nat.le_refl _) hp.words
  refine (get_in_bounds (show a + 1 < stored.frame.length by omega)).bind fun fn hfn => ?_
  rw [hframe, getElem?_assign_of_lt _ _ _ (Nat.lt_succ_self a)] at hfn
  cases hfunc : calledFunc fn with
  | none =>
      refine (InBounds.of_faults (printSlotsFrom_faults _ _)).bind fun _ _ => ?_
      exact ne_boundsText (by decide)
  | some func =>
      refine (enter_in_bounds stored a func).bind fun entered hentered => ?_
      rcases hentered with ⟨hepc, hebase, hecontexts, heglobals, hewords⟩
      rw [hpc] at hepc
      rw [hbase] at hebase hecontexts
      have hlength : stored.frame.length = entered.words.length - p.base := by
        rw [Ideal.frame, hbase, hewords, List.length_drop]
      have hinner : entered.frame.length = entered.words.length - (p.base + a) := by
        rw [Ideal.frame, hebase, List.length_drop]
      split
      · refine (callBuiltin_in_bounds heights cnt hecontexts (by omega) fn a).mono
          (fun p' hback => ?_) fun _ _ _ h => h
        have hsame : p'.base = p.base := hback.base
        refine ⟨fn, func, hfn, hfunc, fun _ => ⟨?_, ⟨?_, ?_⟩, ?_, ?_⟩⟩
        · rw [hback.contexts, hcontexts]
        · change p'.pc.toNat < cnt
          rw [hback.pc, hepc]
          exact hnext.1
        · change heights.front p'.pc ≤ (p'.words.drop p'.base).length
          have hgrown := hback.height
          rw [hebase, List.length_drop] at hgrown
          rw [hback.pc, hepc, hsame, List.length_drop]
          have := hnext.2
          omega
        · change ∀ word ∈ p'.words.drop p'.base, heights.Fits cnt word
          rw [hsame]
          refine hback.fits p.base (by omega) ?_
          rw [hewords]
          exact hwords
        · change ∀ name, heights.Fits cnt (p'.globals name)
          rw [hback.globals, heglobals, hglobals]
          exact hp.globals
      · next hne => exact ⟨fn, func, hfn, hfunc, fun hzero => absurd hzero hne⟩

/-- A return finds its operands. -/
theorem ret_in_bounds (hp : p.view.Sound heights cnt) (ha : a < p.frame.length) :
    InBounds (p.ret a) fun _ => True := by
  refine (get_in_bounds (show 0 < p.frame.length by omega)).bind fun slot _ => ?_
  refine (move_in_bounds hp.words ha).bind fun moved _ => ?_
  unfold Ideal.leave
  split
  · exact trivial
  · exact ne_boundsText (by decide)

end Calls

/-! ## Turns of the machine -/

section Turns

variable {heights : Heights} {top cnt : Nat} {p p' : Ideal} {prog : Program}

/-- More slots in front of an instruction leave no fewer behind it. -/
theorem leavesSlots_mono (inst : Decoded) (returned : Nat) {n m : Nat} (h : n ≤ m) :
    inst.leavesSlots returned n ≤ inst.leavesSlots returned m := by
  unfold Decoded.leavesSlots
  split <;> (try split) <;> omega

/-- An instruction that neither calls nor returns finds its operands and keeps the frame
sound. -/
theorem stays_in_bounds (hprog : prog.Checked top cnt) (hp : p.view.Sound heights cnt)
    {inst : Decoded} (hcheck : inst.Checked top cnt p.pc)
    (hslots : inst.SlotsChecked heights p.pc) (hcall : inst.op ≠ some .call)
    (hret : inst.op ≠ some .ret) :
    InBounds (p.execute prog inst.op inst.a inst.b inst.c inst.d) (StaysSound heights cnt p) := by
  rcases hcheck with ⟨_, hfalls, hjumps, hfnew, hgetfield⟩
  rcases hslots with ⟨hneeds, hheight, hlower, _, _, hentered⟩
  have hheights : heights.front p.pc ≤ p.frame.length := hp.pc.2
  have hneeds' := Nat.le_trans hneeds hheights
  have hnext (hop : neverFalls inst.op = false) : heights.Allows cnt (p.pc + 1)
      (inst.leavesSlots heights.returned p.frame.length) :=
    ⟨(hfalls hop).1, Nat.le_trans (hheight hop) (leavesSlots_mono inst _ hheights)⟩
  have htarget (hop : isJump inst.op = true) :
      heights.Allows cnt (p.pc + inst.d.signExtend 32) p.frame.length :=
    ⟨(hjumps hop).1, Nat.le_trans (hlower hop) hheights⟩
  clear hneeds hheight hlower hfalls hjumps
  rcases inst with ⟨op, a, b, c, d⟩
  dsimp only at *
  cases op with
  | none => exact hp.keeps (hnext rfl)
  | some op =>
      cases op with
      | getfield => exact absurd rfl hgetfield
      | call => exact absurd rfl hcall
      | ret => exact absurd rfl hret
      | cstr | cshort => exact put_in_bounds hp (fits_toSmallInt _) (hnext rfl)
      | ckey =>
          refine (InBounds.of_faults (orWild_faults (prog.key d))).eq_ok.bind fun key hkey => ?_
          refine put_in_bounds hp (fits_of_not_isFnew ?_) (hnext rfl)
          exact hprog.key d key (orWild_eq_ok hkey.1)
      | ctype => exact put_in_bounds hp (fits_of_not_isFnew (isFnew_toType _)) (hnext rfl)
      | cbool => exact put_in_bounds hp (fits_of_not_isFnew (isFnew_toBool _)) (hnext rfl)
      | cnil => exact put_in_bounds hp fits_getNil (hnext rfl)
      | fnew =>
          refine put_in_bounds hp (fun _ => ?_) (hnext rfl)
          rw [getFnew_toFnew]
          refine ⟨?_, hentered rfl⟩
          have hwidth := (hfnew rfl).2
          have := d.isLt
          rw [BitVec.toNat_setWidth]
          omega
      | nsset => exact nsset_in_bounds hp hneeds' (hnext rfl)
      | nsget =>
          refine (InBounds.of_faults (orWild_faults (prog.name d))).bind fun name _ => ?_
          exact put_in_bounds hp (hp.globals name) (hnext rfl)
      | addvv | subvv | mulvv | divvv => exact arith_in_bounds hp _ hneeds' (hnext rfl)
      | modvv => exact modulo_in_bounds hp hneeds' (hnext rfl)
      | iseq => exact isEqual_in_bounds hp hneeds' (hnext rfl)
      | mov => exact move_stays hp hneeds' (hnext rfl)
      | bulkmov => exact bulkmov_stays hp hneeds' (hnext rfl)
      | jump => exact hp.keeps (htarget rfl)
      | jumpf => exact branch_in_bounds hp isFalsy 1 hneeds' (hnext rfl) (htarget rfl)
      | jumpt => exact branch_in_bounds hp isTruthy 2 hneeds' (hnext rfl) (htarget rfl)
      | loop => exact hp.keeps hp.pc
      | alloc => exact alloc_in_bounds hp hneeds' (hnext rfl)
      | setfield => exact setfield_in_bounds hp hneeds' (hnext rfl)
      | exit => exact fun index size h => by cases h
      | cint | cfloat | setf | powvv | islt | isge | isle | isgt | isneq | not | neg | apply
      | vfnew | getfreevar | uclo | newarray | getarray | setarray | funcf | funcv | «break»
      | drop | tranc => exact hp.keeps (hnext rfl)

section Frames

variable {a : Nat} {fn : Word} {func : BitVec 16}

/-- The function that is called is entered with a sound frame. -/
theorem called_sound (hp : p.view.Sound heights cnt) (ha : a + heights.entered ≤ p.frame.length)
    (hfn : p.frame[a + 1]? = some fn) (hfunc : calledFunc fn = some func) (hne : func ≠ 0#16) :
    (p.view.called a func).Sound heights cnt := by
  rcases of_calledFunc hfunc hne with ⟨hfnew, rfl⟩
  have hallows := hp.words fn (List.mem_of_getElem? hfn) hfnew
  refine ⟨⟨hallows.1, Nat.le_trans hallows.2 ?_⟩, fun word hword => ?_, hp.globals⟩
  · change _ ≤ ((assign 0#64 p.frame a _).drop a).length
    rw [List.length_drop, length_assign]
    omega
  · rcases mem_of_mem_assign (List.mem_of_mem_drop hword) with rfl | hword | rfl
    · exact fits_toSmallInt _
    · exact hp.words word hword
    · exact fits_getNil

/-- The frame of the caller is sound when the function has returned. -/
theorem resumed_sound (hp : p.view.Sound heights cnt)
    (hnext : heights.Allows cnt (p.pc + 1) (a + heights.returned)) {r : Returned}
    (hreturned : heights.returned ≤ r.words.length)
    (hwords : ∀ word ∈ r.words, heights.Fits cnt word)
    (hglobals : ∀ name, heights.Fits cnt (r.globals name)) :
    (p.view.resumed a r).Sound heights cnt := by
  refine ⟨⟨hnext.1, Nat.le_trans hnext.2 ?_⟩, fun word hword => ?_, hglobals⟩
  · change _ ≤ ((assign 0#64 p.frame a _).take a ++ r.words).length
    rw [List.length_append, List.length_take, length_assign]
    omega
  · rcases List.mem_append.mp hword with hword | hword
    · rcases mem_of_mem_assign (List.mem_of_mem_take hword) with rfl | hword | rfl
      · exact fits_toSmallInt _
      · exact hp.words word hword
      · exact fits_getNil
    · exact hwords word hword

end Frames

/-- Every instruction finds its operands and keeps the contract. -/
theorem execute_in_bounds (hprog : prog.Checked top cnt) (hslots : prog.SlotsChecked heights cnt)
    (hp : p.view.Sound heights cnt) {inst : Decoded} (hinst : prog.code p.pc = some inst)
    (hcheck : inst.Checked top cnt p.pc) (entry : View) :
    InBounds (p.execute prog inst.op inst.a inst.b inst.c inst.d) fun p' =>
      Annotation.Kept (slotContracts heights cnt) entry p p' := by
  have hchecks := hslots.code p.pc inst hp.pc.1 hinst
  have hheights : heights.front p.pc ≤ p.frame.length := hp.pc.2
  have hthree := hslots.entered
  have hreturned := hslots.returned
  by_cases hcall : inst.op = some .call
  · rcases hcheck with ⟨_, hfalls, _⟩
    rcases hchecks with ⟨_, hheight, _, hentered, _⟩
    have hroom := hentered hcall
    rw [hcall] at hfalls hheight
    have hback : heights.Allows cnt (p.pc + 1) (inst.a + heights.returned) := by
      refine ⟨(hfalls rfl).1, ?_⟩
      have hleaves := hheight rfl
      rwa [Decoded.leavesSlots, hcall] at hleaves
    rw [hcall]
    refine (call_in_bounds hp (by omega) ⟨hback.1, ?_⟩).eq_ok.mono (fun p' hcalled => ?_)
      fun _ _ _ h => h
    · have := hback.2
      omega
    · rcases hcalled with ⟨hok, fn, func, hfn, hfunc, hbuiltin⟩
      by_cases hzero : func = 0#16
      · exact .stays (hbuiltin hzero).1 (hbuiltin hzero).2
      · refine .call hok hfn hfunc hzero (called_sound hp (by omega) hfn hfunc hzero) ?_
        exact fun r hpost => resumed_sound hp hback hpost.1 hpost.2.1 hpost.2.2
  · by_cases hret : inst.op = some .ret
    · rcases hchecks with ⟨hneeds, _, _, _, hhands, _⟩
      rw [Decoded.needs, hret] at hneeds
      have ha : inst.a < p.frame.length := Nat.lt_of_lt_of_le hneeds hheights
      have hroom := hhands hret
      rw [hret]
      refine (ret_in_bounds hp ha).eq_ok.mono (fun p' hok => ?_) fun _ _ _ h => h
      have hword := List.getElem?_eq_getElem ha
      refine .ret hok.1 hword ⟨?_, fun word hmem => ?_, hp.globals⟩
      · change _ ≤ ((assign 0#64 p.frame 0 _).take inst.a).length
        rw [List.length_take, length_assign]
        omega
      · rcases mem_of_mem_assign (List.mem_of_mem_take hmem) with rfl | hmem | rfl
        · exact hp.words _ (List.getElem_mem ha)
        · exact hp.words word hmem
        · exact fits_getNil
    · have hchecks := hslots.code p.pc inst hp.pc.1 hinst
      exact (stays_in_bounds hprog hp hcheck hchecks hcall hret).mono
        (fun p' h => .stays h.1 h.2) fun _ _ _ h => h

/-- A turn of a checked program does not exit at a slot behind the last one, and keeps the
contract of the functions. -/
theorem step_in_bounds (hprog : prog.Checked top cnt) (hslots : prog.SlotsChecked heights cnt)
    (hp : p.view.Sound heights cnt) (entry : View) :
    InBounds (p.step prog) fun p' =>
      Annotation.Kept (slotContracts heights cnt) entry p p' := by
  rcases hprog.code p.pc hp.pc.1 with ⟨inst, hinst, hcheck⟩
  unfold Ideal.step
  rw [hinst]
  exact execute_in_bounds hprog hslots hp hinst hcheck entry

/-- A program that passes the check keeps the contract. -/
theorem slotContracts_verified (hprog : prog.Checked top cnt)
    (hslots : prog.SlotsChecked heights cnt) :
    (slotContracts heights cnt).Verified (functions prog) :=
  verified_of_kept (fun _ h => h) fun entry _ _ hp hok =>
    (step_in_bounds hprog hslots hp entry).ok hok

end Turns

/-! ## Checked files -/

/-- A file passes the check with heights for its instructions. -/
def SlotsChecked (host : Host) (heights : Heights) : Prop :=
  heights.front 0 = 0 ∧ 3 ≤ heights.entered ∧ heights.returned ≤ heights.entered ∧
    ∀ k < (loadfile host).instrCnt,
      ∀ inst ∈ (host.program (loadfile host)).code (.ofNat 32 k),
        inst.SlotsChecked heights (.ofNat 32 k)

instance (host : Host) (heights : Heights) : Decidable (SlotsChecked host heights) :=
  inferInstanceAs (Decidable (_ ∧ _))

/-- The check of the file is the check of its program. -/
theorem SlotsChecked.program {host : Host} {heights : Heights} (h : SlotsChecked host heights) :
    (host.program (loadfile host)).SlotsChecked heights (loadfile host).instrCnt where
  start := h.1
  entered := h.2.1
  returned := h.2.2.1
  code pc inst hpc hinst := by
    have hchecked := h.2.2.2 pc.toNat hpc inst
    rw [BitVec.ofNat_toNat, BitVec.setWidth_eq] at hchecked
    exact hchecked hinst

section Runs

variable {host : Host} {top : Nat} {heights : Heights} {vm vm' : VM}

/-- The run begins with no slots, and the first instruction needs none. -/
theorem init_sound (hchecked : Checked host top) (hslots : SlotsChecked host heights) :
    (Ideal.init (host.program (loadfile host))).view.Sound heights (loadfile host).instrCnt := by
  refine ⟨⟨hchecked.2.1, Nat.le_of_eq hslots.1⟩, fun word hword => absurd hword List.not_mem_nil,
    fun name => ?_⟩
  exact fits_of_not_isFnew (isFnew_globals_init (println_lt host _) name)

/-- All reachable states are sound: they are kept by the turns of every function. -/
theorem Reachable.sound (hchecked : Checked host top) (hslots : SlotsChecked host heights)
    (h : Reachable host (loadfile host) vm) :
    vm.ideal.view.Sound heights (loadfile host).instrCnt := by
  rcases h.exists_promised hchecked (slotContracts_verified hchecked.program hslots.program)
    (init_sound hchecked hslots) with ⟨calls, hpromised⟩
  exact hpromised.honoured.holds

/-- No run of a program that passes the checks ends at a slot behind the last one: the running
frame always has as many slots as the heights say, and a run that exits does not exit with the
message of an index out of bounds. -/
theorem slots_in_bounds (hchecked : Checked host top) (hslots : SlotsChecked host heights) :
    (∀ vm, Reachable host (loadfile host) vm →
      heights.front vm.pc ≤ vm.words.length - vm.base) ∧
      ∀ n status vm printed, run host (loadfile host) n (vmInit host) =
        .error (.exit status vm printed) →
          ∀ index size, printed ≠ [Ideal.boundsText index size] := by
  refine ⟨fun vm h => ?_, fun n status vm printed hrun => ?_⟩
  · have hheight := (h.sound hchecked hslots).pc.2
    change _ ≤ (vm.words.drop vm.base).length at hheight
    rwa [List.length_drop] at hheight
  · rw [run_eq_steps] at hrun
    rcases steps_error (fun _ _ h hok => Reachable.step h hok) Reachable.init hrun with
      ⟨last, hlast, hexit⟩
    have hturn := hlast.inOrder.refines.stepAt (loadfile host)
    rw [stepAt_zero, hexit] at hturn
    have hsound := hlast.sound hchecked hslots
    exact (step_in_bounds hchecked.program hslots.program hsound last.ideal.view).exit
      hturn.eq_ideal.symm

end Runs

/-! ## A program of the repository -/

/-- The heights of its instructions, counted by hand along the code. -/
def functionRetTruncHeights : Heights where
  front pc := [0, 2, 4, 5, 5, 3, 3, 3, 4, 5, 5, 3, 3, 4, 5, 5].getD pc.toNat 0
  entered := 3
  returned := 3

/-- The functions of {lit}`function-ret-trunc.cvmb` find all of their slots, also behind the
returns that cut the slots off. -/
theorem functionRetTrunc_slots :
    (∀ vm, Reachable functionRetTruncHost (loadfile functionRetTruncHost) vm →
      functionRetTruncHeights.front vm.pc ≤ vm.words.length - vm.base) ∧
      ∀ n status vm printed, run functionRetTruncHost (loadfile functionRetTruncHost) n
          (vmInit functionRetTruncHost) = .error (.exit status vm printed) →
        ∀ index size, printed ≠ [Ideal.boundsText index size] :=
  slots_in_bounds functionRetTrunc_checked (by decide +kernel)

end ClojitCvm
