import ClojitCvm.Machine.IdealRuns
import ClojitCvm.Machine.KeywordConstants
import ClojitCvm.Machine.ProgramCounter

/-!
# Checked programs

Nothing in the machine keeps a program inside its instructions: jumps go anywhere, a return
goes where slot zero says, and a call goes where a slot says.  A check of the instructions,
one after the other and before the run, is enough to rule this out.  It tells the
instructions in front, which run outside of all functions and can use slot zero, from those
of the functions behind them.

Main results:

- Definition {lit}`Checked`: the check of all instructions of a file.
- Theorem {lit}`checked_stays_inside`: every state of a run of a checked program has an
  instruction of the program to execute.
- Theorem {lit}`checked_returns`: every return of a checked program goes behind the call that
  is the last one of a list kept beside the run.
-/

namespace ClojitCvm

open ByteMemory CellArray LockStep Slot

/-! ## The check of an instruction -/

/-- The instructions that write slot A of the running frame, or start a frame there. -/
def fillsSlot : Option Opcode → Bool
  | some op => op ∈ [.cstr, .ckey, .ctype, .cbool, .cnil, .cshort, .fnew, .nsget, .addvv, .subvv,
      .mulvv, .divvv, .modvv, .iseq, .mov, .bulkmov, .call]
  | none => false

/-- The instructions that never go on to the next one. -/
def neverFalls : Option Opcode → Bool
  | some op => op ∈ [.jump, .ret, .loop, .exit]
  | none => false

/-- Two places are in front of the functions, or both in them. -/
def SameSide (top cnt : Nat) (pc pc' : BitVec 32) : Prop :=
  pc'.toNat < cnt ∧ (pc'.toNat < top ↔ pc.toNat < top)

instance (top cnt : Nat) (pc pc' : BitVec 32) : Decidable (SameSide top cnt pc pc') :=
  inferInstanceAs (Decidable (_ ∧ _))

/-- An instruction of a program whose functions are between {lit}`top` and {lit}`cnt` keeps
slot zero of a function, stays on its side, makes functions of the program only, and loads
no field. -/
def Decoded.Checked (top cnt : Nat) (pc : BitVec 32) (inst : Decoded) : Prop :=
  (fillsSlot inst.op = true → pc.toNat < top ∨ 1 ≤ inst.a) ∧
    (neverFalls inst.op = false → SameSide top cnt pc (pc + 1)) ∧
    (isJump inst.op = true → SameSide top cnt pc (pc + inst.d.signExtend 32)) ∧
    (inst.op = some .fnew → top ≤ inst.d.toNat ∧ inst.d.toNat < cnt) ∧
    inst.op ≠ some .getfield

instance (top cnt : Nat) (pc : BitVec 32) (inst : Decoded) :
    Decidable (inst.Checked top cnt pc) :=
  inferInstanceAs (Decidable (_ ∧ _))

/-- All instructions are there and pass the check, and no string lies where a function tag
could be. -/
structure Program.Checked (prog : Program) (top cnt : Nat) : Prop where
  code : ∀ pc : BitVec 32, pc.toNat < cnt → ∃ inst, prog.code pc = some inst ∧
    inst.Checked top cnt pc
  key : ∀ d key, prog.key d = some key → isFnew (.ofNat 64 key) = false

/-! ## What a run of a checked program keeps -/

/-- A function is one of the program. -/
def Aimed (top cnt : Nat) (word : Word) : Prop :=
  isFnew word = true → top ≤ (getFnew word).toNat ∧ (getFnew word).toNat < cnt

/-- A place in front of the functions when no call is open, and in them otherwise. -/
def Inside (top cnt : Nat) (calls : List (BitVec 32)) (pc : BitVec 32) : Prop :=
  pc.toNat < cnt ∧ (pc.toNat < top ↔ calls = [])

/-- The slot a frame starts at has the address of the call that started it, down to the
outermost frame.  The frames and the calls are listed from the innermost one on. -/
inductive Linked (prog : Program) (top cnt : Nat) (words : List Word) :
    List (BitVec 32) → List Nat → Prop
  | outermost {base : Nat} : Linked prog top cnt words [] [base]
  | call {pc : BitVec 32} {inst : Decoded} {base : Nat} {calls : List (BitVec 32)}
      {bases : List Nat} (hinst : prog.code pc = some inst) (hop : inst.op = some .call)
      (ha : calls ≠ [] → 1 ≤ inst.a) (hback : Inside top cnt calls (pc + 1))
      (hword : words[base + inst.a]? = some (toSmallInt pc))
      (hrest : Linked prog top cnt words calls (base :: bases)) :
      Linked prog top cnt words (pc :: calls) ((base + inst.a) :: base :: bases)

/-- Where the frames start, from the innermost one on. -/
def Ideal.bases (p : Ideal) : List Nat :=
  p.base :: (p.contexts.map Context.baseSlot).reverse

/-- Slots and globals have functions of the program only. -/
structure Ideal.Aimed (top cnt : Nat) (p : Ideal) : Prop where
  words : ∀ word ∈ p.words, ClojitCvm.Aimed top cnt word
  globals : ∀ name, ClojitCvm.Aimed top cnt (p.globals name)

/-- The frames are linked to the calls that have not returned. -/
structure Controlled (prog : Program) (top cnt : Nat) (calls : List (BitVec 32)) (p : Ideal) :
    Prop extends p.Aimed top cnt where
  linked : Linked prog top cnt p.words calls p.bases

/-- The frames below the running one, if there are some, are linked to calls. -/
structure Unwinding (prog : Program) (top cnt : Nat) (calls : List (BitVec 32)) (p : Ideal) :
    Prop extends p.Aimed top cnt where
  linked : p.bases.tail = [] ∨ Linked prog top cnt p.words calls p.bases.tail
  below : calls ≠ [] → ∀ base ∈ p.bases.tail.head?, base < p.base

/-! ## Linked frames -/

namespace Linked

variable {prog : Program} {top cnt : Nat} {words words' : List Word} {calls : List (BitVec 32)}
    {base : Nat} {bases : List Nat}

/-- The innermost frame and the call that started it. -/
theorem of_cons {pc : BitVec 32} (h : Linked prog top cnt words (pc :: calls) (base :: bases)) :
    (∃ inst caller, prog.code pc = some inst ∧ inst.op = some .call ∧
      bases.head? = some caller ∧ base = caller + inst.a ∧ (calls ≠ [] → 1 ≤ inst.a)) ∧
      words[base]? = some (toSmallInt pc) ∧ Inside top cnt calls (pc + 1) ∧
      Linked prog top cnt words calls bases := by
  cases h with
  | call hinst hop ha hback hword hrest =>
      exact ⟨⟨_, _, hinst, hop, rfl, rfl, ha⟩, hword, hback, hrest⟩

/-- With no call open there is one frame. -/
theorem of_nil (h : Linked prog top cnt words [] (base :: bases)) : bases = [] := by
  cases h
  rfl

/-- Every call that has not returned has a frame behind that of the caller. -/
theorem length_bases {bases : List Nat} (h : Linked prog top cnt words calls bases) :
    bases.length = calls.length + 1 := by
  induction h with
  | outermost => rfl
  | call _ _ _ _ _ _ ih => rw [List.length_cons, ih, List.length_cons]

/-- Words up to the innermost frame's start stay, if it has a return address. -/
theorem congr (h : Linked prog top cnt words calls (base :: bases))
    (hkept : calls ≠ [] → ∀ i ≤ base, ∀ word, words[i]? = some word → words'[i]? = some word) :
    Linked prog top cnt words' calls (base :: bases) := by
  generalize hall : base :: bases = all at h
  induction h generalizing base bases with
  | outermost => exact .outermost
  | @call pc inst outer calls outers hinst hop ha hback hword hrest ih =>
      cases hall
      have hinner := hkept (List.cons_ne_nil _ _)
      exact .call hinst hop ha hback (hinner _ (Nat.le_refl _) _ hword)
        (ih (fun _ i hi => hinner i (by omega)) rfl)

end Linked

/-! ## Words that are no functions -/

/-- An integer is no function, whatever its sign does to the tag. -/
theorem isFnew_toSmallInt (num : BitVec 32) : isFnew (toSmallInt num) = false := by
  rw [toSmallInt_eq_packed, isFnew, tag_packed]
  split <;> decide

/-- A truth value is no function. -/
theorem isFnew_toBool (value : Bool) : isFnew (toBool value) = false := by
  rw [toBool_eq_packed, isFnew, tag_packed]
  rfl

/-- A type is no function. -/
theorem isFnew_toType (type : BitVec 16) : isFnew (toType type) = false := by
  rw [toType_eq_packed, isFnew, tag_packed]
  rfl

/-- A builtin is no function. -/
theorem isFnew_toBuiltin {fn : Word} (h : fn.toNat < 2 ^ 48) : isFnew (toBuiltin fn) = false := by
  have hwidth : (fn.setWidth 48).setWidth 64 = fn := by
    apply BitVec.eq_of_toNat_eq
    have := fn.isLt
    simp only [BitVec.toNat_setWidth]
    omega
  rw [← hwidth, toBuiltin_eq_packed, isFnew, tag_packed]
  rfl

/-! ## Writes to the running frame -/

/-- Slots from an offset on are written with words that are no functions outside the
program. -/
structure Writes (top cnt offset : Nat) (p p' : Ideal) : Prop where
  same : p' = { p with words := p'.words }
  kept : ∀ i < p.base + offset, ∀ word, p.words[i]? = some word → p'.words[i]? = some word
  aimed : ∀ word ∈ p'.words, Aimed top cnt word

/-- What holds of the state behind a computation, if there is one. -/
def Then (x : Outcome Ideal Ideal) (post : Ideal → Prop) : Prop :=
  Ends x post fun _ _ _ => True

/-- A read that returns found a word, and functions in slots are of the program. -/
theorem get_then {top cnt : Nat} {p : Ideal} (h : p.Aimed top cnt) (i : Nat) :
    Ends (p.get i) (fun word => p.words[p.base + i]? = some word ∧ Aimed top cnt word)
      (fun _ _ _ => True) := by
  unfold Ideal.get
  cases hword : p.words[p.base + i]? with
  | none => exact trivial
  | some word => exact ⟨rfl, h.words word (List.mem_of_getElem? hword)⟩

section Writes

variable {top cnt offset i : Nat} {p p' p'' : Ideal} {word : Word}

/-- Words that are no functions can be anything. -/
theorem aimed_of_not_isFnew (h : isFnew word = false) : Aimed top cnt word := by
  intro hfnew
  rw [h] at hfnew
  cases hfnew

/-- Nil is no function. -/
theorem aimed_getNil : Aimed top cnt getNil :=
  aimed_of_not_isFnew (by decide)

/-- Integers are no functions. -/
theorem aimed_toSmallInt (num : BitVec 32) : Aimed top cnt (toSmallInt num) :=
  aimed_of_not_isFnew (isFnew_toSmallInt num)

/-- A lookup that returns found something. -/
theorem orWild_eq_ok {α : Type} {x : Option α} {a : α} (h : orWild x = .ok a) : x = some a := by
  cases x with
  | none => cases h
  | some b =>
      cases h
      rfl

/-- Nothing has been written yet. -/
theorem Writes.refl (h : p.Aimed top cnt) : Writes top cnt offset p p :=
  ⟨rfl, fun _ _ _ hword => hword, h.words⟩

/-- Two computations that write behind an offset, one after the other. -/
theorem Writes.trans (h : Writes top cnt offset p p') (h' : Writes top cnt offset p' p'') :
    Writes top cnt offset p p'' := by
  have hbase : p'.base = p.base := by rw [h.same]
  refine ⟨?_, fun i hi word hword => ?_, h'.aimed⟩
  · rw [h'.same, h.same]
  · exact h'.kept i (by omega) word (h.kept i hi word hword)

/-- Writes keep the functions those of the program. -/
theorem Writes.toAimed (h : Writes top cnt offset p p') (hp : p.Aimed top cnt) :
    p'.Aimed top cnt := by
  refine ⟨h.aimed, ?_⟩
  rw [h.same]
  exact hp.globals

/-- A write behind the offset, of a function of the program or of another word. -/
theorem set_then (h : p.Aimed top cnt) (hi : offset ≤ i) (hword : Aimed top cnt word) :
    Then (p.set i word)
      (fun p' => Writes top cnt offset p p' ∧ p'.words[p.base + i]? = some word) := by
  unfold Then Ideal.set
  split
  · refine ⟨⟨rfl, fun j hj old hold => ?_, fun w hw => ?_⟩, ?_⟩
    · rw [getElem?_assign, if_neg (by omega),
        if_pos (List.getElem?_eq_some_iff.mp hold).1]
      exact hold
    · rcases mem_of_mem_assign hw with rfl | hw | rfl
      · exact hword
      · exact h.words w hw
      · exact aimed_getNil
    · rw [getElem?_assign_self]
  · exact trivial

/-- A move to a slot behind the offset. -/
theorem move_then (h : p.Aimed top cnt) {target : Nat} (htarget : offset ≤ target) (source : Nat) :
    Then (p.move target source) (Writes top cnt offset p) :=
  (get_then h source).bind fun _ hword =>
    (set_then h htarget hword.2).mono (fun _ hset => hset.1) fun _ _ _ h => h

/-- The loop of {lit}`BULKMOV`, whose targets grow. -/
theorem bulkMove_then (h : p.Aimed top cnt) {a : Nat} (ha : offset ≤ a) (b turns i : Nat) :
    Then (Ideal.bulkMove a b turns i p) (Writes top cnt offset p) := by
  induction turns generalizing p i with
  | zero => exact Writes.refl h
  | succ turns ih =>
      refine (move_then h (show offset ≤ a + i by omega) (b + i)).bind fun p' hmoved => ?_
      exact (ih (hmoved.toAimed h) (i + 1)).mono (fun _ hrest => hmoved.trans hrest)
        fun _ _ _ h => h

/-- The loop that clears slots behind the offset. -/
theorem clear_then (h : p.Aimed top cnt) (turns : Nat) (hi : offset ≤ i) :
    Then (Ideal.clear turns i p) (Writes top cnt offset p) := by
  induction turns generalizing p i with
  | zero => exact Writes.refl h
  | succ turns ih =>
      refine (set_then h hi aimed_getNil).bind fun p' hset => ?_
      exact (ih (hset.1.toAimed h) (show offset ≤ i + 1 by omega)).mono
        (fun _ hrest => hset.1.trans hrest) fun _ _ _ h => h

end Writes

/-! ## Controlled states -/

section Controlled

variable {prog : Program} {top cnt : Nat} {calls : List (BitVec 32)} {p p' : Ideal}

/-- Writes behind the return address. -/
theorem Controlled.of_writes {offset : Nat} (h : Controlled prog top cnt calls p)
    (hoffset : calls ≠ [] → 1 ≤ offset) (hwrites : Writes top cnt offset p p') :
    Controlled prog top cnt calls p' := by
  have hbases : p'.bases = p.bases := by rw [hwrites.same]; rfl
  refine ⟨hwrites.toAimed h.toAimed, ?_⟩
  rw [hbases]
  refine h.linked.congr fun hcalls i hi word hword => hwrites.kept i ?_ word hword
  have := hoffset hcalls
  omega

/-- Words below the running frame stay. -/
theorem Unwinding.linked_congr (h : Unwinding prog top cnt calls p) {words : List Word}
    (hkept : ∀ i < p.base, ∀ word, p.words[i]? = some word → words[i]? = some word) :
    p.bases.tail = [] ∨ Linked prog top cnt words calls p.bases.tail := by
  have hlinked := h.linked
  have hbelow := h.below
  generalize p.bases.tail = callers at hlinked hbelow ⊢
  cases callers with
  | nil => exact .inl rfl
  | cons base bases =>
      refine .inr ((hlinked.resolve_left (List.cons_ne_nil _ _)).congr fun hcalls i hi => ?_)
      have hlt := hbelow hcalls base rfl
      exact hkept i (by omega)

/-- Any writes to the running frame. -/
theorem Unwinding.of_writes (h : Unwinding prog top cnt calls p)
    (hwrites : Writes top cnt 0 p p') : Unwinding prog top cnt calls p' := by
  have hbases : p'.bases = p.bases := by rw [hwrites.same]; rfl
  have hbase : p'.base = p.base := by rw [hwrites.same]
  refine ⟨hwrites.toAimed h.toAimed, ?_, ?_⟩
  · rw [hbases]
    exact h.linked_congr fun i hi word hword => hwrites.kept i (by omega) word hword
  · rw [hbases, hbase]
    exact h.below

/-- The running frame is left to itself. -/
theorem Controlled.unwinding (h : Controlled prog top cnt calls p) :
    Unwinding prog top cnt calls.tail p := by
  cases calls with
  | nil => exact ⟨h.toAimed, .inl h.linked.of_nil, fun hcalls => absurd rfl hcalls⟩
  | cons pc calls =>
      rcases h.linked.of_cons with ⟨⟨inst, caller, _, _, hhead, hbase, ha⟩, _, _, hrest⟩
      refine ⟨h.toAimed, .inr hrest, fun hcalls base hmem => ?_⟩
      cases hhead.symm.trans hmem
      have := ha hcalls
      omega

/-- Anything can be known of what is not looked at. -/
theorem ends_true {α : Type} (x : Outcome Ideal α) :
    Ends x (fun _ => True) fun _ _ _ => True := by
  rcases x with (_ | _) | _ <;> exact trivial

/-- Leaving a frame takes its base away and keeps words, globals and counter. -/
theorem leave_then : Then p.leave fun p' => p.bases.tail = p'.bases ∧ p'.words = p.words ∧
    p'.globals = p.globals ∧ p'.pc = p.pc := by
  unfold Then Ideal.leave
  cases hlast : p.contexts.getLast? with
  | none => exact trivial
  | some caller =>
      refine ⟨?_, rfl, rfl, rfl⟩
      have hsplit := List.dropLast_append_getLast? caller hlast
      simp only [Ideal.bases, List.tail_cons]
      rw [← hsplit]
      simp

/-- Leaving the running frame, the state is controlled with the calls that are left. -/
theorem Unwinding.leave (h : Unwinding prog top cnt calls p) :
    Then p.leave fun p' => Controlled prog top cnt calls p' ∧ p.bases.tail = p'.bases ∧
      p'.pc = p.pc := by
  refine leave_then.mono (fun p' hleft => ?_) fun _ _ _ h => h
  rcases hleft with ⟨hbases, hwords, hglobals, hpc⟩
  refine ⟨⟨⟨?_, ?_⟩, ?_⟩, hbases, hpc⟩
  · rw [hwords]
    exact h.words
  · rw [hglobals]
    exact h.globals
  · rw [hwords, ← hbases]
    refine h.linked.resolve_left fun hnil => ?_
    rw [hbases] at hnil
    cases hnil

/-- Cutting off slots of the running frame does not reach the links below it. -/
theorem Unwinding.truncate (h : Unwinding prog top cnt calls p) (a : Nat) :
    Unwinding prog top cnt calls (p.truncate a) := by
  refine ⟨⟨fun word hword => h.words word (List.mem_of_mem_take hword), h.globals⟩, ?_, h.below⟩
  refine h.linked_congr fun i hi word hword => ?_
  change (p.words.take (p.base + a))[i]? = some word
  rw [List.getElem?_take, if_pos (by omega)]
  exact hword

/-- There is one frame more than contexts. -/
theorem length_bases (vm : VM) : vm.ideal.bases.length = vm.contexts.length + 1 := by
  simp [Ideal.bases, VM.ideal]

/-- There are as many contexts as calls that have not returned. -/
theorem Controlled.length_contexts {vm : VM} (h : Controlled prog top cnt calls vm.ideal) :
    vm.contexts.length = calls.length :=
  Nat.succ.inj ((length_bases vm).symm.trans h.linked.length_bases)

/-- No call is open exactly in the outermost frame. -/
theorem Controlled.calls_eq_nil_iff {vm : VM} (h : Controlled prog top cnt calls vm.ideal) :
    calls = [] ↔ vm.contexts = [] := by
  rw [← List.length_eq_zero_iff, ← h.length_contexts, List.length_eq_zero_iff]

end Controlled

/-! ## Calls and returns -/

/-- What a turn does to the frames and to the calls that have not returned. -/
inductive Turned (p p' : Ideal) : List (BitVec 32) → List (BitVec 32) → Prop
  | stays {calls : List (BitVec 32)} (hbases : p'.bases = p.bases) : Turned p p' calls calls
  | enters {calls : List (BitVec 32)} {base : Nat} (hbases : p'.bases = base :: p.bases) :
      Turned p p' calls (p.pc :: calls)
  | leaves {pc : BitVec 32} {calls : List (BitVec 32)} (hbases : p.bases.tail = p'.bases)
      (hpc : p'.pc = pc + 1) : Turned p p' (pc :: calls) calls

/-- A turn that keeps control. -/
def KeepsControl (prog : Program) (top cnt : Nat) (calls : List (BitVec 32)) (p p' : Ideal) :
    Prop :=
  ∃ calls', Controlled prog top cnt calls' p' ∧ Inside top cnt calls' p'.pc ∧
    Turned p p' calls calls'

section Calls

variable {prog : Program} {top cnt : Nat} {calls : List (BitVec 32)} {p p' : Ideal}

/-- A return goes behind the call. -/
theorem ret_then (h : Controlled prog top cnt calls p) (a : Nat) :
    Then (p.ret a) (KeepsControl prog top cnt calls p) := by
  refine (get_then h.toAimed 0).bind fun slot hslot => ?_
  refine (move_then h.toAimed (Nat.zero_le 0) a).bind fun moved hmoved => ?_
  refine ((h.unwinding.of_writes hmoved).truncate a).leave.bind fun left hleft => ?_
  rcases hleft with ⟨hcontrolled, hbases, _⟩
  have hcallers : p.bases.tail = left.bases := by
    rw [← hbases, hmoved.same]
    rfl
  cases calls with
  | nil =>
      have hnone : p.bases.tail = [] := h.linked.of_nil
      rw [hcallers] at hnone
      cases hnone
  | cons pc calls =>
      rcases h.linked.of_cons with ⟨_, hword, hback, _⟩
      rw [Nat.add_zero] at hslot
      rw [hslot.1] at hword
      cases hword
      rw [getSmallInt_toSmallInt]
      exact ⟨calls, ⟨⟨hcontrolled.words, hcontrolled.globals⟩, hcontrolled.linked⟩, hback,
        .leaves hcallers rfl⟩

/-- The call of a builtin comes back at once. -/
theorem callBuiltin_then (h : Unwinding prog top cnt calls p) (fn : Word) (localbase : Nat) :
    Then (p.callBuiltin prog fn localbase) fun p' => Controlled prog top cnt calls p' ∧
      p.bases.tail = p'.bases ∧ p'.pc = p.pc + 1 := by
  unfold Ideal.callBuiltin
  split
  · refine (ends_true (p.get 2)).bind fun slot _ => ?_
    refine (ends_true (p.printlnSlot prog slot)).bind fun text _ => ?_
    have hprinted : Unwinding prog top cnt calls ((p.print text).print "\n") :=
      ⟨⟨h.words, h.globals⟩, h.linked, h.below⟩
    refine (set_then hprinted.toAimed (Nat.zero_le 0) aimed_getNil).bind fun set hset => ?_
    have hkept := hprinted.of_writes hset.1
    refine (clear_then hkept.toAimed (localbase + 8) (Nat.zero_le 2)).bind
      fun cleared hcleared => ?_
    refine (hkept.of_writes hcleared).leave.bind fun left hleft => ?_
    rcases hleft with ⟨hcontrolled, hbases, hpc⟩
    refine ⟨⟨⟨hcontrolled.words, hcontrolled.globals⟩, hcontrolled.linked⟩, ?_, ?_⟩
    · change p.bases.tail = left.bases
      rw [← hbases, hcleared.same, hset.1.same]
      rfl
    · change left.pc + 1 = p.pc + 1
      rw [hpc, hcleared.same, hset.1.same]
      rfl
  · exact trivial

/-- Entering a frame puts its base in front and keeps words, globals and counter. -/
theorem enter_then (localbase : Nat) (func : BitVec 16) :
    Then (p.enter localbase func) fun p' => p'.bases = (p.base + localbase) :: p.bases ∧
      p'.words = p.words ∧ p'.globals = p.globals ∧ p'.pc = p.pc := by
  unfold Then Ideal.enter
  split
  · refine ⟨?_, rfl, rfl, rfl⟩
    simp [Ideal.bases]
  · exact trivial

/-- A frame starts at the slot with the address of the call. -/
theorem Controlled.enter (h : Controlled prog top cnt calls p) {inst : Decoded}
    (hinst : prog.code p.pc = some inst) (hop : inst.op = some .call)
    (ha : calls ≠ [] → 1 ≤ inst.a)
    (hword : p.words[p.base + inst.a]? = some (toSmallInt p.pc))
    (hback : Inside top cnt calls (p.pc + 1)) (func : BitVec 16) :
    Then (p.enter inst.a func) fun p' => Controlled prog top cnt (p.pc :: calls) p' ∧
      p'.bases = (p.base + inst.a) :: p.bases ∧ p'.pc = p.pc := by
  refine (enter_then inst.a func).mono (fun p' hentered => ?_) fun _ _ _ h => h
  rcases hentered with ⟨hbases, hwords, hglobals, hpc⟩
  refine ⟨⟨⟨?_, ?_⟩, ?_⟩, hbases, hpc⟩
  · rw [hwords]
    exact h.words
  · rw [hglobals]
    exact h.globals
  · rw [hbases, hwords]
    exact .call hinst hop ha hback hword h.linked

/-- What is called and is no builtin is a function. -/
theorem of_calledFunc {fn : Word} {func : BitVec 16} (hfunc : calledFunc fn = some func)
    (hne : func ≠ 0#16) : isFnew fn = true ∧ getFnew fn = func := by
  unfold calledFunc at hfunc
  split at hfunc
  · next hfnew => exact ⟨hfnew, Option.some.inj hfunc⟩
  · split at hfunc
    · exact absurd (Option.some.inj hfunc).symm hne
    · cases hfunc

/-- A call goes to a function of the program. -/
theorem call_then (h : Controlled prog top cnt calls p) {inst : Decoded}
    (hinst : prog.code p.pc = some inst) (hop : inst.op = some .call)
    (ha : calls ≠ [] → 1 ≤ inst.a) (hback : Inside top cnt calls (p.pc + 1)) :
    Then (p.call prog inst.a) (KeepsControl prog top cnt calls p) := by
  refine (set_then h.toAimed (Nat.le_refl inst.a) (aimed_toSmallInt p.pc)).bind
    fun stored hset => ?_
  rcases hset with ⟨hstored, hword⟩
  have hcontrolled := h.of_writes ha hstored
  have hbase : stored.base = p.base := by rw [hstored.same]
  have hbases : stored.bases = p.bases := by rw [hstored.same]; rfl
  have hpc : stored.pc = p.pc := by rw [hstored.same]
  refine (get_then hcontrolled.toAimed (inst.a + 1)).bind fun fn hfn => ?_
  cases hfunc : calledFunc fn with
  | none => exact (ends_true (stored.printSlots prog)).bind fun _ _ => trivial
  | some func =>
      rw [← hbase, ← hpc] at hword
      have hentered := hcontrolled.enter (hpc ▸ hinst) hop ha hword (hpc ▸ hback) func
      refine hentered.bind fun entered he => ?_
      rcases he with ⟨hinner, hinnerbases, hinnerpc⟩
      rw [hpc] at hinner hinnerpc
      rw [hbases] at hinnerbases
      split
      · refine (callBuiltin_then hinner.unwinding fn inst.a).mono (fun p' hleft => ?_)
          fun _ _ _ h => h
        rcases hleft with ⟨hleft, hleftbases, hleftpc⟩
        refine ⟨calls, hleft, ?_, .stays ?_⟩
        · rw [hleftpc, hinnerpc]
          exact hback
        · rw [← hleftbases, hinnerbases]
          rfl
      · next hne =>
        refine ⟨p.pc :: calls, ⟨⟨hinner.words, hinner.globals⟩, hinner.linked⟩, ?_,
          .enters hinnerbases⟩
        rcases of_calledFunc hfunc hne with ⟨hfnew, hget⟩
        have hrange := hfn.2 hfnew
        rw [hget] at hrange
        have hwidth : (func.setWidth 32).toNat = func.toNat := by
          have := func.isLt
          rw [BitVec.toNat_setWidth]
          omega
        change Inside top cnt (p.pc :: calls) (func.setWidth 32)
        unfold Inside
        rw [hwidth]
        exact ⟨hrange.2, iff_of_false (by omega) (List.cons_ne_nil _ _)⟩

end Calls

/-! ## Turns of the machine -/

section Turns

variable {prog : Program} {top cnt : Nat} {calls : List (BitVec 32)} {p p' : Ideal}
    {a b c : Nat} {d : BitVec 16}

/-- A place on the same side of the program. -/
theorem Inside.of_sameSide {pc pc' : BitVec 32} (h : Inside top cnt calls pc)
    (hside : SameSide top cnt pc pc') : Inside top cnt calls pc' :=
  ⟨hside.1, hside.2.trans h.2⟩

/-- The state behind an instruction that neither calls nor returns. -/
theorem Controlled.keeps (h : Controlled prog top cnt calls p) {pc : BitVec 32}
    {out : List String} {objects : List Object} {reserves : Nat}
    (hpc : Inside top cnt calls pc) :
    KeepsControl prog top cnt calls p
      { p with pc := pc, out := out, objects := objects, reserves := reserves } :=
  ⟨calls, ⟨⟨h.words, h.globals⟩, h.linked⟩, hpc, .stays rfl⟩

/-- An instruction that writes behind slot zero and goes on keeps the links. -/
theorem Controlled.keeps_writes (h : Controlled prog top cnt calls p)
    (ha : calls ≠ [] → 1 ≤ a) (hwrites : Writes top cnt a p p')
    (hnext : Inside top cnt calls (p.pc + 1)) : KeepsControl prog top cnt calls p p'.next := by
  have hcontrolled := h.of_writes ha hwrites
  refine ⟨calls, ⟨⟨hcontrolled.words, hcontrolled.globals⟩, hcontrolled.linked⟩, ?_, .stays ?_⟩
  · rw [hwrites.same]
    exact hnext
  · rw [hwrites.same]
    rfl

section Fills

variable (h : Controlled prog top cnt calls p) (ha : calls ≠ [] → 1 ≤ a)
  (hnext : Inside top cnt calls (p.pc + 1))
include h ha hnext

/-- An instruction that puts a word into a slot and goes on keeps control. -/
theorem put_then {word : Word} (hword : Aimed top cnt word) :
    Then (p.put a word) (KeepsControl prog top cnt calls p) :=
  (set_then h.toAimed (Nat.le_refl a) hword).bind fun _ hset => h.keeps_writes ha hset.1 hnext

/-- The result of an operation on integers is no function. -/
theorem setInt_then (result : Option (BitVec 32)) :
    Then (do let p ← p.setInt a result; return p.next) (KeepsControl prog top cnt calls p) := by
  cases result with
  | none => exact trivial
  | some num => exact put_then h ha hnext (aimed_toSmallInt num)

/-- An arithmetic instruction keeps control. -/
theorem arith_then (int : BitVec 32 → BitVec 32 → Option (BitVec 32)) :
    Then (p.arith int a b c) (KeepsControl prog top cnt calls p) := by
  refine (ends_true (p.get b)).bind fun x _ => ?_
  refine (ends_true (p.get c)).bind fun y _ => ?_
  split
  · exact setInt_then h ha hnext _
  · split
    · exact trivial
    · exact h.keeps hnext

/-- The remainder keeps control. -/
theorem modulo_then : Then (p.modulo a b c) (KeepsControl prog top cnt calls p) := by
  refine (ends_true (p.get b)).bind fun x _ => ?_
  refine (ends_true (p.get c)).bind fun y _ => ?_
  split
  · exact setInt_then h ha hnext _
  · exact trivial

/-- The comparison steps on before it writes. -/
theorem isEqual_then : Then (p.isEqual a b c) (KeepsControl prog top cnt calls p) := by
  refine (ends_true (p.get b)).bind fun x _ => ?_
  refine (ends_true (p.get c)).bind fun y _ => ?_
  have hstepped : Controlled prog top cnt calls p.next := ⟨⟨h.words, h.globals⟩, h.linked⟩
  split
  · refine (set_then hstepped.toAimed (Nat.le_refl a) (aimed_of_not_isFnew (isFnew_toBool _))).mono
      (fun p' hset => ?_) fun _ _ _ h => h
    refine ⟨calls, hstepped.of_writes ha hset.1, ?_, .stays ?_⟩
    · rw [hset.1.same]
      exact hnext
    · rw [hset.1.same]
      rfl
  · split <;> exact trivial

end Fills

section Steps

variable (h : Controlled prog top cnt calls p) (hnext : Inside top cnt calls (p.pc + 1))
include h hnext

/-- A conditional jump keeps control if its target is inside. -/
theorem branch_then (test : Word → Bool) (lines : Nat)
    (htarget : Inside top cnt calls (p.pc + d.signExtend 32)) :
    Then (p.branch test lines a d) (KeepsControl prog top cnt calls p) := by
  refine (ends_true (p.get a)).bind fun slot _ => ?_
  dsimp only
  split
  · exact h.keeps htarget
  · exact h.keeps hnext

/-- An assignment to a name. -/
theorem nsset_then :
    Then (p.execute prog (some .nsset) a b c d) (KeepsControl prog top cnt calls p) := by
  refine (get_then h.toAimed a).bind fun value hvalue => ?_
  refine (ends_true (orWild (prog.name d))).bind fun name _ => ?_
  refine ⟨calls, ⟨⟨h.words, fun key => ?_⟩, h.linked⟩, hnext, .stays rfl⟩
  by_cases hkey : key = name
  · simp only [hkey, Function.update_self]
    exact hvalue.2
  · simp only [Function.update_of_ne hkey]
    exact h.globals key

/-- An allocation writes no slot. -/
theorem alloc_then :
    Then (p.execute prog (some .alloc) a b c d) (KeepsControl prog top cnt calls p) := by
  refine (ends_true (orWild (prog.type d))).bind fun record _ => ?_
  refine (ends_true (p.get a)).bind fun slot _ => ?_
  unfold Ideal.allocate
  split
  · change KeepsControl prog top cnt calls p (Ideal.next (if _ then _ else _))
    split
    · exact h.keeps hnext
    · exact h.keeps hnext
  · exact trivial

/-- A store to a field writes no slot. -/
theorem setfield_then :
    Then (p.execute prog (some .setfield) a b c d) (KeepsControl prog top cnt calls p) := by
  refine (ends_true (p.get a)).bind fun obj _ => ?_
  refine (ends_true (p.get c)).bind fun value _ => ?_
  unfold Ideal.setField
  split
  · split
    · exact h.keeps hnext
    · exact trivial
  · exact trivial

end Steps

/-- One turn of the switch of a checked program. -/
theorem execute_then (hprog : prog.Checked top cnt) (h : Controlled prog top cnt calls p)
    (hpc : Inside top cnt calls p.pc) {inst : Decoded} (hinst : prog.code p.pc = some inst)
    (hcheck : inst.Checked top cnt p.pc) :
    Then (p.execute prog inst.op inst.a inst.b inst.c inst.d)
      (KeepsControl prog top cnt calls p) := by
  rcases hcheck with ⟨hfills, hfalls, hjumps, hfnew, hgetfield⟩
  have hfloor (hop : fillsSlot inst.op = true) (hcalls : calls ≠ []) : 1 ≤ inst.a :=
    (hfills hop).resolve_left fun htop => hcalls (hpc.2.mp htop)
  have hnext (hop : neverFalls inst.op = false) : Inside top cnt calls (p.pc + 1) :=
    hpc.of_sameSide (hfalls hop)
  have htarget (hop : isJump inst.op = true) :
      Inside top cnt calls (p.pc + inst.d.signExtend 32) :=
    hpc.of_sameSide (hjumps hop)
  cases hop : inst.op with
  | none =>
      rw [hop] at hnext
      exact h.keeps (hnext rfl)
  | some op =>
      rw [hop] at hfloor hnext htarget hfnew hgetfield
      cases op with
      | getfield => exact absurd rfl hgetfield
      | cstr | cshort => exact put_then h (hfloor rfl) (hnext rfl) (aimed_toSmallInt _)
      | ckey =>
          refine (ends_true (orWild (prog.key inst.d))).eq_ok.bind fun key hkey => ?_
          refine put_then h (hfloor rfl) (hnext rfl) (aimed_of_not_isFnew ?_)
          exact hprog.key inst.d key (orWild_eq_ok hkey.1)
      | ctype =>
          exact put_then h (hfloor rfl) (hnext rfl) (aimed_of_not_isFnew (isFnew_toType _))
      | cbool => exact put_then h (hfloor rfl) (hnext rfl) (aimed_of_not_isFnew (isFnew_toBool _))
      | cnil => exact put_then h (hfloor rfl) (hnext rfl) aimed_getNil
      | fnew =>
          refine put_then h (hfloor rfl) (hnext rfl) fun _ => ?_
          rw [getFnew_toFnew]
          exact hfnew rfl
      | nsset => exact nsset_then h (hnext rfl)
      | nsget =>
          refine (ends_true (orWild (prog.name inst.d))).bind fun name _ => ?_
          exact put_then h (hfloor rfl) (hnext rfl) (h.globals name)
      | addvv | subvv | mulvv | divvv => exact arith_then h (hfloor rfl) (hnext rfl) _
      | modvv => exact modulo_then h (hfloor rfl) (hnext rfl)
      | iseq => exact isEqual_then h (hfloor rfl) (hnext rfl)
      | mov =>
          exact (move_then h.toAimed (Nat.le_refl inst.a) inst.d.toNat).bind fun _ hwrites =>
            h.keeps_writes (hfloor rfl) hwrites (hnext rfl)
      | bulkmov =>
          exact (bulkMove_then h.toAimed (Nat.le_refl inst.a) inst.b inst.c 0).bind
            fun _ hwrites => h.keeps_writes (hfloor rfl) hwrites (hnext rfl)
      | jump => exact h.keeps (htarget rfl)
      | jumpf => exact branch_then h (hnext rfl) isFalsy 1 (htarget rfl)
      | jumpt => exact branch_then h (hnext rfl) isTruthy 2 (htarget rfl)
      | call => exact call_then h hinst hop (hfloor rfl) (hnext rfl)
      | ret => exact ret_then h inst.a
      | loop => exact h.keeps hpc
      | alloc => exact alloc_then h (hnext rfl)
      | setfield => exact setfield_then h (hnext rfl)
      | exit => exact trivial
      | cint | cfloat | setf | powvv | islt | isge | isle | isgt | isneq | not | neg | apply
      | vfnew | getfreevar | uclo | newarray | getarray | setarray | funcf | funcv | «break»
      | drop | tranc => exact h.keeps (hnext rfl)

/-- One turn of the ideal machine with a checked program. -/
theorem step_then (hprog : prog.Checked top cnt) (h : Controlled prog top cnt calls p)
    (hpc : Inside top cnt calls p.pc) :
    Then (p.step prog) (KeepsControl prog top cnt calls p) := by
  rcases hprog.code p.pc hpc.1 with ⟨inst, hinst, hcheck⟩
  unfold Ideal.step
  rw [hinst]
  exact execute_then hprog h hpc hinst hcheck

end Turns

/-- No function is bound at the start. -/
theorem isFnew_globals_init {prog : Program} (hprintln : prog.println.toNat < 2 ^ 48)
    (name : List Byte) : isFnew ((Ideal.init prog).globals name) = false := by
  by_cases hname : name = printlnName
  · subst hname
    simp only [Ideal.init, Function.update_self]
    exact isFnew_toBuiltin hprintln
  · simp only [Ideal.init, Function.update_of_ne hname]
    decide

/-- No call is open at the start. -/
theorem init_controlled {prog : Program} (hprintln : prog.println.toNat < 2 ^ 48)
    {top cnt : Nat} : Controlled prog top cnt [] (.init prog) :=
  ⟨⟨fun _ hword => absurd hword List.not_mem_nil,
    fun name => aimed_of_not_isFnew (isFnew_globals_init hprintln name)⟩, .outermost⟩

/-- A run of the ideal machine stays inside a checked program. -/
theorem Program.Checked.run_inside {prog : Program} {top cnt : Nat}
    (hprog : prog.Checked top cnt) (htop : 0 < top) (hcnt : 0 < cnt)
    (hprintln : prog.println.toNat < 2 ^ 48) {n : Nat} {p : Ideal}
    (hrun : (Ideal.init prog).run prog n = .ok p) : p.pc.toNat < cnt := by
  have hkept : ∃ calls, Controlled prog top cnt calls p ∧ Inside top cnt calls p.pc := by
    have hstart : ∃ calls, Controlled prog top cnt calls (.init prog) ∧
        Inside top cnt calls (Ideal.init prog).pc :=
      ⟨[], init_controlled hprintln, hcnt, iff_of_true htop rfl⟩
    refine steps_induction (P := fun q => ∃ calls, Controlled prog top cnt calls q ∧
      Inside top cnt calls q.pc) (fun q q' h hok => ?_) hstart hrun
    rcases h with ⟨calls, hcontrolled, hinside⟩
    rcases (step_then hprog hcontrolled hinside).ok hok with ⟨calls', hcontrolled', hinside', _⟩
    exact ⟨calls', hcontrolled', hinside'⟩
  rcases hkept with ⟨_, _, hinside⟩
  exact hinside.1

/-! ## Checked files -/

/-- A file has instructions in front of its functions, all instructions are in the file, and
they pass the check. -/
def Checked (host : Host) (top : Nat) : Prop :=
  0 < top ∧ 0 < (loadfile host).instrCnt ∧ ∀ k < (loadfile host).instrCnt,
    ∃ inst ∈ (host.program (loadfile host)).code (.ofNat 32 k),
      inst.Checked top (loadfile host).instrCnt (.ofNat 32 k)

instance (host : Host) (top : Nat) : Decidable (Checked host top) :=
  inferInstanceAs (Decidable (_ ∧ _))

/-- The tag of an address is zero. -/
theorem isFnew_of_lt {word : Word} (h : word.toNat < 2 ^ 48) : isFnew word = false := by
  have hshift : word >>> 48 = 0#64 := by
    apply BitVec.eq_of_toNat_eq
    rw [BitVec.toNat_ushiftRight, Nat.shiftRight_eq_div_pow, Nat.div_eq_of_lt h]
    rfl
  rw [isFnew, tag, hshift]
  rfl

/-- A pointer of the string table is an address. -/
theorem lt_of_mem_cstr (host : Host) {p : Nat} (hp : p ∈ (loadfile host).cstr) : p < 2 ^ 48 := by
  rw [loadfile, parse_eq_foldl] at hp
  have hlt := lt_of_mem_foldl_load (fun s hs => lt_of_mem_layoutFrom hs)
    (fun p hp => absurd hp List.not_mem_nil) p hp
  have hfile := host.file_le
  omega

/-- The check of the file is the check of its program. -/
theorem Checked.program {host : Host} {top : Nat} (h : Checked host top) :
    (host.program (loadfile host)).Checked top (loadfile host).instrCnt where
  code pc hpc := by
    have hinst := h.2.2 pc.toNat hpc
    rwa [BitVec.ofNat_toNat, BitVec.setWidth_eq] at hinst
  key d key hkey := by
    have hmem := List.mem_of_getElem? hkey
    refine isFnew_of_lt ?_
    rw [toNat_of_mem_cstr host hmem]
    exact lt_of_mem_cstr host hmem

/-! ## Calls beside a run -/

/-- The calls that have not returned behind a turn: a call adds its own address and a return
takes the last one away. -/
def callsBehind (vm vm' : VM) (calls : List (BitVec 32)) : List (BitVec 32) :=
  if vm.contexts.length < vm'.contexts.length then vm.pc :: calls
  else if vm'.contexts.length < vm.contexts.length then calls.tail
  else calls

/-- A turn of the machine with the list of calls kept beside it. -/
def stepCalls (host : Host) (sec : Sections) :
    VM × List (BitVec 32) → Outcome VM (VM × List (BitVec 32)) :=
  recorded (step host sec) callsBehind

/-- The list beside the run is the one of the turn. -/
theorem Turned.callsBehind_eq {vm vm' : VM} {calls calls' : List (BitVec 32)}
    (h : Turned vm.ideal vm'.ideal calls calls') : callsBehind vm vm' calls = calls' := by
  have hlength := length_bases vm
  have hlength' := length_bases vm'
  unfold callsBehind
  cases h with
  | stays hbases =>
      rw [hbases] at hlength'
      rw [if_neg (by omega), if_neg (by omega)]
  | enters hbases =>
      rw [hbases, List.length_cons] at hlength'
      rw [if_pos (by omega)]
      rfl
  | leaves hbases =>
      have hpos : 0 < vm'.ideal.bases.length := Nat.succ_pos _
      rw [← hbases, List.length_tail] at hlength' hpos
      rw [if_neg (by omega), if_pos (by omega)]
      rfl

section Runs

variable {host : Host} {sec : Sections} {vm vm' : VM} {calls : List (BitVec 32)}

/-- A turn of the machine is one of the ideal machine. -/
theorem Reachable.step_ideal (h : Reachable host sec vm)
    (hok : ClojitCvm.step host sec vm = .ok vm') :
    vm.ideal.step (host.program sec) = .ok vm'.ideal := by
  have hturn := h.inOrder.refines.stepAt sec
  rw [stepAt_zero, hok] at hturn
  exact hturn.eq_ideal.symm

/-- The address of {lit}`println` leaves the tag of a builtin alone. -/
theorem println_lt (host : Host) (sec : Sections) :
    (host.program sec).println.toNat < 2 ^ 48 :=
  Nat.lt_trans host.println_lt (by decide)

/-- The first state has one frame, and {lit}`println` is its only global. -/
theorem vmInit_controlled (host : Host) (sec : Sections) (top cnt : Nat) :
    Controlled (host.program sec) top cnt [] (vmInit host).ideal := by
  rw [vmInit_ideal host sec]
  exact init_controlled (println_lt host sec)

/-- What every state of a run of a checked program keeps, with the calls beside it. -/
structure InControl (host : Host) (top : Nat) (s : VM × List (BitVec 32)) : Prop where
  reachable : Reachable host (loadfile host) s.1
  inside : Inside top (loadfile host).instrCnt s.2 s.1.pc
  controlled : Controlled (host.program (loadfile host)) top (loadfile host).instrCnt s.2
    s.1.ideal

/-- A run of a checked program starts under control. -/
theorem InControl.init {top : Nat} (hchecked : Checked host top) :
    InControl host top (vmInit host, []) :=
  ⟨.init, ⟨hchecked.2.1, iff_of_true hchecked.1 rfl⟩, vmInit_controlled host _ _ _⟩

/-- A step keeps control, and is a turn inside a function, a call or a return. -/
theorem InControl.step {top : Nat} (hchecked : Checked host top) {s : VM × List (BitVec 32)}
    (h : InControl host top s) (hok : ClojitCvm.step host (loadfile host) s.1 = .ok vm') :
    InControl host top (vm', callsBehind s.1 vm' s.2) ∧
      Turned s.1.ideal vm'.ideal s.2 (callsBehind s.1 vm' s.2) := by
  rcases (step_then hchecked.program h.controlled h.inside).ok (h.reachable.step_ideal hok) with
    ⟨calls', hcontrolled, hpc, hturned⟩
  rw [hturned.callsBehind_eq]
  exact ⟨⟨h.reachable.step hok, hpc, hcontrolled⟩, hturned⟩

/-- A run keeps control, with the call sites of the open calls beside it. -/
theorem InControl.run {top : Nat} (hchecked : Checked host top) {n : Nat}
    {s : VM × List (BitVec 32)}
    (hrun : steps (stepCalls host (loadfile host)) n (vmInit host, []) = .ok s) :
    InControl host top s := by
  refine steps_induction (fun s s' h hok => ?_) (InControl.init hchecked) hrun
  rcases recorded_eq_ok.mp hok with ⟨vm', hturn, rfl⟩
  exact (h.step hchecked hturn).1

/-- Every state of a run has a list of calls. -/
theorem Reachable.exists_calls {top : Nat} (h : Reachable host (loadfile host) vm)
    (hchecked : Checked host top) : ∃ calls, InControl host top (vm, calls) := by
  induction h with
  | init => exact ⟨[], .init hchecked⟩
  | @step vm vm' _ hok ih =>
      rcases ih with ⟨calls, h⟩
      exact ⟨_, (h.step hchecked hok).1⟩

/-- A checked program never gets out of its instructions, whatever it computes: in every
state of its run there is an instruction of the program to execute, in front of the functions
exactly when no function is running. -/
theorem checked_stays_inside {top : Nat} (hchecked : Checked host top)
    (h : Reachable host (loadfile host) vm) :
    vm.pc.toNat < (loadfile host).instrCnt ∧ (vm.pc.toNat < top ↔ vm.contexts = []) ∧
      ∃ inst, current? host (loadfile host) vm = some inst ∧
        inst.Checked top (loadfile host).instrCnt vm.pc := by
  rcases h.exists_calls hchecked with ⟨calls, hcontrol⟩
  refine ⟨hcontrol.inside.1, hcontrol.inside.2.trans ?_,
    hchecked.program.code vm.pc hcontrol.inside.1⟩
  exact hcontrol.controlled.calls_eq_nil_iff

/-- A return leaves a context. -/
theorem contexts_of_return (h : Reachable host sec vm) {inst : Decoded}
    (hinst : current? host sec vm = some inst) (hop : inst.op = some .ret)
    (hok : step host sec vm = .ok vm') : vm'.contexts.length + 1 = vm.contexts.length := by
  have heffect := (h.wellFormed.effect hinst hok).2.2.2
  rw [hop] at heffect
  exact heffect.contexts_of_ret

/-- Every return of a checked program goes behind the call that is the last one of the list
kept beside the run, to the frame of the caller. -/
theorem checked_returns {top : Nat} (hchecked : Checked host top) {n : Nat}
    (hrun : steps (stepCalls host (loadfile host)) n (vmInit host, []) = .ok (vm, calls))
    {inst : Decoded} (hinst : current? host (loadfile host) vm = some inst)
    (hop : inst.op = some .ret) (hok : step host (loadfile host) vm = .ok vm') :
    ∃ pc rest call, calls = pc :: rest ∧ callsBehind vm vm' calls = rest ∧ vm'.pc = pc + 1 ∧
      (host.program (loadfile host)).code pc = some call ∧ call.op = some .call ∧
      vm.base = vm'.base + call.a := by
  have hcontrol := InControl.run hchecked hrun
  have hturned : Turned vm.ideal vm'.ideal calls (callsBehind vm vm' calls) :=
    (hcontrol.step hchecked hok).2
  have hlength := length_bases vm
  have hlength' := length_bases vm'
  have hshorter : vm'.contexts.length + 1 = vm.contexts.length :=
    contexts_of_return hcontrol.reachable hinst hop hok
  generalize hrest : callsBehind vm vm' calls = rest at hturned ⊢
  cases hturned with
  | stays hbases =>
      rw [hbases] at hlength'
      omega
  | enters hbases =>
      rw [hbases, List.length_cons] at hlength'
      omega
  | @leaves pc _ hbases hpc =>
      rcases hcontrol.controlled.linked.of_cons with
        ⟨⟨call, caller, hcall, hcallop, hhead, hbase, _⟩, _⟩
      have hcaller : some vm'.base = some caller := (congrArg List.head? hbases).symm.trans hhead
      cases hcaller
      exact ⟨pc, rest, call, rfl, rfl, hpc, hcall, hcallop, hbase⟩

end Runs

/-! ## A program of the repository -/

/-- The file {lit}`function-ret-trunc.cvmb`. -/
def functionRetTrunc : List Byte :=
  [0x00, 0x00, 0x00, 0x07, 0x00, 0x00, 0x00, 0x00, 0x00, 0x00, 0x00, 0x40, 0x00, 0x00, 0x00, 0x01,
    0x00, 0x00, 0x00, 0x00, 0x00, 0x00, 0x00, 0x02, 0x00, 0x00, 0x00, 0x00, 0x00, 0x00, 0x00, 0x03,
    0x00, 0x00, 0x00, 0x00, 0x00, 0x00, 0x00, 0x04, 0x00, 0x00, 0x00, 0x00, 0x00, 0x00, 0x00, 0x05,
    0x00, 0x00, 0x00, 0x00, 0x00, 0x00, 0x00, 0x06, 0x00, 0x00, 0x00, 0x00, 0x00, 0x00, 0x00, 0x10,
    0x20, 0x01, 0x00, 0x0b, 0x20, 0x03, 0x00, 0x06, 0x07, 0x04, 0x00, 0x0a, 0x1d, 0x02, 0x00, 0x02,
    0x1d, 0x00, 0x00, 0x02, 0x2f, 0x00, 0x00, 0x00, 0x29, 0x01, 0x00, 0x00, 0x17, 0x03, 0x00, 0x02,
    0x07, 0x04, 0x00, 0x05, 0x0b, 0x03, 0x04, 0x03, 0x1e, 0x03, 0x00, 0x00, 0x29, 0x01, 0x00, 0x00,
    0x17, 0x03, 0x00, 0x02, 0x07, 0x04, 0x00, 0x02, 0x0c, 0x03, 0x04, 0x03, 0x1e, 0x03, 0x00, 0x00,
    0x00, 0x00, 0x00, 0x00, 0x00, 0x00, 0x00, 0x00, 0x00, 0x00, 0x00, 0x00, 0x00, 0x00, 0x00, 0x00,
    0x00, 0x00, 0x00, 0x00, 0x00, 0x00, 0x00, 0x00, 0x00, 0x00, 0x00, 0x00, 0x00, 0x00, 0x00, 0x00]

/-- Its process. -/
def functionRetTruncHost : Host :=
  bytesHost functionRetTrunc (by decide +kernel)

/-- The state behind so many turns. -/
def functionRetTruncState (n : Nat) : VM :=
  stateAfter functionRetTruncHost (loadfile functionRetTruncHost) n

/-- Six instructions are in front of the two functions. -/
theorem functionRetTrunc_checked : Checked functionRetTruncHost 6 := by
  decide +kernel

/-- The state in the first function is inside the program. -/
theorem functionRetTrunc_inside :
    (functionRetTruncState 5).pc.toNat < (loadfile functionRetTruncHost).instrCnt ∧
      ((functionRetTruncState 5).pc.toNat < 6 ↔ (functionRetTruncState 5).contexts = []) ∧
      ∃ inst, current? functionRetTruncHost (loadfile functionRetTruncHost)
          (functionRetTruncState 5) = some inst ∧
        inst.Checked 6 (loadfile functionRetTruncHost).instrCnt (functionRetTruncState 5).pc :=
  checked_stays_inside functionRetTrunc_checked (reachable_stateAfter (by decide +kernel))

/-- The first function returns behind its call. -/
theorem functionRetTrunc_return :
    ∃ calls, steps (stepCalls functionRetTruncHost (loadfile functionRetTruncHost)) 8
          (vmInit functionRetTruncHost, []) = .ok (functionRetTruncState 8, calls) ∧
      ∃ pc rest call, calls = pc :: rest ∧
        callsBehind (functionRetTruncState 8) (functionRetTruncState 9) calls = rest ∧
        (functionRetTruncState 9).pc = pc + 1 ∧
        (functionRetTruncHost.program (loadfile functionRetTruncHost)).code pc = some call ∧
        call.op = some .call ∧
        (functionRetTruncState 8).base = (functionRetTruncState 9).base + call.a := by
  have hrun : run functionRetTruncHost (loadfile functionRetTruncHost) 8
      (vmInit functionRetTruncHost) = .ok (functionRetTruncState 8) :=
    run_stateAfter (by decide +kernel)
  rw [run_eq_steps] at hrun
  rcases exists_recorded hrun callsBehind [] with ⟨calls, hcalls⟩
  have hinst : current? functionRetTruncHost (loadfile functionRetTruncHost)
      (functionRetTruncState 8) = some ⟨some .ret, 3, 0, 0, 0⟩ := by decide +kernel
  exact ⟨calls, hcalls, checked_returns functionRetTrunc_checked hcalls hinst rfl
    (step_stateAfter (by decide +kernel) (by decide +kernel))⟩

end ClojitCvm
