import ClojitCvm.Machine.Endings
import ClojitCvm.Machine.FunctionValues
import ClojitCvm.Machine.IdealObjects

/-!
# Runs of the ideal machine

Every instruction does to the ideal state what the ideal machine does, and so does every
run.

Main results:

- Theorem {lit}`Refines.executeAt`: one turn of the switch, at any debug level.
- Theorem {lit}`run_ideal`: a run and a run of the ideal machine end in the same way, in
  states that show each other.
-/

namespace ClojitCvm

open ByteMemory CellArray LockStep Slot

namespace Refines

variable {level : Int} {host : Host} {sec : Sections} {vm vm' : VM} {p : Ideal}
    {a b c : Nat} {d : BitVec 16}

/-! ## Lines of the traced machine -/

/-- A line with a string is the machine's own, and so is the fault of its read. -/
theorem traceString_bind (h : Refines level host vm p) (sec : Sections) (name : String) (a : Nat)
    (d : BitVec 16) (tail : String) {f : VM → Outcome VM VM} {y : Outcome Ideal Ideal}
    (hf : ∀ vm', Refines level host vm' p → Mirrors level (Refines level host) (f vm') y) :
    Mirrors level (Refines level host)
      (vm.traceString level host sec name a d tail >>= f) y := by
  unfold VM.traceString
  by_cases hlevel : level > 0
  · rw [if_pos hlevel]
    unfold cstrAt
    cases sec.cstr[d.toNat]? with
    | none => exact .excuse hlevel
    | some q =>
        change Mirrors level _ ((nameAt host vm q >>= _) >>= f) _
        unfold nameAt
        cases host.cString q with
        | none => exact .excuse hlevel
        | some bytes => exact hf _ (h.setOut (h.printed.trace hlevel _) _)
  · rw [if_neg hlevel]
    exact hf vm h

/-! ## Constants and the symbol table -/

/-- The string of operand D. -/
theorem name_bind {β : Type} {R : VM → β → Prop} (vm : VM)
    (f : VM → List Byte → Outcome VM VM) (g : List Byte → Outcome Ideal β)
    (hfg : ∀ name, Mirrors level R (f vm name) (g name)) :
    Mirrors level R
      (do
        let (vm, q) ← cstrAt sec vm d
        let (vm, name) ← nameAt host vm q
        f vm name)
      (orWild ((host.program sec).name d) >>= g) := by
  unfold cstrAt
  simp only [Host.program, nameOf?]
  cases sec.cstr[d.toNat]? with
  | none => exact .error rfl
  | some q =>
      change Mirrors level R (nameAt host vm q >>= fun r => f r.1 r.2)
        (orWild (host.cString q) >>= g)
      unfold nameAt
      cases host.cString q with
      | none => exact .error rfl
      | some name => exact hfg name

/-- The instruction {lit}`CKEY`, whose pointer both machines take from the table of strings. -/
theorem execCkey (h : Refines level host vm p) (ha : a < 256) :
    Mirrors level (Refines level host) (execCkey sec vm a d)
      (p.execute (host.program sec) (some .ckey) a b c d) := by
  unfold ClojitCvm.execCkey cstrAt
  change Mirrors level _ _ (orWild (sec.cstr[d.toNat]?) >>= fun key => p.put a (.ofNat 64 key))
  cases sec.cstr[d.toNat]? with
  | none => exact .error rfl
  | some q => exact h.put (by omega) _

/-- An assignment to a name. -/
theorem addSymbolTablePair (h : Refines level host vm p) (name : List Byte) (value : Word) :
    Refines level host (vm.addSymbolTablePair name value)
      { p with globals := Function.update p.globals name value } := by
  rcases h.shows with ⟨out, rfl, hout⟩
  refine ⟨⟨⟨⟨h.wellFramed.slots, h.wellFramed.stack, h.wellFramed.ordered⟩, h.inOrder.fits⟩,
    h.inOrder.headed⟩, out, ?_, hout⟩
  have htable : (vm.addSymbolTablePair name value).getSymbolTable =
      Function.update vm.getSymbolTable name value := by
    funext key
    rw [VM.getSymbolTable_eq]
    by_cases hkey : key = name
    · subst hkey
      rw [VM.lookup_addSymbolTablePair_self, Function.update_self]
      rfl
    · rw [VM.lookup_addSymbolTablePair_of_ne vm value hkey, Function.update_of_ne hkey,
        VM.getSymbolTable_eq]
  simp only [VM.idealWith, VM.ideal, htable]
  rfl

/-- The instruction {lit}`NSSET` binds the same name. -/
theorem execNsset (h : Refines level host vm p) (ha : a < 256) :
    Mirrors level (Refines level host) (execNsset host sec vm a d)
      (p.execute (host.program sec) (some .nsset) a b c d) := by
  refine (h.get (by omega)).bind ?_
  rintro ⟨read, value⟩ _ ⟨rfl, hread⟩
  exact name_bind read (fun vm name => .ok (vm.addSymbolTablePair name value).next)
    (fun name => .ok { p.next with globals := Function.update p.globals name value })
    fun name => .ok (hread.addSymbolTablePair name value).next

/-- The globals are what the symbol table answers. -/
theorem globals_eq (h : Refines level host vm p) : p.globals = vm.getSymbolTable := by
  rcases h.shows with ⟨out, rfl, _⟩
  rfl

/-- The instruction {lit}`NSGET` reads the same value. -/
theorem execNsget (h : Refines level host vm p) (ha : a < 256) :
    Mirrors level (Refines level host) (execNsget host sec vm a d)
      (p.execute (host.program sec) (some .nsget) a b c d) := by
  refine name_bind vm (fun vm name => do
    let vm ← vm.set a (vm.getSymbolTable name)
    return vm.next) (fun name => p.put a (p.globals name)) fun name => ?_
  rw [h.globals_eq]
  exact h.put (by omega) _

/-! ## Arithmetic -/

/-- Storing the result of an operation on integers. -/
theorem setInt (h : Refines level host vm p) (ha : a < 256) (result : Option (BitVec 32)) :
    Mirrors level (Refines level host) (setInt vm a result) (p.setInt a result) := by
  cases result with
  | none => exact .error rfl
  | some num => exact h.set (by omega) _

/-- The cases behind the reads of the operands. -/
theorem arithCases (h : Refines level host vm p) (ha : a < 256) (op : Arith) (x y : Word) :
    Mirrors level (Refines level host)
      (do let vm ← arithCases op host vm a x y; return vm.next)
      (if isSmallInt x && isSmallInt y then do
        let p ← p.setInt a (op.int (getSmallInt x) (getSmallInt y))
        return p.next
      else if Ideal.loadsDouble x y then .error (.fault .wildRead)
      else return p.next) := by
  have hfault {slot : Word} {f : VM × Double → Outcome VM VM} (hdouble : isDouble slot = true) :
      Mirrors level (Refines level host)
        ((vm.getDouble host slot >>= f) >>= fun vm => return vm.next)
        (.error (.fault .wildRead) : Outcome Ideal Ideal) := by
    rw [h.getDouble_eq hdouble]
    exact .error rfl
  unfold ClojitCvm.arithCases Ideal.loadsDouble
  by_cases hints : (isSmallInt x && isSmallInt y) = true
  · rw [if_pos hints, if_pos hints]
    exact andNext (h.setInt ha _)
  · rw [if_neg hints, if_neg hints]
    cases hx : isDouble x with
    | true =>
        cases hy : isDouble y with
        | true => exact hfault hx
        | false =>
            cases hy' : isSmallInt y with
            | true => exact hfault hx
            | false =>
                rw [Bool.and_false (isSmallInt x)]
                exact .ok h.next
    | false =>
        cases hmixed : isSmallInt x && isDouble y with
        | true => exact hfault (Bool.and_eq_true_iff.mp hmixed).2
        | false => exact .ok h.next

/-- The arithmetic instructions: where an operand is a double, both machines meet the same
fault. -/
theorem execArith (h : Refines level host vm p) (ha : a < 256) (hb : b < 256) (hc : c < 256)
    (op : Arith) :
    Mirrors level (Refines level host) (execArith op host vm a b c) (p.arith op.int a b c) := by
  refine (h.get (by omega)).bind ?_
  rintro ⟨first, x⟩ _ ⟨rfl, hfirst⟩
  refine (hfirst.get (by omega)).bind ?_
  rintro ⟨second, y⟩ _ ⟨rfl, hsecond⟩
  exact hsecond.arithCases ha op x y

/-- The arithmetic instructions with the line of the trace in front. -/
theorem execArithAt (h : Refines level host vm p) (ha : a < 256) (hb : b < 256) (hc : c < 256)
    (name : String) (op : Arith) :
    Mirrors level (Refines level host) (execArithAt level name op host vm a b c)
      (p.arith op.int a b c) := by
  refine (h.get (by omega)).bind ?_
  rintro ⟨first, x⟩ _ ⟨rfl, hfirst⟩
  refine (hfirst.get (by omega)).bind ?_
  rintro ⟨second, y⟩ _ ⟨rfl, hsecond⟩
  exact (hsecond.trace (abcText name a b c)).arithCases ha op x y

/-- The remainder, with or without its line. -/
theorem execModvvAt (h : Refines level host vm p) (ha : a < 256) (hb : b < 256)
    (hc : c < 256) :
    Mirrors level (Refines level host) (execModvvAt level vm a b c) (p.modulo a b c) := by
  refine (h.get (by omega)).bind ?_
  rintro ⟨first, x⟩ _ ⟨rfl, hfirst⟩
  refine (hfirst.get (by omega)).bind ?_
  rintro ⟨second, y⟩ _ ⟨rfl, hsecond⟩
  have htraced := hsecond.trace (abcText "MODVV" a b c)
  refine Follows.ite Iff.rfl (fun _ => ?_) fun _ => ?_
  · exact andNext (htraced.setInt ha _)
  · exact .error ⟨rfl, rfl, htraced.shows⟩

/-- The comparison. -/
theorem execIseq (h : Refines level host vm p) (ha : a < 256) (hb : b < 256) (hc : c < 256) :
    Mirrors level (Refines level host) (execIseq host vm a b c) (p.isEqual a b c) := by
  refine (h.get (by omega)).bind ?_
  rintro ⟨first, x⟩ _ ⟨rfl, hfirst⟩
  refine (hfirst.get (by omega)).bind ?_
  rintro ⟨second, y⟩ _ ⟨rfl, hsecond⟩
  refine Follows.ite Iff.rfl (fun _ => hsecond.next.set (by omega) _) fun _ => ?_
  refine Follows.ite Iff.rfl (fun hdouble => ?_) fun _ => ?_
  · rw [Bool.and_eq_true] at hdouble
    rw [hsecond.next.getDouble_eq hdouble.1]
    exact .error rfl
  · exact .error ⟨rfl, rfl, hsecond.next.shows⟩

/-! ## Moves and jumps -/

/-- The instruction {lit}`MOV`. -/
theorem execMov (h : Refines level host vm p) (ha : a < 256) :
    Mirrors level (Refines level host) (execMov vm a d)
      (p.execute (host.program sec) (some .mov) a b c d) := by
  have hd := d.isLt
  exact andNext (h.move (by omega) (by omega))

/-- The instruction {lit}`BULKMOV`, with or without its line. -/
theorem execBulkmovAt (h : Refines level host vm p) (ha : a < 256) (hb : b < 256)
    (hc : c < 256) :
    Mirrors level (Refines level host) (execBulkmovAt level vm a b c)
      (p.execute (host.program sec) (some .bulkmov) a b c d) := by
  refine (h.bulkMove (by omega) (by omega)).bind fun moved p' hmoved => ?_
  exact .ok (hmoved.trace _).next

/-- The jump on false, which prints one line. -/
theorem execJumpf (h : Refines level host vm p) (ha : a < 256) :
    Mirrors level (Refines level host) (execJumpf vm a d) (p.branch isFalsy 1 a d) := by
  refine (h.get (by omega)).bind ?_
  rintro ⟨read, slot⟩ _ ⟨rfl, hread⟩
  refine .ok ?_
  have hprinted := hread.print truthText
  split
  · exact hprinted.jump d
  · exact hprinted.next

/-- The jump on true, which prints two. -/
theorem execJumpt (h : Refines level host vm p) (ha : a < 256) :
    Mirrors level (Refines level host) (execJumpt vm a d) (p.branch isTruthy 2 a d) := by
  refine (h.get (by omega)).bind ?_
  rintro ⟨read, slot⟩ _ ⟨rfl, hread⟩
  refine .ok ?_
  have hprinted : Refines level host ((read.print truthText).print truthText)
      { p with out := p.out ++ List.replicate 2 truthText } := by
    have hboth := (hread.print truthText).print truthText
    rwa [show (p.print truthText).print truthText =
      { p with out := p.out ++ List.replicate 2 truthText } by
        simp [Ideal.print, List.append_assoc]] at hboth
  split
  · exact hprinted.jump d
  · exact hprinted.next

/-! ## Calls -/

/-- A write leaves its slot in use. -/
theorem lt_length_of_set {p' : Ideal} {i : Nat} {word : Word} (hset : p.set i word = .ok p') :
    p'.base = p.base ∧ p.base + i < p'.words.length ∧ p.words.length ≤ p'.words.length := by
  unfold Ideal.set at hset
  split at hset
  · cases hset
    refine ⟨rfl, ?_, ?_⟩ <;> simp only [length_assign] <;> omega
  · cases hset

/-- The call of {lit}`println`, or of an address where there is nothing to call. -/
theorem callBuiltin (h : Refines level host vm p) (ha : a < 256) (fn : Word) :
    Mirrors level (Refines level host) (callBuiltin host vm fn a)
      (p.callBuiltin (host.program sec) fn a) := by
  unfold ClojitCvm.callBuiltin Ideal.callBuiltin builtinPrintln
  refine Follows.ite Iff.rfl (fun _ => ?_) fun _ => .error rfl
  rw [bind_assoc]
  refine (h.get (by omega)).bind ?_
  rintro ⟨read, slot⟩ _ ⟨rfl, hread⟩
  rw [bind_assoc]
  refine (hread.printlnSlot sec slot).bind ?_
  rintro text _ rfl
  refine (((hread.print text).print "\n").set (by omega) getNil).bind fun set p₁ hset => ?_
  refine (hset.clearSlots (by omega)).bind fun cleared p₂ hcleared => ?_
  refine hcleared.leave.bind ?_
  rintro ⟨left, caller⟩ p₃ hleft
  exact .ok hleft.next

/-- The error of a call, with its dump of the slots. -/
theorem callError (h : Refines level host vm p) :
    Mirrors level (Refines level host) (callError host vm)
      (do
        let p ← p.printSlots (host.program sec)
        .error (.exit 0 p ["\nCALL ERROR NO FUNC\n\n"])) :=
  (h.printSlots sec).bind fun _ _ hprinted => .error ⟨rfl, rfl, hprinted.shows⟩

/-- The instruction {lit}`CALL`, with or without its lines. -/
theorem execCallAt (h : Refines level host vm p) (ha : a < 256) (lit : BitVec 16) :
    Mirrors level (Refines level host) (execCallAt level host vm a lit)
      (p.call (host.program sec) a) := by
  have htraced := h.trace ("CALL " ++ toString a ++ " " ++ toString lit.toNat)
  unfold ClojitCvm.execCallAt Ideal.call
  rw [h.pc_eq, show vm.pc = (vm.trace level ("CALL " ++ toString a ++ " " ++
    toString lit.toNat)).pc by unfold VM.trace; split <;> rfl]
  refine ((htraced.set (by omega) _).and_right fun p' hset => lt_length_of_set hset).bind ?_
  rintro stored p₁ ⟨hstored, hbase, hlt, _⟩
  refine (hstored.get (by omega)).bind ?_
  rintro ⟨read, fn⟩ _ ⟨rfl, hread⟩
  have hlooked : Refines level host (if isFnew fn then read.trace level " -> is func\n"
      else if isBuiltin fn then read.trace level " -> is builtin\n" else read) p₁ := by
    split
    · exact hread.trace _
    · split
      · exact hread.trace _
      · exact hread
  dsimp only
  generalize (if isFnew fn then read.trace level " -> is func\n"
    else if isBuiltin fn then read.trace level " -> is builtin\n" else read) = looked at hlooked ⊢
  cases calledFunc fn with
  | none => exact hlooked.callError
  | some func =>
      have hle : looked.base + a ≤ looked.words.length := by
        rw [← hlooked.base_eq, ← hlooked.words_eq, hbase]
        omega
      refine (hlooked.enter (by omega) hle func).bind fun entered p₂ hentered => ?_
      refine Follows.ite Iff.rfl (fun _ => hentered.callBuiltin ha fn) fun _ => ?_
      exact .ok ((hentered.trace _).setPc _)

/-- A move reads a slot in use and leaves it so. -/
theorem le_length_of_move {p' : Ideal} {target source : Nat}
    (hmove : p.move target source = .ok p') : p'.base + source ≤ p'.words.length := by
  rcases bind_eq_ok.mp hmove with ⟨word, hget, hset⟩
  rcases lt_length_of_set hset with ⟨hbase, _, hle⟩
  unfold Ideal.get at hget
  split at hget
  · next hword =>
    have := (List.getElem?_eq_some_iff.mp hword).1
    omega
  · cases hget

/-- The instruction {lit}`RET`: what it moved from the frame was there, so the cut is inside. -/
theorem execRet (h : Refines level host vm p) (ha : a < 256) :
    Mirrors level (Refines level host) (execRet vm a) (p.ret a) := by
  refine (h.get (by omega)).bind ?_
  rintro ⟨read, slot⟩ _ ⟨rfl, hread⟩
  refine ((hread.move (by omega) (by omega)).and_right fun p' hmove =>
    le_length_of_move hmove).bind ?_
  rintro moved p₁ ⟨hmoved, hle⟩
  have htruncated := hmoved.truncate (a := a) (by omega) (by
    rw [← hmoved.base_eq, ← hmoved.words_eq]
    exact hle)
  refine htruncated.leave.bind ?_
  rintro ⟨left, caller⟩ p₂ hleft
  exact .ok (hleft.setPc _)

/-! ## Objects -/

/-- The instruction {lit}`ALLOC`. -/
theorem execAlloc (h : Refines level host vm p) (ha : a < 256) :
    Mirrors level (Refines level host) (execAlloc host sec vm a d)
      (p.execute (host.program sec) (some .alloc) a b c d) := by
  unfold ClojitCvm.execAlloc
  change Mirrors level _ _ (orWild (typesAt host sec d.toNat) >>= _)
  cases typesAt host sec d.toNat with
  | none => exact .error rfl
  | some record =>
      refine (h.get (by omega)).bind ?_
      rintro ⟨read, word⟩ _ ⟨rfl, hread⟩
      refine (hread.mpsAllocObj sec record).bind ?_
      rintro ⟨allocated, addr⟩ p₁ hallocated
      exact .ok (Refines.next hallocated)

/-- The instruction {lit}`SETFIELD`. -/
theorem execSetfield (h : Refines level host vm p) (ha : a < 256) (hc : c < 256) :
    Mirrors level (Refines level host) (execSetfield vm a b c)
      (p.execute (host.program sec) (some .setfield) a b c d) := by
  refine (h.get (by omega)).bind ?_
  rintro ⟨first, obj⟩ _ ⟨rfl, hfirst⟩
  refine (hfirst.get (by omega)).bind ?_
  rintro ⟨second, value⟩ _ ⟨rfl, hsecond⟩
  exact andNext (hsecond.storeRef obj.toNat b value)

/-- The instruction {lit}`GETFIELD`. -/
theorem execGetfield (h : Refines level host vm p) (ha : a < 256) (hb : b < 256) :
    Mirrors level (Refines level host) (execGetfield host vm a b c)
      (p.execute (host.program sec) (some .getfield) a b c d) := by
  refine (h.get (by omega)).bind ?_
  rintro ⟨read, obj⟩ _ ⟨rfl, hread⟩
  refine (hread.loadRef sec obj.toNat c).bind ?_
  rintro word _ rfl
  exact hread.put (by omega) word

/-! ## Turns and runs -/

/-- One turn of the switch at a debug level. -/
theorem executeAt (h : Refines level host vm p) (sec : Sections) (op : Option Opcode)
    (number : Byte) (ha : a < 256) (hb : b < 256) (hc : c < 256) (d : BitVec 16) :
    Mirrors level (Refines level host) (executeAt level host sec vm op number a b c d)
      (p.execute (host.program sec) op a b c d) := by
  have htraced := h.trace (frontText op number a b c d)
  cases op with
  | none => exact .ok htraced.next
  | some op =>
      cases op with
      | cstr =>
          exact h.traceString_bind sec "CSTR" a d "\n" fun _ hline => hline.put (by omega) _
      | nsget =>
          exact h.traceString_bind sec "NSGET" a d "\n " fun _ hline => hline.execNsget ha
      | ctype | cbool | cnil | cshort | fnew => exact htraced.put (by omega) _
      | ckey => exact htraced.execCkey ha
      | nsset => exact htraced.execNsset ha
      | addvv | subvv | mulvv => exact h.execArithAt ha hb hc _ _
      | divvv => exact htraced.execArith ha hb hc divvv
      | modvv => exact h.execModvvAt ha hb hc
      | iseq => exact htraced.execIseq ha hb hc
      | mov => exact htraced.execMov ha
      | bulkmov => exact h.execBulkmovAt ha hb hc
      | jump => exact .ok (htraced.jump d)
      | jumpf => exact htraced.execJumpf ha
      | jumpt => exact htraced.execJumpt ha
      | call => exact h.execCallAt ha d
      | ret => exact htraced.execRet ha
      | loop => exact .ok htraced
      | alloc => exact htraced.execAlloc ha
      | setfield => exact htraced.execSetfield ha hc
      | getfield => exact htraced.execGetfield ha hb
      | exit => exact .error ⟨rfl, rfl, htraced.next.shows⟩
      | cint | cfloat | setf | powvv | islt | isge | isle | isgt | isneq | not | neg | apply
      | vfnew | getfreevar | uclo | newarray | getarray | setarray | funcf | funcv | «break»
      | drop | tranc => exact .ok htraced.next

/-- A dump changes the output alone. -/
theorem printSlotsFrom_eq_ok {prog : Program} {turns index : Nat} {p' : Ideal}
    (hok : Ideal.printSlotsFrom prog turns index p = .ok p') :
    ∃ texts, p' = { p with out := p.out ++ texts } := by
  induction turns generalizing p index with
  | zero => cases hok
  | succ turns ih =>
      obtain ⟨bar, hbar⟩ : ∃ bar, (if p.base = index then p.print "| " else p) =
          { p with out := p.out ++ bar } := by
        split
        · exact ⟨_, rfl⟩
        · exact ⟨[], by rw [List.append_nil]⟩
      unfold Ideal.printSlotsFrom at hok
      rw [hbar] at hok
      dsimp only at hok
      split at hok
      · rcases bind_eq_ok.mp hok with ⟨text, _, hrest⟩
        split at hrest
        · cases hrest
          exact ⟨bar ++ ([text] ++ ([" "] ++ ["\n"])), by simp [Ideal.print]⟩
        · rcases ih hrest with ⟨texts, rfl⟩
          exact ⟨bar ++ ([text] ++ ([" "] ++ texts)), by simp [Ideal.print]⟩
      · rcases ih hok with ⟨texts, rfl⟩
        exact ⟨bar ++ texts, by simp⟩

/-- The dump of a traced machine is its own. -/
theorem dump (h : Refines level host vm p) (hlevel : level > 0) :
    Mirrors level (Refines level host) (ClojitCvm.printSlots host vm vm.base) (.ok p) := by
  have hends : Ends (ClojitCvm.printSlots host vm vm.base) (fun _ => True) (fun _ _ _ => False) :=
    printSlotsFrom_ends _ _ _
  have hdump := h.printSlots .zero
  generalize ClojitCvm.printSlots host vm vm.base = x at hends hdump ⊢
  rcases x with (⟨status, state, printed⟩ | why) | last
  · exact hends.elim
  · exact .excuse hlevel
  · rcases hdump.of_ok with ⟨p', hp', hlast⟩
    rcases printSlotsFrom_eq_ok hp' with ⟨texts, rfl⟩
    rcases hlast.shows with ⟨out, heq, hout⟩
    refine .ok ⟨hlast.inOrder, p.out, ?_, ?_⟩
    · have hquiet := congrArg (fun q : Ideal => { q with out := p.out }) heq
      exact hquiet
    · have hlong := hlast.printed
      unfold Printed at hlong ⊢
      rw [if_pos hlevel] at hlong ⊢
      exact (List.sublist_append_left p.out texts).trans hlong

/-- One turn of the loop at a debug level. -/
theorem stepAt (h : Refines level host vm p) (sec : Sections) :
    Mirrors level (Refines level host) (stepAt level host sec vm)
      (p.step (host.program sec)) := by
  unfold ClojitCvm.stepAt Ideal.step
  rw [h.pc_eq]
  simp only [Host.program]
  cases instrAt host sec vm.pc with
  | none => exact .error rfl
  | some word =>
      rcases VM.decode_lt word with ⟨ha, hb, hc⟩
      have hturn := h.executeAt sec (decode word).op (OpABC.ofInstr word).op ha hb hc
        (decode word).d
      refine hturn.bind_left fun executed p' hexecuted => ?_
      split
      · next hlevel => exact hexecuted.dump hlevel
      · exact .ok hexecuted

/-- A run at a debug level. -/
theorem runAt (h : Refines level host vm p) (sec : Sections) (n : Nat) :
    Mirrors level (Refines level host) (runAt level host sec n vm)
      (p.run (host.program sec) n) :=
  Follows.steps (fun _ _ hturn => hturn.stepAt sec) n h

end Refines

/-! ## States in order -/

namespace VM

variable {host : Host} {sec : Sections} {vm vm' : VM}

/-- A machine in order shows its own ideal state. -/
theorem InOrder.refines (h : vm.InOrder host) : Refines 0 host vm vm.ideal :=
  ⟨h, vm.out, rfl, Printed.refl 0 vm.out⟩

/-- The machine starts without objects. -/
theorem vmInit_inOrder (host : Host) : (vmInit host).InOrder host :=
  ⟨⟨vmInit_wellFramed host, host.fits_nil⟩, fun _ hblock => absurd hblock List.not_mem_nil⟩

/-- Objects keep their headers, and new ones get the size of their block. -/
theorem InOrder.step (h : vm.InOrder host) (hok : step host sec vm = .ok vm') :
    vm'.InOrder host := by
  have hturn := h.refines.stepAt sec
  rw [stepAt_zero, hok] at hturn
  rcases hturn.of_ok with ⟨p', _, hnext⟩
  exact hnext.inOrder

end VM

/-- All reachable states are in order. -/
theorem Reachable.inOrder {host : Host} {sec : Sections} {vm : VM}
    (h : Reachable host sec vm) : vm.InOrder host := by
  induction h with
  | init => exact VM.vmInit_inOrder host
  | step _ hok ih => exact ih.step hok

/-- The ideal machine starts where the machine starts. -/
theorem vmInit_ideal (host : Host) (sec : Sections) :
    (vmInit host).ideal = .init (host.program sec) := by
  have htable : (vmInit host).getSymbolTable =
      Function.update (fun _ => 0#64) printlnName (toBuiltin host.println) := by
    funext name
    by_cases hname : name = printlnName
    · subst hname
      rw [Function.update_self]
      exact congrArg (fun o => Option.getD o 0#64)
        (VM.lookup_addSymbolTablePair_self (.zero host) printlnName _)
    · rw [Function.update_of_ne hname]
      exact congrArg (fun o => Option.getD o 0#64)
        (VM.lookup_addSymbolTablePair_of_ne (.zero host) _ hname)
  unfold VM.ideal
  rw [htable]
  rfl

/-! ## The machine and the ideal machine -/

/-- How a process ends or goes on, as the ideal machine sees it. -/
def idealOutcome : Outcome VM VM → Outcome Ideal Ideal
  | .ok vm => .ok vm.ideal
  | .error (.exit status vm printed) => .error (.exit status vm.ideal printed)
  | .error (.fault why) => .error (.fault why)

/-- At level zero the ideal machine does the same. -/
theorem Mirrors.eq_ideal {host : Host} {x : Outcome VM VM} {y : Outcome Ideal Ideal}
    (h : Mirrors 0 (Refines 0 host) x y) : idealOutcome x = y := by
  have hshows {vm : VM} {p : Ideal} (hshows : Shows 0 vm p) : vm.ideal = p := by
    rcases hshows with ⟨out, rfl, hout⟩
    rw [hout.zero]
    rfl
  rcases h with @⟨e, _, hexcused⟩ | @⟨e, e', hsame⟩ | @⟨vm, p, hrefines⟩
  · cases e with
    | fault why => exact absurd hexcused (Int.lt_irrefl 0)
    | exit => exact hexcused.elim
  · cases e with
    | fault why =>
        cases e' with
        | fault why' =>
            have hwhy : why = why' := hsame
            rw [hwhy]
            rfl
        | exit => exact hsame.elim
    | exit status vm printed =>
        cases e' with
        | fault why' => exact hsame.elim
        | exit status' p printed' =>
            rcases hsame with ⟨rfl, rfl, hstate⟩
            rw [idealOutcome, hshows hstate]
  · rw [idealOutcome, hshows hrefines.shows]

/-- From any state of a run the ideal machine goes the same way. -/
theorem Reachable.run_ideal {host : Host} {sec : Sections} {vm : VM}
    (h : Reachable host sec vm) (n : Nat) :
    idealOutcome (ClojitCvm.run host sec n vm) = vm.ideal.run (host.program sec) n := by
  have hrun := h.inOrder.refines.runAt sec n
  rw [runAt_zero] at hrun
  exact hrun.eq_ideal

/-- The machine refines the ideal machine: after any number of turns of any program it has
the ideal state, or has exited with the same status, the same text and the same ideal state,
or has met the same fault. -/
theorem run_refines_ideal (host : Host) (sec : Sections) (n : Nat) :
    idealOutcome (run host sec n (vmInit host)) =
      (Ideal.init (host.program sec)).run (host.program sec) n := by
  rw [Reachable.init.run_ideal n, vmInit_ideal host sec]

end ClojitCvm
