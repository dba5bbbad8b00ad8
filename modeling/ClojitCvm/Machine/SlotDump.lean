import ClojitCvm.Machine.DoubleSlots
import ClojitCvm.Machine.Endings

/-!
# The dump of the slots

At a debug level above zero the machine prints all slots after every instruction.  The
loop reads the slots with {lit}`slots_get` and ends when its index, a C {lit}`int`, is
the size after an increment.

Main results:

- Theorem {lit}`exists_printSlot_eq_ok`: which words {lit}`print_slot` comes back from.
- Theorem {lit}`dumpsFaithfully_iff`: the dump shows every slot once and in order, and
  leaves the slots as they are, exactly when there is a slot, the index reaches the size
  and every word can be printed.
-/

namespace ClojitCvm

open CellArray Slot

/-! ## Printing one slot -/

/-- A pointer is not printed as an immediate. -/
theorem isPointer_tests {slot : Word} (h : isPointer slot = true) :
    isSmallInt slot = false ∧ isNil slot = false ∧ immediateText slot = none := by
  simp only [isPointer, Bool.and_eq_true, Bool.not_eq_true', Bool.or_eq_true, beq_iff_eq] at h
  rcases h with ⟨hnil, htag⟩
  have hne (t : BitVec 16) (ht : t ≠ tagPointerLo ∧ t ≠ tagPointerHi) :
      (tag slot == t) = false := by
    rw [beq_eq_false_iff_ne]
    rintro rfl
    exact htag.elim ht.1 ht.2
  refine ⟨hne _ (by decide), hnil, ?_⟩
  unfold immediateText isFnew isBuiltin isType
  rw [hne tagFnew (by decide), hne tagBuiltin (by decide), hne tagType (by decide)]
  rfl

/-- A double is not printed as an immediate or a pointer. -/
theorem isDouble_tests {slot : Word} (h : isDouble slot = true) :
    isSmallInt slot = false ∧ isNil slot = false ∧ immediateText slot = none ∧
      isPointer slot = false := by
  have hkind := (holds_iff_double slot).mpr h
  have hanswer (k : Kind) (hk : k ≠ .double) : k.holds slot = false := by
    rw [← Bool.not_eq_true, hkind k]
    exact hk
  refine ⟨hanswer .smallInt (by decide), hanswer .nil (by decide), ?_,
    hanswer .pointer (by decide)⟩
  unfold immediateText
  rw [show isFnew slot = false from hanswer .fnew (by decide),
    show isBuiltin slot = false from hanswer .builtin (by decide),
    show isType slot = false from hanswer .type (by decide)]
  rfl

/-- The memory that {lit}`print_slot` reads for a word is there: the header and the
fields of an object, which can be printed in turn, and what a double is taken to
address. -/
def Printable (host : Host) (vm : VM) : (depth : Nat) → Word → Prop
  | 0, _ => False
  | depth + 1, slot =>
      (isPointer slot = true → ∃ cljtype size,
        vm.loadThrough host slot.toNat (slot.toNat + 2) 2 = .ok cljtype ∧
        vm.loadThrough host slot.toNat (slot.toNat + 4) 4 = .ok size ∧
        ∀ i < fieldTurns size, ∃ word, vm.loadRef host slot.toNat i = .ok word ∧
          Printable host vm depth word) ∧
      (isDouble slot = true → ∃ bits, vm.loadThrough host (invertNonNegative slot).toNat
        (invertNonNegative slot).toNat 8 = .ok bits)

section Printing

variable {host : Host} {vm : VM}

/-- An object is printed when its header is read and all its fields are printed. -/
theorem exists_printObject_eq_ok {printField : Word → Outcome VM String} {slot : Word} :
    (∃ text, printObject host vm printField slot = .ok text) ↔ ∃ cljtype size,
      vm.loadThrough host slot.toNat (slot.toNat + 2) 2 = .ok cljtype ∧
      vm.loadThrough host slot.toNat (slot.toNat + 4) 4 = .ok size ∧
      ∀ i < fieldTurns size, ∃ word, vm.loadRef host slot.toNat i = .ok word ∧
        ∃ text, printField word = .ok text := by
  have hrest (fields : List String) (cljtype size : Nat) : ∃ text, (pure
      ("( [cljtype: " ++ toString cljtype ++ ", size: " ++ formatD (.ofNat 32 size) ++ "] " ++
        String.join fields ++ ") ") : Outcome VM String) = .ok text := ⟨_, rfl⟩
  unfold printObject
  simp only [exists_bind_eq_ok, hrest, and_true, exists_mapM_eq_ok, List.mem_range,
    exists_and_left]

theorem exists_getDouble_eq_ok {slot : Word} (h : isDouble slot = true) :
    (∃ read, vm.getDouble host slot = .ok read) ↔
      ∃ bits, vm.loadThrough host (invertNonNegative slot).toNat
        (invertNonNegative slot).toNat 8 = .ok bits := by
  have hread (bits : Nat) : ∃ read,
      (pure (vm, .ofNat 64 bits) : Outcome VM (VM × Double)) = .ok read := ⟨_, rfl⟩
  unfold VM.getDouble
  simp only [h, if_true, exists_bind_eq_ok, hread, and_true]

/-- Exactly the printable words are printed. -/
theorem exists_printSlot_eq_ok (depth : Nat) (slot : Word) :
    (∃ text, printSlot host vm depth slot = .ok text) ↔ Printable host vm depth slot := by
  induction depth generalizing slot with
  | zero =>
      refine iff_of_false ?_ id
      rintro ⟨text, h⟩
      cases h
  | succ depth ih =>
      unfold printSlot Printable
      by_cases hpointer : isPointer slot = true
      · rcases isPointer_tests hpointer with ⟨hint, hnil, htext⟩
        have hdouble : isDouble slot ≠ true := by
          intro hdouble
          rw [(isDouble_tests hdouble).2.2.2] at hpointer
          cases hpointer
        rw [hint, hnil, htext]
        simp only [Bool.false_eq_true, if_false, hpointer, if_true, exists_printObject_eq_ok, ih,
          forall_true_left, hdouble, false_implies, and_true]
      · by_cases hdouble : isDouble slot = true
        · rcases isDouble_tests hdouble with ⟨hint, hnil, htext, -⟩
          rw [hint, hnil, htext]
          have hformat (num : Double) : ∃ text,
              (pure ("f" ++ host.float.format num) : Outcome VM String) = .ok text := ⟨_, rfl⟩
          simp only [Bool.false_eq_true, if_false, hpointer, hdouble, if_true, false_implies,
            true_and, forall_true_left, exists_bind_eq_ok, hformat, and_true,
            exists_getDouble_eq_ok hdouble]
        · refine iff_of_true ?_ ⟨fun h => absurd h hpointer, fun h => absurd h hdouble⟩
          rw [if_neg hpointer, if_neg hdouble]
          split
          · exact ⟨_, rfl⟩
          · split
            · exact ⟨_, rfl⟩
            · split <;> exact ⟨_, rfl⟩

/-! ## The loop -/

/-- A read does not enlarge the array. -/
theorem capacity_le_of_slotsGet {slots slots' : Slots} {index : Nat} {word : Word}
    (h : slotsGet slots index = .ok (slots', word)) : slots'.capacity ≤ slots.capacity := by
  rcases bind_eq_ok.mp h with ⟨halved, hhalve, hread⟩
  have heq : halved = slots' := by
    split at hread
    · cases hread
    · split at hread <;> cases hread
      rfl
  subst heq
  unfold halveIfSparse slotsHalfCapacity moveTo at hhalve
  split at hhalve
  · split at hhalve
    · cases hhalve
    · cases hhalve
      exact Nat.div_le_self _ _
  · cases hhalve
    exact Nat.le_refl _

/-- What the dump prints from an index on: each text with a space behind it, a bar in
front of the base, and a newline at the end. -/
def dumpText (base : Nat) : (index : Nat) → List String → List String
  | _, [] => ["\n"]
  | index, text :: texts =>
      (if base = index then ["| "] else []) ++ text :: " " :: dumpText base (index + 1) texts

/-- One text for each word. -/
def Texts (host : Host) (vm : VM) (words : List Word) (texts : List String) : Prop :=
  List.Forall₂ (fun word text => printSlot host vm host.nativeLimit word = .ok text) words texts

theorem exists_texts_iff (words : List Word) :
    (∃ texts, Texts host vm words texts) ↔
      ∀ word ∈ words, Printable host vm host.nativeLimit word := by
  induction words with
  | nil => exact iff_of_true ⟨[], .nil⟩ fun _ hword => absurd hword List.not_mem_nil
  | cons word words ih =>
      rw [List.forall_mem_cons, ← ih, ← exists_printSlot_eq_ok]
      constructor
      · rintro ⟨_, _ | ⟨htext, htexts⟩⟩
        exact ⟨⟨_, htext⟩, _, htexts⟩
      · rintro ⟨⟨text, htext⟩, texts, htexts⟩
        exact ⟨text :: texts, .cons htext htexts⟩

/-- The state while slots are printed, with the marks of the texts. -/
def dumping (vm : VM) (slots : Slots) (out : List String) (marks : List Nat) : VM :=
  { vm with slots := slots, out := out, marks := marks }

/-- One turn of the loop with a slot at the index. -/
theorem printSlotsFrom_succ (host : Host) (vm : VM) (base turns : Nat) {slots : Slots}
    {words : List Word} (h : slots.Represents words) {index : Nat} {word : Word}
    (hword : words[index]? = some word) (out : List String) (marks : List Nat) :
    ∃ slots', slots'.Represents words ∧ slots'.capacity ≤ slots.capacity ∧
      match printSlot host vm host.nativeLimit word with
      | .ok text => ∃ marks',
          printSlotsFrom host base (turns + 1) index (dumping vm slots out marks) =
            if index + 1 = words.length then
              .ok (dumping vm slots'
                (out ++ (if base = index then ["| "] else []) ++ [text, " "] ++ ["\n"]) marks')
            else printSlotsFrom host base turns (index + 1) (dumping vm slots'
              (out ++ (if base = index then ["| "] else []) ++ [text, " "]) marks')
      | .error halt =>
          printSlotsFrom host base (turns + 1) index (dumping vm slots out marks) =
            .error halt := by
  rcases h.get index with ⟨slots', hrep, hget⟩
  rw [hword] at hget
  refine ⟨slots', hrep, capacity_le_of_slotsGet hget, ?_⟩
  have hlt : index < slots.size := by
    rw [h.size_eq]
    exact (List.getElem?_eq_some_iff.mp hword).1
  have hbar : ∃ marks', (if base = index then (dumping vm slots out marks).print "| "
        else dumping vm slots out marks) =
      dumping vm slots (out ++ if base = index then ["| "] else []) marks' := by
    split
    · exact ⟨_, rfl⟩
    · exact ⟨marks, by rw [List.append_nil]⟩
  rcases hbar with ⟨barMarks, hbar⟩
  have hslot : printSlot host
      (dumping vm slots' (out ++ if base = index then ["| "] else []) barMarks)
      host.nativeLimit word = printSlot host vm host.nativeLimit word :=
    printSlot_congr (u := dumping vm slots' _ _) (v := vm) rfl rfl _ _
  rw [printSlotsFrom, hbar]
  simp only [dumping] at hslot ⊢
  simp only [hlt, if_true, VM.onSlots, hget, bind, Except.bind, hslot]
  cases printSlot host vm host.nativeLimit word with
  | error halt => rfl
  | ok text =>
      simp only [VM.print, hrep.size_eq, List.append_assoc, List.cons_append, List.nil_append]
      split <;> exact ⟨_, rfl⟩

/-- The loop from an index on, where the texts of the words from there on are known. -/
theorem printSlotsFrom_spec (base : Nat) {turns index : Nat} {slots : Slots} {words : List Word}
    (h : slots.Represents words) (hindex : index < words.length)
    (hturns : words.length ≤ index + turns) {texts : List String}
    (htexts : Texts host vm (words.drop index) texts) (out : List String) (marks : List Nat) :
    ∃ slots' marks', slots'.Represents words ∧ slots'.capacity ≤ slots.capacity ∧
      printSlotsFrom host base turns index (dumping vm slots out marks) =
        .ok (dumping vm slots' (out ++ dumpText base index texts) marks') := by
  induction turns generalizing slots index texts out marks with
  | zero => omega
  | succ turns ih =>
      have hword := List.getElem?_eq_getElem hindex
      rw [List.drop_eq_getElem_cons hindex] at htexts
      rcases List.forall₂_cons_left_iff.mp htexts with ⟨text, rest, htext, hrest, rfl⟩
      obtain ⟨read, hread, hcap, hturn⟩ :=
        printSlotsFrom_succ host vm base turns h hword out marks
      simp only [htext] at hturn
      rcases hturn with ⟨turnMarks, hturn⟩
      by_cases hlast : index + 1 = words.length
      · rw [if_pos hlast] at hturn
        have hnil : rest = [] := by
          rw [hlast, List.drop_length] at hrest
          exact List.forall₂_nil_left_iff.mp hrest
        subst hnil
        refine ⟨read, turnMarks, hread, hcap, hturn.trans ?_⟩
        simp only [dumpText, List.append_assoc, List.cons_append, List.nil_append]
      · rw [if_neg hlast] at hturn
        rcases ih hread (by omega) (by omega) hrest
          (out ++ (if base = index then ["| "] else []) ++ [text, " "]) turnMarks with
          ⟨last, lastMarks, hrep, hle, hloop⟩
        refine ⟨last, lastMarks, hrep, Nat.le_trans hle hcap, hturn.trans (hloop.trans ?_)⟩
        simp only [dumpText, List.append_assoc, List.cons_append, List.nil_append]

/-- The loop returns only where it prints the words from an index on and reaches the size
before the turns run out. -/
theorem printable_of_printSlotsFrom {base turns index : Nat} {slots : Slots}
    {words : List Word} (h : slots.Represents words) {out : List String} {marks : List Nat}
    {vm' : VM} (hok : printSlotsFrom host base turns index (dumping vm slots out marks) = .ok vm') :
    index < words.length ∧ words.length ≤ index + turns ∧
      ∀ word ∈ words.drop index, Printable host vm host.nativeLimit word := by
  induction turns generalizing slots index out marks with
  | zero => cases hok
  | succ turns ih =>
      by_cases hindex : index < words.length
      · have hword := List.getElem?_eq_getElem hindex
        obtain ⟨read, hread, -, hturn⟩ :=
          printSlotsFrom_succ host vm base turns h hword out marks
        rw [List.drop_eq_getElem_cons hindex, List.forall_mem_cons, ← exists_printSlot_eq_ok]
        cases htext : printSlot host vm host.nativeLimit words[index] with
        | error halt =>
            simp only [htext] at hturn
            rw [hturn] at hok
            cases hok
        | ok text =>
            simp only [htext] at hturn
            rcases hturn with ⟨turnMarks, hturn⟩
            rw [hturn] at hok
            by_cases hlast : index + 1 = words.length
            · refine ⟨hindex, by omega, ⟨text, rfl⟩, ?_⟩
              rw [hlast, List.drop_length]
              exact fun word hword => absurd hword List.not_mem_nil
            · rw [if_neg hlast] at hok
              rcases ih hread hok with ⟨_, hle, hwords⟩
              exact ⟨hindex, by omega, ⟨text, rfl⟩, hwords⟩
      · -- behind the last slot the index only moves away from the size
        have hskip : ∃ out' marks',
            printSlotsFrom host base (turns + 1) index (dumping vm slots out marks) =
              printSlotsFrom host base turns (index + 1) (dumping vm slots out' marks') := by
          have hge : ¬ index < slots.size := by
            rw [h.size_eq]
            exact hindex
          rw [printSlotsFrom]
          split
          · exact ⟨out ++ ["| "], _, if_neg hge⟩
          · exact ⟨out, marks, if_neg hge⟩
        rcases hskip with ⟨out', marks', hskip⟩
        rw [hskip] at hok
        have := (ih h hok).1
        omega

end Printing

/-- The dump comes back after it printed every slot once and in order, and what it
changes is the memory of the slots.  The marks belong to the log of the output. -/
def DumpsFaithfully (host : Host) (vm : VM) (base : Nat) (words : List Word) : Prop :=
  ∃ slots texts marks, Texts host vm words texts ∧
    printSlots host vm base = .ok (dumping vm slots (vm.out ++ dumpText base 0 texts) marks) ∧
    slots.Represents words ∧ slots.size = vm.slots.size ∧
    slots.capacity ≤ vm.slots.capacity

/-- The dump does what it should exactly when there is a slot, the index reaches the size
and every word can be printed. -/
theorem dumpsFaithfully_iff {host : Host} {vm : VM} {words : List Word}
    (h : vm.slots.Represents words) (base : Nat) :
    DumpsFaithfully host vm base words ↔
      vm.slots.size ≠ 0 ∧ vm.slots.size ≤ intMax.toNat ∧
        ∀ word ∈ words, Printable host vm host.nativeLimit word := by
  rw [h.size_eq]
  constructor
  · rintro ⟨slots, texts, marks, _, hok, _⟩
    have hloop := printable_of_printSlotsFrom h
      (show printSlotsFrom host base intMax.toNat 0 (dumping vm vm.slots vm.out vm.marks) = .ok _
        from hok)
    rw [Nat.zero_add, List.drop_zero] at hloop
    exact ⟨Nat.ne_of_gt hloop.1, hloop.2⟩
  · rintro ⟨hne, hle, hwords⟩
    rcases (exists_texts_iff words).mpr hwords with ⟨texts, htexts⟩
    obtain ⟨slots, marks, hrep, hcap, hok⟩ := printSlotsFrom_spec base h
      (Nat.pos_of_ne_zero hne) (show words.length ≤ 0 + intMax.toNat by omega) htexts vm.out
      vm.marks
    exact ⟨slots, texts, marks, htexts, hok, hrep, hrep.size_eq.trans h.size_eq.symm, hcap⟩

/-- Two nils and a function. -/
theorem nestedState_one_dumped :
    DumpsFaithfully nestedHost (nestedState 1) 1 [0#64, 0#64, toFnew 6] := by
  have hreachable : Reachable nestedHost (loadfile nestedHost) (nestedState 1) :=
    reachable_stateAfter (by decide)
  have hwords : (nestedState 1).words = [0#64, 0#64, toFnew 6] := by decide
  have hslots : (nestedState 1).slots.Represents [0#64, 0#64, toFnew 6] :=
    hwords ▸ hreachable.wellFormed.slots
  refine (dumpsFaithfully_iff hslots 1).mpr ⟨by decide, by decide, ?_⟩
  have hnil : Printable nestedHost (nestedState 1) 100 0#64 :=
    (exists_printSlot_eq_ok 100 _).mp ⟨_, rfl⟩
  have hfunction : Printable nestedHost (nestedState 1) 100 (toFnew 6) :=
    (exists_printSlot_eq_ok 100 _).mp ⟨_, rfl⟩
  rw [List.forall_mem_cons, List.forall_mem_cons, List.forall_mem_singleton]
  exact ⟨hnil, hnil, hfunction⟩

/-- The dump of a new machine never comes to its end. -/
theorem vmInit_not_dumped :
    Reachable nestedHost (loadfile nestedHost) (vmInit nestedHost) ∧
      (vmInit nestedHost).slots.Represents [] ∧
      ¬ DumpsFaithfully nestedHost (vmInit nestedHost) 0 [] := by
  refine ⟨.init, slotsInit_represents, ?_⟩
  rintro ⟨slots, texts, marks, _, hok, _⟩
  have hloop := printable_of_printSlotsFrom slotsInit_represents
    (show printSlotsFrom nestedHost 0 intMax.toNat 0
      (dumping (vmInit nestedHost) slotsInit (vmInit nestedHost).out
        (vmInit nestedHost).marks) = .ok _ from hok)
  exact absurd hloop.1 (by decide)

end ClojitCvm
