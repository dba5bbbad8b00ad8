import ClojitCvm.Machine.BumpHost
import ClojitCvm.Machine.Effects

/-!
# Pointers in slots

A word that is tagged as a pointer should be the address of an object.  The encoders of
negative integers and functions, and the instruction that loads a string, make words with
that tag from other values.  As long as a program avoids those operands, every pointer in
a slot, in the symbol table and in a field is the address of an object.

Main results:

- The structure {lit}`InRange`: the operands from which no pointer is made.
- Theorem {lit}`VM.PointerSafe.step`: an instruction in range keeps pointers sound.
- Theorem {lit}`pointers_sound_iff_inRange`: a run has only sound pointers and makes none
  from other values exactly when all its instructions are in range.
-/

namespace ClojitCvm

open ByteMemory CellArray FrameStack Slot

/-! ## Tags of made words -/

theorem isPointer_packed (t : BitVec 16) (payload : BitVec 48) (ht : t ≠ 0#16) :
    isPointer (packed t payload) = decide (t = tagPointerHi) := by
  have hnil : isNil (packed t payload) = false := isNil_eq_false_of_tag (by simpa using ht)
  have hlo : (t == tagPointerLo) = false := beq_eq_false_iff_ne.mpr ht
  simp [isPointer, hnil, hlo, beq_eq_decide]

/-- The word of a negative integer is tagged as a pointer. -/
theorem isPointer_toSmallInt (num : BitVec 32) : isPointer (toSmallInt num) = num.msb := by
  rw [toSmallInt_eq_packed]
  cases num.msb with
  | false => exact isPointer_packed _ _ (by decide)
  | true => exact isPointer_packed _ _ (by decide)

/-- The word of a function at a negative address is tagged as a pointer. -/
theorem isPointer_toFnew (type : BitVec 16) : isPointer (toFnew type) = type.msb := by
  rw [toFnew_eq_packed]
  cases type.msb with
  | false => exact isPointer_packed _ _ (by decide)
  | true => exact isPointer_packed _ _ (by decide)

theorem isPointer_toType (type : BitVec 16) : isPointer (toType type) = false := by
  rw [toType_eq_packed]
  exact isPointer_packed _ _ (by decide)

theorem isPointer_toBool (value : Bool) : isPointer (toBool value) = false := by
  cases value <;> decide

theorem isPointer_toBuiltin {fn : Word} (hfn : fn.toNat < 2 ^ 48) :
    isPointer (toBuiltin fn) = false := by
  have hwidth : (fn.setWidth 48).setWidth 64 = fn := by
    apply BitVec.eq_of_toNat_eq
    have := fn.isLt
    simp only [BitVec.toNat_setWidth]
    omega
  rw [← hwidth, toBuiltin_eq_packed]
  exact isPointer_packed _ _ (by decide)

/-! ## Made words and operands in range -/

/-- The words an instruction makes from integers, functions, types and booleans, and the
entries of a constant table it loads. -/
inductive Makes (sec : Sections) (vm : VM) (inst : Decoded) : Word → Prop
  | constant {word} (hword : constant? sec inst.op inst.d = some word) : Makes sec vm inst word
  | integer {int x y num} (hop : integerOp? inst.op = some int)
      (hx : vm.words[vm.base + inst.b]? = some x) (hy : vm.words[vm.base + inst.c]? = some y)
      (hintx : isSmallInt x = true) (hinty : isSmallInt y = true)
      (hnum : int (getSmallInt x) (getSmallInt y) = some num) :
      Makes sec vm inst (toSmallInt num)
  | comparison {value} (hop : inst.op = some .iseq) : Makes sec vm inst (toBool value)
  | returnAddress (hop : inst.op = some .call) : Makes sec vm inst (toSmallInt vm.pc)

/-- The operands from which no pointer is made: an entry of the string table that is not
tagged as one, a function below 2^15, two integers with a result that is not negative, and
a call below 2^31. -/
structure InRange (sec : Sections) (vm : VM) (inst : Decoded) : Prop where
  ckey : ∀ p, inst.op = some .ckey → sec.cstr[inst.d.toNat]? = some p →
    isPointer (.ofNat 64 p) = false
  fnew : inst.op = some .fnew → inst.d.msb = false
  integer : ∀ int x y num, integerOp? inst.op = some int →
    vm.words[vm.base + inst.b]? = some x → vm.words[vm.base + inst.c]? = some y →
    isSmallInt x = true → isSmallInt y = true →
    int (getSmallInt x) (getSmallInt y) = some num → num.msb = false
  call : inst.op = some .call → vm.pc.msb = false

theorem isPointer_unsigned (d : BitVec 16) : isPointer (toSmallInt (d.setWidth 32)) = false := by
  have hlt := d.isLt
  rw [isPointer_toSmallInt, BitVec.msb_eq_decide, BitVec.toNat_setWidth]
  exact decide_eq_false (by omega)

/-- The words of constants, apart from strings and functions, are never pointers. -/
theorem isPointer_constant {sec : Sections} {op : Option Opcode} {d : BitVec 16} {word : Word}
    (hckey : op ≠ some .ckey) (hfnew : op ≠ some .fnew)
    (hword : constant? sec op d = some word) : isPointer word = false := by
  unfold constant? at hword
  split at hword
  · cases hword
    exact isPointer_unsigned d
  · exact absurd rfl hckey
  · cases hword
    exact isPointer_toType d
  · cases hword
    exact isPointer_toBool _
  · cases hword
    rfl
  · cases hword
    exact isPointer_unsigned d
  · exact absurd rfl hfnew
  · cases hword

/-- No pointer is made exactly from operands in range. -/
theorem inRange_iff_makes {sec : Sections} {vm : VM} {inst : Decoded} :
    InRange sec vm inst ↔ ∀ word, Makes sec vm inst word → isPointer word = false := by
  constructor
  · intro h word hmakes
    cases hmakes with
    | constant hword =>
        by_cases hckey : inst.op = some .ckey
        · simp only [constant?, hckey, Option.map_eq_some_iff] at hword
          rcases hword with ⟨p, hp, rfl⟩
          exact h.ckey p hckey hp
        · by_cases hfnew : inst.op = some .fnew
          · simp only [constant?, hfnew, Option.some.injEq] at hword
            rw [← hword, isPointer_toFnew]
            exact h.fnew hfnew
          · exact isPointer_constant hckey hfnew hword
    | integer hop hx hy hintx hinty hnum =>
        rw [isPointer_toSmallInt]
        exact h.integer _ _ _ _ hop hx hy hintx hinty hnum
    | comparison => exact isPointer_toBool _
    | returnAddress hop =>
        rw [isPointer_toSmallInt]
        exact h.call hop
  · intro h
    refine ⟨?_, ?_, ?_, ?_⟩
    · intro p hop hp
      exact h _ (.constant (by simp [constant?, hop, hp]))
    · intro hop
      rw [← isPointer_toFnew]
      exact h _ (.constant (by simp [constant?, hop]))
    · intro int x y num hop hx hy hintx hinty hnum
      rw [← isPointer_toSmallInt]
      exact h _ (.integer hop hx hy hintx hinty hnum)
    · intro hop
      rw [← isPointer_toSmallInt]
      exact h _ (.returnAddress hop)

/-! ## Sound words -/

/-- A pointer is the address of an object. -/
def SoundIn (blocks : List Block) (word : Word) : Prop :=
  isPointer word = true → ∃ block ∈ blocks, block.addr = word.toNat

theorem soundIn_of_not_isPointer {blocks : List Block} {word : Word}
    (h : isPointer word = false) : SoundIn blocks word := by
  intro hpointer
  rw [h] at hpointer
  cases hpointer

theorem soundIn_nil (blocks : List Block) : SoundIn blocks 0#64 :=
  soundIn_of_not_isPointer (by decide)

theorem SoundIn.mono {blocks blocks' : List Block} {word : Word} (h : SoundIn blocks word)
    (hsub : blocks ⊆ blocks') : SoundIn blocks' word := by
  intro hpointer
  rcases h hpointer with ⟨block, hmem, haddr⟩
  exact ⟨block, hsub hmem, haddr⟩

/-- The symbol table and the fields of all objects hold sound words. -/
structure Rest.Sound (rest : Rest) : Prop where
  symbols : ∀ pair ∈ rest.symbolTable, SoundIn rest.blocks pair.2
  fields : ∀ block ∈ rest.blocks, ∀ i, block.HasField i →
    SoundIn rest.blocks (objRef rest.heap block.addr i)

namespace VM

/-- Every pointer in a slot is the address of an object. -/
def SlotsSound (vm : VM) : Prop :=
  ∀ word ∈ vm.words, SoundIn vm.blocks word

structure PointerSafe (vm : VM) : Prop where
  slots : vm.SlotsSound
  rest : vm.rest.Sound

variable {host : Host} {sec : Sections} {vm vm' : VM} {inst : Decoded}

/-- Only objects can be read through a sound word. -/
theorem loadRef_sound {obj word : Word} {i : Nat} (hfits : host.Fits vm.blocks)
    (hrest : vm.rest.Sound) (hobj : SoundIn vm.blocks obj) (hi : i < 256)
    (hload : vm.loadRef host obj.toNat i = .ok word) : SoundIn vm.blocks word := by
  rcases bind_eq_ok.mp hload with ⟨value, hthrough, hret⟩
  cases hret
  rcases loadThrough_eq_ok hthrough with ⟨block, hmem, haddr, hroom, hvalue⟩ | ⟨hnone, hfile, _⟩
  · rw [← haddr] at hroom hvalue
    rw [hvalue]
    exact hrest.fields block hmem i hroom
  · have hrange := Host.inFile_eq_true.mp hfile
    have hlow := host.page_le_fileBase
    have hhigh := host.file_le
    unfold refAt headerSize at hrange
    cases hpointer : isPointer obj with
    | true =>
        rcases hobj hpointer with ⟨block, hmem, haddr⟩
        rw [← haddr, block?_of_mem hfits hmem] at hnone
        cases hnone
    | false =>
        rcases address_of_not_isPointer hpointer with rfl | hlarge
        · simp only [BitVec.toNat_ofNat] at hrange
          omega
        · omega

/-- The value of a name is sound. -/
theorem PointerSafe.getSymbolTable_sound (hsafe : vm.PointerSafe) (name : List Byte) :
    SoundIn vm.blocks (vm.getSymbolTable name) := by
  rw [getSymbolTable_eq]
  cases hlookup : vm.symbolTable.lookup name with
  | none => exact soundIn_nil _
  | some value =>
      rcases List.lookup_eq_some_iff.mp hlookup with ⟨front, back, heq, _⟩
      have hmem : (name, value) ∈ vm.symbolTable := by simp [heq]
      exact hsafe.rest.symbols (name, value) hmem

/-- The call of a builtin brings the return address and nils. -/
theorem brings_builtinCall {P : Word → Prop} {pc : BitVec 32} {a : Nat}
    (haddress : P (toSmallInt pc)) (hnil : P getNil) :
    Frames.Brings P (builtinCall pc a) := by
  have hclears : Frames.Brings P (clears (a + 8) 2) := by
    intro offset value hmem
    rcases List.mem_map.mp hmem with ⟨k, _, heq⟩
    cases heq
    exact hnil
  rw [builtinCall, Frames.brings_append, Frames.brings_append, Frames.brings_append,
    Frames.brings_cons_assign, Frames.brings_cons_assign]
  exact ⟨⟨haddress, Frames.brings_nil⟩,
    ⟨(Frames.brings_cons_of_ne (by simp)).mpr Frames.brings_nil, hnil, hclears⟩,
    (Frames.brings_cons_of_ne (by simp)).mpr Frames.brings_nil⟩

/-- The words an instruction in range brings into slots are sound. -/
theorem Effect.brings_sound {actions : List SlotAction} {rest : Rest}
    (hfits : host.Fits vm.blocks) (hsafe : vm.PointerSafe) (hin : InRange sec vm inst)
    (hc : inst.c < 256)
    (heffect : Effect host sec vm inst.a inst.b inst.c inst.d inst.op actions rest) :
    Frames.Brings (SoundIn vm.blocks) actions := by
  have hmakes {word : Word} (h : Makes sec vm inst word) : SoundIn vm.blocks word :=
    soundIn_of_not_isPointer (inRange_iff_makes.mp hin word h)
  have hslot {i : Nat} {word : Word} (hword : vm.words[i]? = some word) :
      SoundIn vm.blocks word :=
    hsafe.slots word (List.mem_of_getElem? hword)
  have hsingle {a : Nat} {word : Word} (hword : SoundIn vm.blocks word) :
      Frames.Brings (SoundIn vm.blocks) ([.assign a word] : List SlotAction) :=
    Frames.brings_cons_assign.mpr ⟨hword, Frames.brings_nil⟩
  generalize hop : inst.op = op at heffect
  cases heffect with
  | constant hword => exact hsingle (hmakes (.constant (hop ▸ hword)))
  | nsget => exact hsingle (hsafe.getSymbolTable_sound _)
  | arith hint hx hy hintx hinty hnum =>
      exact hsingle (hmakes (.integer (hop ▸ hint) hx hy hintx hinty hnum))
  | iseq => exact hsingle (soundIn_of_not_isPointer (isPointer_toBool _))
  | mov hword => exact hsingle (hslot hword)
  | bulkmov hmoves =>
      intro offset value hmem
      rcases hmoves _ hmem with ⟨offset', word, heq, hword⟩
      cases heq
      rcases hword with hword | rfl
      · exact hsafe.slots _ hword
      · exact soundIn_nil _
  | call hfn hfunc hne =>
      refine Frames.brings_cons_assign.mpr ⟨hmakes (.returnAddress hop), ?_⟩
      exact (Frames.brings_cons_of_ne (by simp)).mpr Frames.brings_nil
  | builtin hfn hfunc hprintln =>
      exact brings_builtinCall (hmakes (.returnAddress hop)) (soundIn_nil _)
  | ret hfirst hvalue =>
      refine Frames.brings_cons_assign.mpr ⟨hslot hvalue, ?_⟩
      rw [Frames.brings_cons_of_ne (by simp), Frames.brings_cons_of_ne (by simp)]
      exact Frames.brings_nil
  | getfield hobj hload => exact hsingle (loadRef_sound hfits hsafe.rest (hslot hobj) hc hload)
  | _ => exact Frames.brings_nil

/-- The rest of the state behind an instruction. -/
theorem Effect.rest_sound {op : Option Opcode} {a b c : Nat} {d : BitVec 16}
    {actions : List SlotAction} {rest : Rest} (hfits : host.Fits vm.blocks)
    (hsafe : vm.PointerSafe) (heffect : Effect host sec vm a b c d op actions rest) :
    rest.Sound ∧ vm.blocks ⊆ rest.blocks := by
  have hkeep (pc : BitVec 32) :
      Rest.Sound { vm.rest with pc := pc } ∧ vm.blocks ⊆ vm.rest.blocks :=
    ⟨⟨hsafe.rest.symbols, hsafe.rest.fields⟩, List.Subset.refl _⟩
  cases heffect with
  | branch => split <;> exact hkeep _
  | nsset hvalue =>
      refine ⟨⟨?_, hsafe.rest.fields⟩, List.Subset.refl _⟩
      intro pair hmem
      rcases List.mem_cons.mp hmem with rfl | hmem
      · exact hsafe.slots _ (List.mem_of_getElem? hvalue)
      · exact hsafe.rest.symbols pair (List.mem_filter.mp hmem).1
  | @alloc record hrecord hsize =>
      have hsub := List.subset_append_right
        ((host.reserve vm.reserves vm.blocks record.typeSize).object?.toList.map fun addr =>
          (⟨addr, record.typeSize.toNat⟩ : Block)) vm.blocks
      refine ⟨⟨fun pair hmem => (hsafe.rest.symbols pair hmem).mono hsub, ?_⟩, hsub⟩
      intro block hblock i hi
      simp only
      rcases objRef_allocLoop hsize hblock hi with ⟨_, hnil⟩ | ⟨hold, hkept⟩
      · rw [hnil]
        exact soundIn_nil _
      · rw [hkept]
        exact (hsafe.rest.fields block hold i hi).mono hsub
  | setfield hobj hvalue hblock hroom =>
      rcases block?_eq_some hblock with ⟨hmem, haddr⟩
      refine ⟨⟨hsafe.rest.symbols, ?_⟩, List.Subset.refl _⟩
      intro block hblock' i hi
      rw [← haddr] at hroom ⊢
      simp only
      rw [objRef_setObjRef hfits hmem hblock' hroom hi]
      split
      · exact hsafe.slots _ (List.mem_of_getElem? hvalue)
      · exact hsafe.rest.fields block hblock' i hi
  | _ => exact hkeep _

/-- An instruction in range keeps all pointers sound. -/
theorem PointerSafe.step (hwell : vm.WellFormed host) (hsafe : vm.PointerSafe)
    (hinst : current? host sec vm = some inst) (hin : InRange sec vm inst)
    (hok : step host sec vm = .ok vm') : vm'.PointerSafe := by
  rcases hwell.effect hinst hok with ⟨_, _, hc, actions, heffect, hmoves⟩
  rcases Effect.rest_sound hwell.fits hsafe heffect with ⟨hrest, hsub⟩
  refine ⟨?_, hrest⟩
  intro word hword
  refine SoundIn.mono ?_ hsub
  exact Frames.run_forall (soundIn_nil _)
    (Effect.brings_sound hwell.fits hsafe hin hc heffect)
    (fun w hw => hsafe.slots w hw) hmoves.run word hword

theorem vmInit_pointerSafe (host : Host) : (vmInit host).PointerSafe where
  slots := by
    intro word hword
    cases hword
  rest := by
    refine ⟨?_, by intro block hblock; cases hblock⟩
    intro pair hpair
    have hlt := host.println_lt
    rw [List.mem_singleton.mp hpair]
    exact soundIn_of_not_isPointer (isPointer_toBuiltin (by omega))

/-- A run in range keeps all pointers sound. -/
theorem PointerSafe.run {n : Nat} (hwell : vm.WellFormed host) (hsafe : vm.PointerSafe)
    (hin : ∀ m < n, ∀ u inst, run host sec m vm = .ok u → current? host sec u = some inst →
      InRange sec u inst)
    (hok : run host sec n vm = .ok vm') : vm'.PointerSafe := by
  induction n generalizing vm with
  | zero =>
      cases hok
      exact hsafe
  | succ n ih =>
      rcases bind_eq_ok.mp hok with ⟨next, hstep, hrest⟩
      rcases step_effect hwell.toWellFramed hwell.fits hstep with ⟨inst, hinst, _⟩
      have hnext := hsafe.step hwell hinst (hin 0 (by omega) vm inst rfl hinst) hstep
      refine ih (hwell.step hstep) hnext ?_ hrest
      intro m hm u inst' hu hinst'
      exact hin (m + 1) (by omega) u inst' (bind_eq_ok.mpr ⟨next, hstep, hu⟩) hinst'

end VM

/-! ## Runs -/

/-- In the first {lit}`n` turns every pointer in a slot is the address of an object and no
instruction makes a pointer from another value, exactly when all instructions are in
range. -/
theorem pointers_sound_iff_inRange (host : Host) (sec : Sections) (n : Nat) :
    ((∀ m ≤ n, ∀ u, run host sec m (vmInit host) = .ok u → u.SlotsSound) ∧
      ∀ m < n, ∀ u inst word, run host sec m (vmInit host) = .ok u →
        current? host sec u = some inst → Makes sec u inst word → isPointer word = false) ↔
    ∀ m < n, ∀ u inst, run host sec m (vmInit host) = .ok u →
      current? host sec u = some inst → InRange sec u inst := by
  constructor
  · rintro ⟨_, hmakes⟩ m hm u inst hu hinst
    exact inRange_iff_makes.mpr fun word => hmakes m hm u inst word hu hinst
  · intro hin
    constructor
    · intro m hm u hu
      have hwell := Reachable.wellFormed (@Reachable.init host sec)
      exact ((VM.vmInit_pointerSafe host).run hwell
        (fun k hk => hin k (Nat.lt_of_lt_of_le hk hm)) hu).slots
    · intro m hm u inst word hu hinst
      exact inRange_iff_makes.mp (hin m hm u inst hu hinst) word

/-- The state before turn {lit}`n` of a program is the one it runs to. -/
theorem eq_stateAfter {host : Host} {sec : Sections} {n : Nat} {u : VM}
    (hrun : run host sec n (vmInit host) = .ok u) : u = stateAfter host sec n := by
  unfold stateAfter
  rw [hrun]

/-- The first two instructions of the program with nested calls are in range. -/
theorem nestedCalls_slotsSound : (nestedState 2).SlotsSound := by
  have hfnew : current? nestedHost (loadfile nestedHost) (nestedState 0) =
      some ⟨some .fnew, 2, 0, 6, 6⟩ := by decide
  have hcall : current? nestedHost (loadfile nestedHost) (nestedState 1) =
      some ⟨some .call, 1, 0, 0, 0⟩ := by decide
  have hrun : run nestedHost (loadfile nestedHost) 2 (vmInit nestedHost) =
      .ok (nestedState 2) := run_stateAfter (by decide)
  refine ((pointers_sound_iff_inRange nestedHost (loadfile nestedHost) 2).mpr ?_).1 2
    (Nat.le_refl 2) _ hrun
  intro m hm u inst hu hinst
  rw [eq_stateAfter hu] at hinst ⊢
  rcases Nat.le_one_iff_eq_zero_or_eq_one.mp (Nat.le_of_lt_succ hm) with rfl | rfl
  · cases hfnew.symm.trans hinst
    exact ⟨by simp, fun _ => by decide, by simp [integerOp?], by simp⟩
  · cases hcall.symm.trans hinst
    exact ⟨by simp, by simp, by simp [integerOp?], fun _ => by decide⟩

/-- A program that subtracts one from zero. -/
def subtraction : CvmbFile where
  sections := [.instructions [.ad Opcode.cshort.number 0 0, .ad Opcode.cshort.number 1 1,
    .abc Opcode.subvv.number 2 0 1], .cint []]
  nodup := by decide
  wellFormed := by decide

def subtractionHost : Host :=
  bumpHost subtraction (by decide)

/-- The difference is a pointer, and there is no object. -/
theorem subtraction_not_sound :
    ¬ ∀ (host : Host) (vm : VM), Reachable host (loadfile host) vm → vm.SlotsSound := by
  intro h
  have hsound := h subtractionHost _
    (reachable_stateAfter (n := 3) (by decide)) (toSmallInt (-1)) (by decide) (by decide)
  rcases hsound with ⟨block, hblock, _⟩
  have hblocks : (stateAfter subtractionHost (loadfile subtractionHost) 3).blocks = [] := by
    decide
  rw [hblocks] at hblock
  cases hblock

end ClojitCvm
