import ClojitCvm.Machine.BumpHost
import ClojitCvm.Machine.Effects

/-!
# Objects

The instruction {lit}`ALLOC` makes an object of a type and should leave its address in a
slot; {lit}`SETFIELD` and {lit}`GETFIELD` are an array store on the fields of all
objects.

Main results:

- The structure {lit}`AllocLaw`: what an allocation should do.
- The structure {lit}`FieldLaw`: what stores to fields and loads from them should do.
- Theorem {lit}`objects_lawful_iff`: an allocation is lawful exactly when the record that
  is read is the one of the type and the slot holds the new address already, and fields
  are lawful in every reachable state.
-/

namespace ClojitCvm

open ByteMemory CellArray FrameStack Slot

/-! ## The laws -/

/-- From {lit}`vm` to {lit}`vm'` a new object of type {lit}`d` with {lit}`n` nil fields was
made and its address is in slot {lit}`a`; no other slot and no other object changed. -/
structure AllocLaw (vm vm' : VM) (a : Nat) (d : BitVec 16) (n addr : Nat) : Prop where
  pointer : vm'.words[vm.base + a]? = some (.ofNat 64 addr)
  object : ⟨addr, 8 * n + headerSize⟩ ∈ vm'.blocks
  fresh : ∀ block ∈ vm.blocks, Apart addr (8 * n + headerSize) block.addr block.size
  cljtype : objCljtype vm'.heap addr = d.toNat
  size : objSize vm'.heap addr = 8 * n + headerSize
  fields : ∀ i < n, objRef vm'.heap addr i = getNil
  slots : ∀ i, i ≠ vm.base + a → vm'.words[i]? = vm.words[i]?
  objects : ∀ block ∈ vm.blocks, block ∈ vm'.blocks ∧
    ∀ x, block.addr ≤ x → x < block.addr + block.size → vm'.heap x = vm.heap x

/-- The value last stored to a field according to the log, and nil if there is none. -/
def lastStored : List FieldStore → Nat → Nat → Word
  | [], _, _ => getNil
  | store :: log, obj, i =>
      if store.obj = obj ∧ store.index = i then store.value else lastStored log obj i

/-- Loads and stores on the fields of objects are those of an array. -/
structure FieldLaw (host : Host) (sec : Sections) (vm : VM) : Prop where
  /-- A field of an object can be loaded, with the value last stored to it. -/
  load : ∀ block ∈ vm.blocks, ∀ i, block.HasField i →
    vm.loadRef host block.addr i = .ok (lastStored vm.fieldStores block.addr i)
  /-- A field of an object can be stored to. -/
  store : ∀ block ∈ vm.blocks, ∀ i, block.HasField i → ∀ value,
    ∃ vm', vm.storeRef block.addr i value = .ok vm'
  getfield : ∀ inst vm', current? host sec vm = some inst → inst.op = some .getfield →
    step host sec vm = .ok vm' → ∀ block ∈ vm.blocks, block.HasField inst.c →
      vm.words[vm.base + inst.b]? = some (.ofNat 64 block.addr) →
      vm'.words[vm.base + inst.a]? = some (lastStored vm.fieldStores block.addr inst.c)
  /-- A store is logged, and every other field of every object stays. -/
  setfield : ∀ inst vm', current? host sec vm = some inst → inst.op = some .setfield →
    step host sec vm = .ok vm' → ∃ obj value, vm.words[vm.base + inst.a]? = some obj ∧
      vm.words[vm.base + inst.c]? = some value ∧
      vm'.fieldStores = ⟨obj.toNat, inst.b, value⟩ :: vm.fieldStores ∧
      ∀ block ∈ vm.blocks, ∀ i, block.HasField i →
        ¬ (obj.toNat = block.addr ∧ inst.b = i) →
          objRef vm'.heap block.addr i = objRef vm.heap block.addr i
  /-- Nothing else is logged as a store. -/
  others : ∀ inst vm', current? host sec vm = some inst → inst.op ≠ some .setfield →
    step host sec vm = .ok vm' → vm'.fieldStores = vm.fieldStores

/-! ## The log of stores -/

/-- The log knows only objects, and the fields of all objects are as logged. -/
structure Rest.Logged (rest : Rest) : Prop where
  known : ∀ store ∈ rest.fieldStores, ∃ block ∈ rest.blocks, block.addr = store.obj
  fields : ∀ block ∈ rest.blocks, ∀ i, block.HasField i →
    objRef rest.heap block.addr i = lastStored rest.fieldStores block.addr i

theorem lastStored_of_unknown {log : List FieldStore} {obj : Nat}
    (h : ∀ store ∈ log, store.obj ≠ obj) (i : Nat) : lastStored log obj i = getNil := by
  induction log with
  | nil => rfl
  | cons store log ih =>
      rw [lastStored, if_neg fun heq => h store (by simp) heq.1]
      exact ih fun s hs => h s (List.mem_cons_of_mem _ hs)

namespace VM

variable {host : Host} {sec : Sections} {vm vm' : VM} {inst : Decoded}

theorem Effect.logged {op : Option Opcode} {a b c : Nat} {d : BitVec 16}
    {actions : List SlotAction} {rest : Rest} (hfits : host.Fits vm.blocks)
    (hlogged : vm.rest.Logged) (heffect : Effect host sec vm a b c d op actions rest) :
    rest.Logged := by
  have hkeep (pc : BitVec 32) : Rest.Logged { vm.rest with pc := pc } :=
    ⟨hlogged.known, hlogged.fields⟩
  cases heffect with
  | branch => split <;> exact hkeep _
  | nsset => exact ⟨hlogged.known, hlogged.fields⟩
  | @alloc record hrecord hsize =>
      refine ⟨?_, ?_⟩
      · intro store hstore
        rcases hlogged.known store hstore with ⟨block, hmem, haddr⟩
        exact ⟨block, List.mem_append_right _ hmem, haddr⟩
      · intro block hblock i hi
        simp only
        rcases objRef_allocLoop hsize hblock hi with ⟨haddr, hnil⟩ | ⟨hold, hkept⟩
        · rw [hnil, lastStored_of_unknown]
          · rfl
          · -- a logged object would lie where the new one is
            intro store hstore heq
            rcases hlogged.known store hstore with ⟨old, hmem, hold⟩
            have happart := host.reserve_fresh _ _ _ block.addr
              (Reply.object?_mem_addrs haddr) old hmem
            have holdsize := (hfits.mapped old hmem).2.2.1
            unfold Apart at happart
            omega
        · rw [hkept]
          exact hlogged.fields block hold i hi
  | setfield hobj hvalue hblock hroom =>
      rcases block?_eq_some hblock with ⟨hmem, haddr⟩
      refine ⟨?_, ?_⟩
      · intro store hstore
        rcases List.mem_cons.mp hstore with rfl | hstore
        · exact ⟨_, hmem, haddr⟩
        · exact hlogged.known store hstore
      · intro block hblock' i hi
        rw [← haddr] at hroom ⊢
        simp only [lastStored]
        rw [objRef_setObjRef hfits hmem hblock' hroom hi]
        split
        · rfl
        · exact hlogged.fields block hblock' i hi
  | _ => exact hkeep _

end VM

theorem Reachable.logged {host : Host} {sec : Sections} {vm : VM}
    (h : Reachable host sec vm) : vm.rest.Logged := by
  induction h with
  | init => exact ⟨fun _ h => absurd h List.not_mem_nil, fun _ h => absurd h List.not_mem_nil⟩
  | step hreach hok ih =>
      have hwell := hreach.wellFormed
      rcases VM.step_effect hwell.toWellFramed hwell.fits hok with
        ⟨inst, _, _, _, _, actions, heffect, _⟩
      exact VM.Effect.logged hwell.fits ih heffect

/-! ## Fields -/

namespace VM

variable {host : Host} {sec : Sections} {vm vm' : VM} {inst : Decoded}

/-- The address of an object fits a slot. -/
theorem toNat_addr {block : Block} (hfits : host.Fits vm.blocks) (hmem : block ∈ vm.blocks) :
    (BitVec.ofNat 64 block.addr).toNat = block.addr := by
  have := (hfits.mapped block hmem).2.1
  rw [BitVec.toNat_ofNat]
  omega

theorem loadRef_block {block : Block} {i : Nat} (hfits : host.Fits vm.blocks)
    (hmem : block ∈ vm.blocks) (hi : block.HasField i) :
    vm.loadRef host block.addr i = .ok (objRef vm.heap block.addr i) := by
  unfold loadRef loadThrough
  rw [block?_of_mem hfits hmem]
  simp only [if_pos (show refAt block.addr i + 8 ≤ block.addr + block.size from hi)]
  rfl

theorem storeRef_block {block : Block} {i : Nat} (hfits : host.Fits vm.blocks)
    (hmem : block ∈ vm.blocks) (hi : block.HasField i) (value : Word) :
    ∃ vm', vm.storeRef block.addr i value = .ok vm' := by
  unfold storeRef
  rw [block?_of_mem hfits hmem]
  exact ⟨_, if_pos hi⟩

/-- Fields are lawful in every state whose log is kept. -/
theorem fieldLaw (hwell : vm.WellFormed host) (hlogged : vm.rest.Logged) :
    FieldLaw host sec vm where
  load block hmem i hi := by
    rw [loadRef_block hwell.fits hmem hi]
    exact congrArg Except.ok (hlogged.fields block hmem i hi)
  store block hmem i hi value := storeRef_block hwell.fits hmem hi value
  getfield inst vm' hinst hop hok block hmem hi hslot := by
    rcases hwell.effect hinst hok with ⟨_, _, _, actions, heffect, hmoves⟩
    rw [hop] at heffect
    generalize vm'.rest = rest at heffect
    cases heffect with
    | getfield hobj hload =>
        rw [hslot, Option.some.injEq] at hobj
        rw [← hobj, toNat_addr hwell.fits hmem, loadRef_block hwell.fits hmem hi] at hload
        have hframes := Option.some.inj hmoves.run.symm
        have hwords : vm'.words = _ := congrArg Frames.cells hframes
        rw [hwords]
        refine (getElem?_assign_self ..).trans ?_
        rw [← Except.ok.inj hload]
        exact congrArg some (hlogged.fields block hmem _ hi)
    | _ => contradiction
  setfield inst vm' hinst hop hok := by
    rcases hwell.effect hinst hok with ⟨_, _, _, actions, heffect, hmoves⟩
    rw [hop] at heffect
    generalize hrest : vm'.rest = rest at heffect
    cases heffect with
    | setfield hobj hvalue hblock hroom =>
        rcases block?_eq_some hblock with ⟨hmem, haddr⟩
        refine ⟨_, _, hobj, hvalue, congrArg Rest.fieldStores hrest, ?_⟩
        intro block hmem' i hi hne
        rw [show vm'.heap = _ from congrArg Rest.heap hrest]
        rw [← haddr] at hroom hne ⊢
        simp only
        rw [objRef_setObjRef hwell.fits hmem hmem' hroom hi, if_neg hne]
    | _ => contradiction
  others inst vm' hinst hne hok := by
    rcases hwell.effect hinst hok with ⟨_, _, _, actions, heffect, hmoves⟩
    change vm'.rest.fieldStores = _
    generalize vm'.rest = rest at heffect
    generalize inst.op = op at heffect hne
    cases heffect with
    | branch => split <;> rfl
    | setfield => exact absurd rfl hne
    | _ => rfl

/-! ## Allocation -/

/-- What an allocation from a type record does, with the pool's reply to it: no slot
changes. -/
structure Allocates (vm vm' : VM) (record : TypeRecord) (reply : Reply) : Prop where
  words : vm'.words = vm.words
  heap : vm'.heap =
    allocLoop record.typeSize (record.typeId.setWidth 16) objMpsTypeObject reply vm.heap
  blocks : vm'.blocks =
    reply.object?.toList.map (fun addr => ⟨addr, record.typeSize.toNat⟩) ++ vm.blocks

/-- The state behind an allocation. -/
theorem alloc_step (hwell : vm.WellFormed host) (hinst : current? host sec vm = some inst)
    (hop : inst.op = some .alloc) (hok : step host sec vm = .ok vm') :
    ∃ record, typesAt host sec inst.d.toNat = some record ∧
      headerSize < record.typeSize.toNat ∧
      vm.Allocates vm' record (host.reserve vm.reserves vm.blocks record.typeSize) := by
  rcases hwell.effect hinst hok with ⟨_, _, _, actions, heffect, hmoves⟩
  rw [hop] at heffect
  generalize hrest : vm'.rest = rest at heffect
  cases heffect with
  | alloc hrecord hsize =>
      have hframes := Option.some.inj hmoves.run.symm
      exact ⟨_, hrecord, hsize, congrArg Frames.cells hframes, congrArg Rest.heap hrest,
        congrArg Rest.blocks hrest⟩
  | _ => contradiction

/-- An allocation returns if its slot is in use and the size of the record is large
enough. -/
theorem alloc_returns {record : TypeRecord} {word : Word} (hwell : vm.WellFormed host)
    (hinst : current? host sec vm = some inst) (hop : inst.op = some .alloc)
    (hrecord : typesAt host sec inst.d.toNat = some record)
    (hsize : headerSize < record.typeSize.toNat)
    (hword : vm.words[vm.base + inst.a]? = some word) : ∃ vm', step host sec vm = .ok vm' := by
  have ha : inst.a < 256 := by
    rcases Option.map_eq_some_iff.mp hinst with ⟨code, _, rfl⟩
    exact (decode_lt code).1
  rcases get_eq_ok hwell.toWellFramed (Nat.lt_trans ha (by decide)) hword with ⟨mid, hget⟩
  unfold step
  rw [hinst]
  simp only [hop, execute, execAlloc, hrecord, hget, bind, Except.bind, mpsAllocObj, if_pos hsize]
  exact ⟨_, rfl⟩

/-- A lawful allocation read the record of the type, and its slot held the address. -/
theorem Allocates.of_law {a n addr : Nat} {d : BitVec 16} {record : TypeRecord} {reply : Reply}
    (h : vm.Allocates vm' record reply) (hlaw : AllocLaw vm vm' a d n addr) :
    record.typeSize.toNat = 8 * n + headerSize ∧ record.typeId.setWidth 16 = d ∧
      reply.object? = some addr ∧ vm.words[vm.base + a]? = some (.ofNat 64 addr) := by
  have hobject := hlaw.object
  rw [h.blocks, List.mem_append] at hobject
  have hnew : (⟨addr, 8 * n + headerSize⟩ : Block) ∈
      reply.object?.toList.map fun addr => ⟨addr, record.typeSize.toNat⟩ := by
    rcases hobject with hnew | hold
    · exact hnew
    · have happart := hlaw.fresh _ hold
      simp only [Apart, headerSize] at happart
      omega
  rcases List.mem_map.mp hnew with ⟨addr', haddr, heq⟩
  simp only [Block.mk.injEq] at heq
  rcases heq with ⟨rfl, hsame⟩
  rw [Option.mem_toList] at haddr
  rcases allocLoop_eq_initObj haddr with ⟨before, hlayout⟩
  have hcljtype := hlaw.cljtype
  rw [h.heap, hlayout, (initObj_header ..).2.1] at hcljtype
  refine ⟨hsame, BitVec.eq_of_toNat_eq hcljtype, haddr, ?_⟩
  rw [← h.words]
  exact hlaw.pointer

/-- The allocation from the record of the type is lawful if the slot holds the address. -/
theorem Allocates.law {a n addr : Nat} {record : TypeRecord}
    (h : vm.Allocates vm' record (host.reserve vm.reserves vm.blocks record.typeSize))
    (hsize : record.typeSize.toNat = 8 * n + headerSize) (hn : 1 ≤ n)
    (haddr : (host.reserve vm.reserves vm.blocks record.typeSize).object? = some addr)
    (hslot : vm.words[vm.base + a]? = some (.ofNat 64 addr)) :
    AllocLaw vm vm' a (record.typeId.setWidth 16) n addr where
  pointer := by rwa [h.words]
  object := by
    rw [h.blocks, haddr, hsize]
    simp
  fresh := by
    intro block hmem
    rw [← hsize]
    exact host.reserve_fresh _ _ _ addr (Reply.object?_mem_addrs haddr) block hmem
  cljtype := by
    rcases allocLoop_eq_initObj haddr with ⟨before, hlayout⟩
    rw [h.heap, hlayout, (initObj_header ..).2.1]
  size := by
    rcases allocLoop_eq_initObj haddr with ⟨before, hlayout⟩
    rw [h.heap, hlayout, (initObj_header ..).2.2, hsize]
  fields := by
    intro i hi
    rw [h.heap, objRef_allocLoop_new haddr (by omega)]
    rfl
  slots := fun i _ => by rw [h.words]
  objects := by
    intro block hmem
    refine ⟨h.blocks ▸ List.mem_append_right _ hmem, ?_⟩
    intro x hlow hhigh
    rw [h.heap]
    apply allocLoop_outside (by omega)
    intro addr' haddr'
    have happart := host.reserve_fresh _ _ _ addr' haddr' block hmem
    unfold Apart at happart
    omega

end VM

/-- In every reachable state an instruction {lit}`ALLOC a d` is lawful for a type
{lit}`d` of {lit}`n` fields exactly when the record read at index {lit}`d` is that of the
type and slot {lit}`a` already holds the address the pool gives to the object.  Stores to
fields and loads from them are lawful without a condition. -/
theorem objects_lawful_iff {host : Host} {sec : Sections} {vm : VM}
    (hreach : Reachable host sec vm) :
    (∀ inst n, current? host sec vm = some inst → inst.op = some .alloc → 1 ≤ n →
      ((∃ vm' addr, step host sec vm = .ok vm' ∧ AllocLaw vm vm' inst.a inst.d n addr) ↔
        ∃ record addr, typesAt host sec inst.d.toNat = some record ∧
          record.typeSize.toNat = 8 * n + headerSize ∧ record.typeId.setWidth 16 = inst.d ∧
          (host.reserve vm.reserves vm.blocks record.typeSize).object? = some addr ∧
          vm.words[vm.base + inst.a]? = some (.ofNat 64 addr))) ∧
    FieldLaw host sec vm := by
  have hwell := hreach.wellFormed
  refine ⟨?_, VM.fieldLaw hwell hreach.logged⟩
  intro inst n hinst hop hn
  constructor
  · rintro ⟨vm', addr, hok, hlaw⟩
    rcases VM.alloc_step hwell hinst hop hok with ⟨record, hrecord, _, hallocates⟩
    exact ⟨record, addr, hrecord, hallocates.of_law hlaw⟩
  · rintro ⟨record, addr, hrecord, hsize, hid, haddr, hslot⟩
    have hlarge : headerSize < record.typeSize.toNat := by omega
    rcases VM.alloc_returns hwell hinst hop hrecord hlarge hslot with ⟨vm', hok⟩
    rcases VM.alloc_step hwell hinst hop hok with ⟨record', hrecord', _, hallocates⟩
    rw [hrecord, Option.some.injEq] at hrecord'
    subst hrecord'
    rw [← hid]
    exact ⟨vm', addr, hok, hallocates.law hsize hn haddr hslot⟩

/-- A program that loads the address of its object from the file before it allocates the
object: the integer lies eight bytes behind the string. -/
def foresight : CvmbFile where
  sections := [.instructions [.ad Opcode.ckey.number 0 0, .abc Opcode.getfield.number 0 0 0,
    .ad Opcode.alloc.number 0 0], .cstr [[97, 98, 99]], .cint [0x10000], .types [⟨1, 0⟩]]
  nodup := by decide
  wellFormed := by decide

def foresightHost : Host :=
  bumpHost foresight (by decide)

def foresightState : VM :=
  stateAfter foresightHost (loadfile foresightHost) 2

theorem foresight_lawful :
    ∃ vm' addr, step foresightHost (loadfile foresightHost) foresightState = .ok vm' ∧
      AllocLaw foresightState vm' 0 0 1 addr := by
  have hinst : current? foresightHost (loadfile foresightHost) foresightState =
      some ⟨some .alloc, 0, 0, 0, 0⟩ := by decide
  exact ((objects_lawful_iff (reachable_stateAfter (by decide))).1 _ 1 hinst rfl
    (Nat.le_refl 1)).mpr
    ⟨⟨0, 16⟩, poolBase, by decide, by decide, by decide, by decide, by decide⟩

/-- A program that allocates an object of a type with one field. -/
def allocation : CvmbFile where
  sections := [.instructions [.ad Opcode.cnil.number 0 0, .ad Opcode.alloc.number 0 0],
    .cint [], .types [⟨1, 0⟩]]
  nodup := by decide
  wellFormed := by decide

def allocationHost : Host :=
  bumpHost allocation (by decide)

def allocationState (n : Nat) : VM :=
  stateAfter allocationHost (loadfile allocationHost) n

/-- The slot is still nil when the object is there. -/
theorem allocation_not_lawful :
    ¬ ∀ (host : Host) (vm : VM) (inst : Decoded) (record : TypeRecord) (n : Nat),
      Reachable host (loadfile host) vm → current? host (loadfile host) vm = some inst →
      inst.op = some .alloc → getTypeRecord (loadfile host) (inst.d.setWidth 32) = some record →
      record.typeSize.toNat = 8 * n + headerSize → 1 ≤ n →
      (∀ size, (host.reserve vm.reserves vm.blocks size).object?.isSome = true) →
      ∃ vm' addr, step host (loadfile host) vm = .ok vm' ∧
        AllocLaw vm vm' inst.a inst.d n addr := by
  intro h
  have hinst : current? allocationHost (loadfile allocationHost) (allocationState 1) =
      some ⟨some .alloc, 0, 0, 0, 0⟩ := by decide
  have hrecord : getTypeRecord (loadfile allocationHost) 0#32 = some ⟨0, 16⟩ := by decide
  have hblocks : (allocationState 1).blocks = [] := by decide
  have hgrants : ∀ size, (allocationHost.reserve (allocationState 1).reserves
      (allocationState 1).blocks size).object?.isSome = true := by
    intro size
    have hlt := size.isLt
    rw [hblocks]
    change (bumpReserve [] size).object?.isSome = true
    rw [bumpReserve, if_pos (by simp only [poolTop, poolBase]; omega)]
    rfl
  rcases h allocationHost _ _ _ 1 (reachable_stateAfter (by decide)) hinst rfl hrecord
    (by decide) (Nat.le_refl 1) hgrants with ⟨vm', addr, hok, hlaw⟩
  have hstep : step allocationHost (loadfile allocationHost) (allocationState 1) =
      .ok (allocationState 2) := step_stateAfter (by decide) (by decide)
  rw [← Except.ok.inj (hstep.symm.trans hok)] at hlaw
  have hpointer : (allocationState 2).words[(allocationState 1).base + 0]? = some 0#64 := by
    decide
  have hobject : (allocationState 2).blocks = [⟨poolBase, 16⟩] := by decide
  have haddr := hlaw.object
  rw [hobject, List.mem_singleton, Block.mk.injEq] at haddr
  have hnil := hpointer.symm.trans hlaw.pointer
  rw [haddr.1] at hnil
  revert hnil
  decide

end ClojitCvm
