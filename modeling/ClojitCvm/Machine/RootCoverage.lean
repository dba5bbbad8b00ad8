import ClojitCvm.Machine.BumpHost
import ClojitCvm.Machine.Effects

/-!
# The roots of the collector

The collector scans the memory that was registered as a root: the stack and the registers
of the thread, and the array of the slots up to its capacity.  The array holds nothing
beyond the slots that were written, and the symbol table is no root.

Main results:

- Theorem {lit}`VM.WellFramed.pointersRooted_iff`: when all pointers the program can read
  lie in a root.
- Theorem {lit}`roots_never_cover`: the roots of no program are initialised.
-/

namespace ClojitCvm

open ByteMemory CellArray Slot

/-! ## Roots -/

/-- A word of memory: in an array of slots, or the value of a name in the hash table. -/
inductive WordLocation where
  | cell (block index : Nat)
  | entry (key : List Byte)
deriving DecidableEq

/-- What is passed to the calls of {lit}`mps_root_create`: the stack and the registers of
the thread, or a table. -/
inductive Root where
  | thread
  | table (root : RootTable)
deriving DecidableEq

/-- Neither the arrays nor the hash table lie on the stack of the thread. -/
def Root.Covers : Root → WordLocation → Prop
  | .table root, .cell block index => block = root.block ∧ index < root.count
  | _, _ => False

namespace VM

/-- The roots that are registered if no call is refused: {lit}`vm_init` registers the thread,
and the slots register each of their arrays in place of the one before. -/
def roots (vm : VM) : List Root :=
  [.thread, .table vm.slots.rootO]

/-- The word in memory, if it was written. -/
def at? (vm : VM) : WordLocation → Option Word
  | .cell block index => if block = vm.slots.block then load vm.slots.data index else none
  | .entry key => vm.symbolTable.lookup key

/-- The words that {lit}`get` and {lit}`NSGET` can read. -/
inductive Readable (host : Host) (sec : Sections) (vm : VM) : WordLocation → Prop
  | get {index : Nat} (hindex : index < vm.slots.size) :
      Readable host sec vm (.cell vm.slots.block index)
  | nsget {d : BitVec 16} {key : List Byte} (hkey : nameOf? host sec d = some key) :
      Readable host sec vm (.entry key)

/-- Every word of a root was written. -/
def RootsInitialised (vm : VM) : Prop :=
  ∀ root ∈ vm.roots, ∀ loc, root.Covers loc → ∃ word, vm.at? loc = some word

/-- Every pointer the program can read lies in a root. -/
def PointersRooted (host : Host) (sec : Sections) (vm : VM) : Prop :=
  ∀ loc word, Readable host sec vm loc → vm.at? loc = some word → isPointer word = true →
    ∃ root ∈ vm.roots, root.Covers loc

end VM

/-! ## Arrays -/

/-- Every cell of the registered array was written. -/
def Slots.Initialised (slots : Slots) : Prop :=
  ∀ index < slots.rootO.count, ∃ word, load slots.data index = some word

/-- A fresh array holds nothing behind the slots in use. -/
theorem moveTo_not_initialised {slots slots' : Slots} {capacity : Nat} {call : RootCall}
    (hroom : slots.size < capacity) (hmove : moveTo slots capacity call = .ok slots') :
    ¬ slots'.Initialised := by
  unfold moveTo copy at hmove
  by_cases hle : slots.size ≤ slots.data.length ∧ slots.size ≤ (malloc capacity : Cells Word).length
  · rw [if_pos hle] at hmove
    cases hmove
    intro hinit
    rcases hinit slots.size hroom with ⟨word, hword⟩
    have hcell : load (slots.data.take slots.size ++ (malloc capacity).drop slots.size)
        slots.size = none := by
      rw [load, List.getElem?_append_right (by simp), List.length_take, Nat.min_eq_left hle.1,
        Nat.sub_self, List.getElem?_drop]
      simp [malloc, hroom]
    rw [hcell] at hword
    cases hword
  · rw [if_neg hle] at hmove
    cases hmove

theorem slotsInit_not_initialised : ¬ slotsInit.Initialised := by
  intro h
  rcases h 0 (by decide) with ⟨word, hword⟩
  cases hword

namespace Slots.Represents

variable {slots slots' : Slots} {xs : List Word}

/-- An array that was halved is larger than the slots in use. -/
theorem half_not_initialised (h : slots.Represents xs) (hsparse : sparse slots = true)
    (hhalf : slotsHalfCapacity slots = .ok slots') : ¬ slots'.Initialised := by
  rcases h.sparse_iff.mp hsparse with ⟨_, hle⟩
  rcases h.capacity_eq with ⟨k, _, hcap⟩
  have hpos := Nat.two_pow_pos k
  exact moveTo_not_initialised (by omega) hhalf

/-- An array that was doubled is larger than the slots in use. -/
theorem double_not_initialised (h : slots.Represents xs) (hfull : slots.capacity ≤ slots.size)
    (hdouble : slotsDoubleCapacityIfFull slots = .ok slots') : ¬ slots'.Initialised := by
  rcases of_eq_ok h.double hdouble with ⟨_, _, hlt⟩
  unfold slotsDoubleCapacityIfFull at hdouble
  rw [if_pos hfull] at hdouble
  rw [moveTo_capacity hdouble, ← h.size_eq] at hlt
  exact moveTo_not_initialised hlt hdouble

end Slots.Represents

/-! ## States -/

namespace VM

variable {host : Host} {sec : Sections} {vm : VM}

/-- The table of the slots is the only root with words of the program. -/
theorem WellFramed.covers_iff (h : vm.WellFramed) {loc : WordLocation} :
    (∃ root ∈ vm.roots, root.Covers loc) ↔
      ∃ index < vm.slots.capacity, loc = .cell vm.slots.block index := by
  simp only [roots, List.mem_cons, List.not_mem_nil, or_false, exists_eq_or_imp,
    exists_eq_left, h.slots.root_eq]
  cases loc with
  | cell block index => simp [Root.Covers, and_comm]
  | entry key => simp [Root.Covers]

theorem WellFramed.rootsInitialised_iff (h : vm.WellFramed) :
    vm.RootsInitialised ↔ vm.slots.Initialised := by
  unfold RootsInitialised Slots.Initialised
  rw [h.slots.root_eq]
  constructor
  · intro hroots index hindex
    rcases h.covers_iff.mpr ⟨index, hindex, rfl⟩ with ⟨root, hroot, hcovers⟩
    have hword := hroots root hroot _ hcovers
    rwa [at?, if_pos rfl] at hword
  · intro hinit root hroot loc hcovers
    rcases h.covers_iff.mp ⟨root, hroot, hcovers⟩ with ⟨index, hindex, rfl⟩
    rw [at?, if_pos rfl]
    exact hinit index hindex

/-- The slots in use lie in the root, and the symbol table does not. -/
theorem WellFramed.pointersRooted_iff (h : vm.WellFramed) :
    PointersRooted host sec vm ↔ ∀ d key word, nameOf? host sec d = some key →
      vm.symbolTable.lookup key = some word → isPointer word = false := by
  unfold PointersRooted
  constructor
  · intro hrooted d key word hkey hword
    rw [Bool.eq_false_iff]
    intro hpointer
    rcases h.covers_iff.mp (hrooted _ word (.nsget hkey) hword hpointer) with ⟨_, _, hloc⟩
    cases hloc
  · intro hnames loc word hreadable hword hpointer
    rw [h.covers_iff]
    cases hreadable with
    | @get index hindex =>
        have hle := h.slots.size_le_capacity
        exact ⟨index, by omega, rfl⟩
    | nsget hkey =>
        have hfalse := hnames _ _ word hkey hword
        rw [hpointer] at hfalse
        cases hfalse

end VM

/-- The roots of a run are never initialised throughout: not in the first state, and not
behind any change of the capacity.  The pointers the program can read lie in a root exactly
as long as none is the value of a name. -/
theorem roots_never_cover (host : Host) (sec : Sections) :
    (¬ ∀ vm, Reachable host sec vm → vm.RootsInitialised) ∧
    (∀ slots slots' xs, slots.Represents xs →
      (sparse slots = true → slotsHalfCapacity slots = .ok slots' → ¬ slots'.Initialised) ∧
      (slots.capacity ≤ slots.size → slotsDoubleCapacityIfFull slots = .ok slots' →
        ¬ slots'.Initialised)) ∧
    ∀ vm, Reachable host sec vm → (vm.PointersRooted host sec ↔
      ∀ d key word, nameOf? host sec d = some key → vm.symbolTable.lookup key = some word →
        isPointer word = false) := by
  refine ⟨?_, ?_, ?_⟩
  · intro h
    have hframed : (vmInit host).WellFramed := VM.vmInit_wellFramed host
    exact slotsInit_not_initialised (hframed.rootsInitialised_iff.mp (h _ .init))
  · intro slots slots' xs hslots
    exact ⟨hslots.half_not_initialised, hslots.double_not_initialised⟩
  · intro vm hreach
    exact hreach.wellFormed.toWellFramed.pointersRooted_iff

/-- A program that gives a pointer a name. -/
def namedPointer : CvmbFile where
  sections := [.instructions [.ad Opcode.ckey.number 0 0, .ad Opcode.nsset.number 0 0], .cint [],
    .cstr [[97]]]
  nodup := by decide
  wellFormed := by decide

def namedPointerHost : Host :=
  bumpHost namedPointer (by decide)

def namedPointerState : VM :=
  stateAfter namedPointerHost (loadfile namedPointerHost) 2

/-- The first state has a root that nothing was written to, and behind the program a pointer
lies outside the roots. -/
theorem namedPointer_not_covered :
    (¬ ∀ host sec vm, Reachable host sec vm → vm.RootsInitialised) ∧
      ¬ ∀ host sec vm, Reachable host sec vm → vm.PointersRooted host sec := by
  constructor
  · intro h
    have hframed := VM.vmInit_wellFramed namedPointerHost
    exact slotsInit_not_initialised (hframed.rootsInitialised_iff.mp
      (h namedPointerHost (loadfile namedPointerHost) _ .init))
  · intro h
    have hreach : Reachable namedPointerHost (loadfile namedPointerHost) namedPointerState :=
      reachable_stateAfter (by decide)
    have hkey : nameOf? namedPointerHost (loadfile namedPointerHost) 0#16 = some [97] := by
      decide +kernel
    have hlookup : namedPointerState.symbolTable.lookup [97] = some 4152#64 := by decide
    have hpointer : isPointer 4152#64 = true := by decide
    have hfalse := hreach.wellFormed.toWellFramed.pointersRooted_iff.mp (h _ _ _ hreach) _ _ _
      hkey hlookup
    rw [hpointer] at hfalse
    cases hfalse

end ClojitCvm
