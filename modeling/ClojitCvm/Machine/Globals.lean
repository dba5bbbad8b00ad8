import ClojitCvm.Machine.BumpHost
import ClojitCvm.Machine.FunctionValues
import ClojitCvm.Machine.Tracing

/-!
# Globals

The instruction {lit}`NSSET` binds a name of the string table to the value of a slot, and
{lit}`NSGET` reads the binding, from any function and any number of calls later.  A log of
the bindings kept beside the run says what is read: the last one of the name, and null if
there is none.

Main results:

- Definition {lit}`stepBound`: a turn of the machine with the log beside it.
- Theorem {lit}`globals_last_bound`: in every run the symbol table is the log, read from the
  last binding on.
- Theorem {lit}`globals_of_any_table`: nothing but the laws of the hash table shows in a run.
-/

namespace ClojitCvm

open ByteMemory KeyTable LockStep Slot

/-! ## The log of bindings -/

/-- A binding of a name. -/
abbrev Binding : Type := List Byte × Word

/-- The bindings behind a turn. -/
def boundBehind (host : Host) (sec : Sections) (vm : VM) (log : List Binding) : List Binding :=
  match current? host sec vm with
  | some inst =>
      if inst.op = some .nsset then
        ((nameOf? host sec inst.d).bind fun name =>
          vm.words[vm.base + inst.a]?.map fun value => (name, value)).toList ++ log
      else log
  | none => log

/-- A turn of the machine with the bindings made so far kept beside it, the last one first. -/
def stepBound (host : Host) (sec : Sections) :
    VM × List Binding → Outcome VM (VM × List Binding) :=
  recorded (step host sec) fun vm _ log => boundBehind host sec vm log

/-- The binding that {lit}`add_builtin_function` makes. -/
def builtinBinding (host : Host) : Binding :=
  (printlnName, toBuiltin host.println)

/-- The table has what was bound last, and every name once. -/
structure Bound (vm : VM) (log : List Binding) : Prop where
  lookup_eq : ∀ name, vm.symbolTable.lookup name = log.lookup name
  nodup : (vm.symbolTable.map Prod.fst).Nodup

namespace Bound

variable {host : Host} {sec : Sections} {vm vm' : VM} {log : List Binding}

theorem init (host : Host) : Bound (vmInit host) [builtinBinding host] :=
  ⟨fun _ => rfl, List.nodup_singleton _⟩

/-- The bindings are those of every lawful table with the same insertions, so nothing but the
laws of the hash table shows. -/
theorem getSymbolTable_eq {τ : Type} {ops : TableOps τ (List Byte) Word} (hops : ops.Lawful)
    (h : Bound vm log) (name : List Byte) :
    vm.getSymbolTable name = (ops.lookup (ops.insertAll log) name).getD 0#64 := by
  rw [VM.getSymbolTable_eq, h.lookup_eq, hops.lookup_insertAll]

theorem congr (h : Bound vm log) (htable : vm'.symbolTable = vm.symbolTable) :
    Bound vm' log := by
  rcases h with ⟨hlookup, hnodup⟩
  rw [← htable] at hlookup hnodup
  exact ⟨hlookup, hnodup⟩

/-- An insertion into the table is one more binding. -/
theorem cons (h : Bound vm log) {name : List Byte} {value : Word}
    (htable : vm'.symbolTable = (vm.addSymbolTablePair name value).symbolTable) :
    Bound vm' ((name, value) :: log) where
  lookup_eq key := by
    rw [htable]
    by_cases hkey : key = name
    · subst hkey
      rw [VM.lookup_addSymbolTablePair_self, List.lookup_cons_self]
    · have hbeq : (key == name) = false := by simpa using hkey
      rw [VM.lookup_addSymbolTablePair_of_ne vm value hkey, List.lookup_cons, hbeq]
      exact h.lookup_eq key
  nodup := by
    rw [htable]
    exact nodup_assoc_insert h.nodup name value

/-- A turn keeps the table and the log together. -/
theorem step (h : Bound vm log) (hreach : Reachable host sec vm)
    (hok : ClojitCvm.step host sec vm = .ok vm') :
    Bound vm' (boundBehind host sec vm log) := by
  rcases VM.step_effect hreach.wellFormed.toWellFramed hreach.wellFormed.fits hok with
    ⟨inst, hinst, ha, _, _, actions, heffect, _⟩
  unfold boundBehind
  rw [hinst]
  by_cases hop : inst.op = some .nsset
  · have hexec := VM.step_eq_execute hinst ▸ hok
    rw [hop] at hexec
    rcases VM.execNsset_table hreach.wellFormed.toWellFramed ha hexec with
      ⟨name, value, hname, hvalue, htable⟩
    dsimp only
    rw [if_pos hop, hname, hvalue]
    exact h.cons htable
  · dsimp only
    rw [if_neg hop]
    exact h.congr (VM.Effect.symbolTable_eq heffect hop)

end Bound

section Runs

variable {host : Host} {sec : Sections} {vm vm' : VM} {log : List Binding}

/-- The table and the log are kept together throughout a run. -/
theorem bound_of_steps {n : Nat}
    (hrun : steps (stepBound host sec) n (vmInit host, [builtinBinding host]) =
      .ok (vm, log)) : Reachable host sec vm ∧ Bound vm log := by
  refine steps_induction (P := fun s => Reachable host sec s.1 ∧ Bound s.1 s.2)
    (fun s s' h hok => ?_) ⟨.init, .init host⟩ hrun
  rcases recorded_eq_ok.mp hok with ⟨next, hstep, rfl⟩
  exact ⟨h.1.step hstep, h.2.step h.1 hstep⟩

/-- In every run the machine reads what it would read from any other hash table that keeps
the laws, after the same insertions. -/
theorem globals_of_any_table {τ : Type} {ops : TableOps τ (List Byte) Word} (hops : ops.Lawful)
    {n : Nat} (hrun : steps (stepBound host sec) n (vmInit host, [builtinBinding host]) =
      .ok (vm, log)) (name : List Byte) :
    vm.getSymbolTable name = (ops.lookup (ops.insertAll log) name).getD 0#64 :=
  (bound_of_steps hrun).2.getSymbolTable_eq hops name

/-- In every run a name has the value it was bound to last, by {lit}`NSSET` or before the run,
and null if it was never bound; this is what {lit}`NSGET` puts into its slot.  The table
never has a name twice. -/
theorem globals_last_bound {n : Nat}
    (hrun : steps (stepBound host sec) n (vmInit host, [builtinBinding host]) =
      .ok (vm, log)) :
    (∀ name, vm.getSymbolTable name = (log.lookup name).getD 0#64) ∧
      (vm.symbolTable.map Prod.fst).Nodup ∧
      ∀ inst vm', current? host sec vm = some inst → inst.op = some .nsget →
        step host sec vm = .ok vm' → ∃ name, nameOf? host sec inst.d = some name ∧
          vm'.words[vm.base + inst.a]? = some ((log.lookup name).getD 0#64) := by
  rcases bound_of_steps hrun with ⟨hreach, hbound⟩
  have hget (name : List Byte) : vm.getSymbolTable name = (log.lookup name).getD 0#64 := by
    rw [hbound.getSymbolTable_eq assocOps_lawful, assocOps_lawful.lookup_insertAll]
  refine ⟨hget, hbound.nodup, ?_⟩
  intro inst vm' hinst hop hok
  have hexec := VM.step_eq_execute hinst ▸ hok
  rw [hop] at hexec
  rcases VM.execNsget_words hreach.wellFormed.toWellFramed (VM.current?_lt hinst).1 hexec with
    ⟨name, hname, hword⟩
  exact ⟨name, hname, hget name ▸ hword⟩

end Runs

/-- A program that binds a name twice and reads it. -/
def boundTwice : CvmbFile where
  sections := [.instructions [.ad Opcode.cshort.number 1 5, .ad Opcode.nsset.number 1 0,
    .ad Opcode.cshort.number 1 7, .ad Opcode.nsset.number 1 0, .ad Opcode.nsget.number 2 0,
    .ad Opcode.exit.number 0 0], .cint [], .cstr [[0x78#8]]]
  nodup := by decide
  wellFormed := by decide

def boundTwiceHost : Host :=
  bumpHost boundTwice (by decide)

def boundTwiceState (n : Nat) : VM :=
  stateAfter boundTwiceHost (loadfile boundTwiceHost) n

/-- The state in front of the {lit}`NSGET`. -/
theorem boundTwice_bound :
    ∃ log, steps (stepBound boundTwiceHost (loadfile boundTwiceHost)) 4
          (vmInit boundTwiceHost, [builtinBinding boundTwiceHost]) =
        .ok (boundTwiceState 4, log) ∧
      (∀ name, (boundTwiceState 4).getSymbolTable name = (log.lookup name).getD 0#64) ∧
      ((boundTwiceState 4).symbolTable.map Prod.fst).Nodup ∧
      ∀ inst vm', current? boundTwiceHost (loadfile boundTwiceHost) (boundTwiceState 4) =
          some inst → inst.op = some .nsget →
        step boundTwiceHost (loadfile boundTwiceHost) (boundTwiceState 4) = .ok vm' →
          ∃ name, nameOf? boundTwiceHost (loadfile boundTwiceHost) inst.d = some name ∧
            vm'.words[(boundTwiceState 4).base + inst.a]? =
              some ((log.lookup name).getD 0#64) := by
  have hrun : run boundTwiceHost (loadfile boundTwiceHost) 4 (vmInit boundTwiceHost) =
      .ok (boundTwiceState 4) := run_stateAfter (by decide)
  rw [run_eq_steps] at hrun
  rcases exists_recorded hrun (fun vm _ log => boundBehind boundTwiceHost _ vm log)
    [builtinBinding boundTwiceHost] with ⟨log, hlog⟩
  exact ⟨log, hlog, globals_last_bound hlog⟩

end ClojitCvm
