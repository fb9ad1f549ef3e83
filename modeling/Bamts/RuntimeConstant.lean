import Bamts.ProgramImport
import Bamts.RuntimeInstantiate
import Bamts.RuntimeSolvent

/-! Assigning to the name of a module binding: the name leads to a cell, and the first binding with that
cell decides whether it may be assigned. -/
set_option linter.all false
namespace Bamts.Runtime
open Effect Bytecode Linkage
open Outcome (bindOk seqOk rejectIfOk)

def constantAssignment : Fault := typeError "assign to immutable module binding"

def storeGlobal (constants : List (List (Option Nat))) (module : ModuleId) (name : ConstantId) (value : Value) : Exec (Option EcmaString) := do
  let m ← read
  match (constants[module.get.toNat]?.bind fun cells => cells[name.get.toNat]?).join with
  | none => do
    let text ← lift (orPanic (m.constantText module name))
    pure (some text)
  | some cell => do
    let found ← lift (orPanic m.registry.modules[module.get.toNat]?)
    let binding ← lift (orPanic (found.bindingCells.findIdx? fun candidate => candidate = some cell))
    let source ← lift (orPanic (m.programModule module))
    let target ← lift (orPanic source.bindings[binding]?)
    if isImmutable target.kind then fail constantAssignment
    else if m.registry.cells.length ≤ cell then fail (.panicked .unexpected)
    else do
      update fun m => { m with registry.cells := m.registry.cells.set cell value }
      pure none

inductive CellOperation where
  | moduleNamespace (target : ModuleId)
  | externalNamespace (module : ModuleId) (edge : EdgeId)
  | installScript (script : Program)
  | setState (module : ModuleId) (state : ModuleState)
  | storeGlobal (module : ModuleId) (name : ConstantId) (value : Value)

def CellOperation.run (limit : Nat) (constants : List (List (Option Nat))) : CellOperation → Exec Unit
  | .moduleNamespace target => do
    let _ ← Runtime.moduleNamespace limit target
    pure ()
  | .externalNamespace module edge => do
    let _ ← Runtime.externalNamespace limit module edge
    pure ()
  | .installScript script => update fun m =>
    { m with dynamic := m.dynamic ++ [script],registry.modules := m.registry.modules ++ [⟨[],none,.unevaluated,none⟩] }
  | .setState module state => update fun m =>
    { m with registry.modules := m.registry.modules.modify module.get.toNat fun found => { found with state := state } }
  | .storeGlobal module name value => do
    let _ ← Runtime.storeGlobal constants module name value
    pure ()

def Rejected (constants : List (List (Option Nat))) (module : ModuleId) (name : ConstantId) (value : Value) (m : Machine) : Prop :=
  ∃ t, storeGlobal constants module name value m = .error constantAssignment t

def NamedImmutable (source : ProgramModule) (text : EcmaString) : Prop :=
  ∃ b ∈ source.bindings, string source.code b.name = some text ∧ isImmutable b.kind = true

def Leads (p : Program) (module : Nat) (source : ProgramModule) (given : BindingSite) (k : Nat) (b : Binding) : Prop :=
  source.bindings[k]? = some b ∧ BindingSite.origin p ⟨module,k,b.kind⟩ = given.origin p ∧
    ∀ l < k, ∀ b', source.bindings[l]? = some b' → BindingSite.origin p ⟨module,l,b'.kind⟩ ≠ given.origin p

def Unmixed (p : Program) (module : Nat) (source : ProgramModule) (text : EcmaString) : Prop :=
  ∀ (j : Nat) b, source.bindings[j]? = some b → string source.code b.name = some text →
    ∀ k b', Leads p module source ⟨module,j,b.kind⟩ k b' → isImmutable b'.kind = isImmutable b.kind

section
variable {p : Program} {start s : Machine} {limit : Nat} {constants : List (List (Option Nat))} {id : ModuleId} {source : ProgramModule}

-- A state after linking: the modules of the program keep their cells.
structure CellsKept (p : Program) (start s : Machine) : Prop where
  based : Based p s
  full : p.modules.length ≤ s.registry.modules.length
  table : ∀ i < p.modules.length, s.bindingTable[i]? = start.bindingTable[i]?

theorem growKept {t} (kept : CellsKept p start s) (grown : CellsGrow p s t) : CellsKept p start t :=
  ⟨grown.1.based kept.based,kept.full.trans (Nat.le_of_eq (tableLength grown.1.table).symm),fun i inside => (congrArg (·[i]?) grown.1.table).trans (kept.table i inside)⟩

theorem requestKept {α} {x : Exec α} (requests : Requests p x) (kept : CellsKept p start s) :
    After (x >>= fun _ => pure ()) s (fun _ t => CellsKept p start t) (fun _ t => CellsKept p start t) := by
  rw [afterBind]
  exact (requests s).mono (fun _ _ grown => growKept kept grown) fun _ _ grown => growKept kept grown

theorem storeKept (module name value) : Requests p (storeGlobal constants module name value) := by
  refine requestsRead.bind fun m => ?_
  cases (constants[module.get.toNat]?.bind fun cells => cells[name.get.toNat]?).join with
  | none => exact (requestsLift _).bind fun text => requestsPure _
  | some cell =>
    refine (requestsLift _).bind fun found => (requestsLift _).bind fun binding => (requestsLift _).bind fun source => (requestsLift _).bind fun target => ?_
    split
    · exact requestsFail _
    · split
      · exact requestsFail _
      · refine Requests.bind (fun t => ?_) fun _ => requestsPure _
        exact growSame ⟨rfl,rfl,rfl⟩ rfl (Nat.le_of_eq (List.length_set ..).symm)

theorem operationKept (operation : CellOperation) (kept : CellsKept p start s) :
    After (operation.run limit constants) s (fun _ t => CellsKept p start t) (fun _ t => CellsKept p start t) := by
  cases operation with
  | moduleNamespace target => exact requestKept (requestsModule target) kept
  | externalNamespace module edge => exact requestKept (requestsExternal module edge) kept
  | storeGlobal module name value => exact requestKept (storeKept module name value) kept
  | installScript script =>
    have full := kept.full
    refine ⟨⟨kept.based.program,kept.based.base⟩,?_,fun i inside => ?_⟩
    · simp only [List.length_append]
      omega
    · rw [← kept.table i inside]
      simp only [Machine.bindingTable,List.map_append]
      exact List.getElem?_append_left (by rw [List.length_map]; omega)
  | setState module state =>
    refine ⟨⟨kept.based.program,kept.based.base⟩,kept.full.trans (Nat.le_of_eq (List.length_modify ..).symm),fun i inside => ?_⟩
    rw [← kept.table i inside]
    simp only [Machine.bindingTable,List.getElem?_map,List.getElem?_modify]
    split <;> cases s.registry.modules[i]? <;> rfl

theorem namesDistinct (linked : Linked p) (at_ : p.module id = some source) {j k : Nat} {b b' text}
    (first : source.bindings[j]? = some b) (second : source.bindings[k]? = some b') (named : string source.code b.name = some text)
    (named' : string source.code b'.name = some text) : j = k := by
  have metadata := linkedMetadata linked at_
  obtain ⟨_,ok⟩ := seqOk.mp metadata
  obtain ⟨_,ok⟩ := seqOk.mp ok
  obtain ⟨_,ok⟩ := seqOk.mp ok
  obtain ⟨_,_,ok⟩ := bindOk.mp ok
  obtain ⟨_,bindings,_⟩ := bindOk.mp ok
  have distinct := (Outcome.foldKeyed (fun b : Binding => string source.code b.name) (fun b => BindingLinks source b.kind)
    bindings fun _ _ _ _ => verifyBindingOk).2
  by_contra apart
  obtain ⟨small,rfl⟩ := List.getElem?_eq_some_iff.mp first
  obtain ⟨small',rfl⟩ := List.getElem?_eq_some_iff.mp second
  obtain less | more := Nat.lt_or_gt_of_ne apart
  · exact List.pairwise_iff_getElem.mp distinct j k small small' less (named.trans named'.symm)
  · exact List.pairwise_iff_getElem.mp distinct k j small' small more (named'.trans named.symm)

theorem moduleCells (progress : Progress p [] [] start) (kept : CellsKept p start s) (at_ : p.module id = some source) :
    ∃ before after, start.registry.modules[id.get.toNat]? = some before ∧ s.registry.modules[id.get.toNat]? = some after ∧
      after.bindingCells = before.bindingCells := by
  have inside : id.get.toNat < p.modules.length := (List.getElem?_eq_some_iff.mp at_).1
  have small := progress.full.symm ▸ inside
  have small' := inside.trans_le kept.full
  refine ⟨_,_,List.getElem?_eq_getElem small,List.getElem?_eq_getElem small',?_⟩
  have same := kept.table _ inside
  rw [Machine.bindingTable,Machine.bindingTable,List.getElem?_map,List.getElem?_map,List.getElem?_eq_getElem small,List.getElem?_eq_getElem small'] at same
  exact Option.some.inj same

theorem constantAt {before name text} (at_ : p.module id = some source)
    (there : start.registry.modules[id.get.toNat]? = some before) (spelled : string source.code name = some text) :
    ((constantCells p start.registry.modules)[id.get.toNat]?.bind fun cells => cells[name.get.toNat]?).join =
      ((source.bindings.findIdx? fun b => string source.code b.name = some text).bind fun j => before.bindingCells[j]?).join := by
  have constant : source.code.constants[name.get.toNat]? = some (.string text) := by
    unfold string at spelled
    split at spelled
    · cases spelled
      assumption
    · cases spelled
  rw [constantCells,List.getElem?_zipWith,show p.modules[id.get.toNat]? = some source from at_,there]
  simp only [Option.bind_some,List.getElem?_map,constant,Option.map_some]
  rfl

theorem siteInside {j b} (at_ : p.module id = some source) (there : source.bindings[j]? = some b) :
    ⟨id.get.toNat,j,b.kind⟩ ∈ bindingSites p := memSites.mpr ⟨source,b,at_,there,rfl⟩

theorem leadsFirst (progress : Progress p [] [] start) (at_ : p.module id = some source) {before}
    (there : start.registry.modules[id.get.toNat]? = some before) {j b} (named : source.bindings[j]? = some b) :
    ∃ c k b', before.bindingCells[j]? = some (some c) ∧ before.bindingCells.findIdx? (fun candidate => candidate = some c) = some k ∧
      Leads p id.get.toNat source ⟨id.get.toNat,j,b.kind⟩ k b' := by
  have bound : ∀ j, start.cellAt (.own id.get.toNat j) = (before.bindingCells[j]?).join := by
    intro j
    rw [Machine.cellAt,Machine.boundCell,there,Option.bind_some]
  have place : ∀ j b, BindingSite.place ⟨id.get.toNat,j,b⟩ = .own id.get.toNat j := fun _ _ => rfl
  have shared := fun {k : Nat} {b' : Binding} (other : source.bindings[k]? = some b') =>
    sharedExactly progress (siteInside at_ named) (siteInside at_ other)
  obtain ⟨c,here,_⟩ := shared named
  rw [place,bound,Option.join_eq_some_iff] at here
  have origin : ∀ {k : Nat} {b' : Binding}, source.bindings[k]? = some b' →
      (before.bindingCells[k]? = some (some c) ↔ BindingSite.origin p ⟨id.get.toNat,k,b'.kind⟩ = BindingSite.origin p ⟨id.get.toNat,j,b.kind⟩) := by
    intro k b' other
    obtain ⟨d,here',iff⟩ := shared other
    rw [place,bound,here] at here'
    cases here'
    rw [place,bound,Option.join_eq_some_iff] at iff
    exact iff
  cases found : before.bindingCells.findIdx? (fun candidate => candidate = some c) with
  | none =>
    have absent := List.findIdx?_eq_none_iff.mp found (some c) (List.mem_of_getElem? here)
    simp at absent
  | some k =>
    obtain ⟨small,hit,earlier⟩ := List.findIdx?_eq_some_iff_getElem.mp found
    have hit' : before.bindingCells[k]? = some (some c) := List.getElem?_eq_some_iff.mpr ⟨small,of_decide_eq_true hit⟩
    have early : k ≤ j := by
      by_contra late
      obtain ⟨inside,value⟩ := List.getElem?_eq_some_iff.mp here
      exact earlier j (by omega) (decide_eq_true value)
    have inside : k < source.bindings.length := early.trans_lt (List.getElem?_eq_some_iff.mp named).1
    have other := List.getElem?_eq_getElem inside
    refine ⟨c,k,_,here,found,other,(origin other).mp hit',fun l less b' at_' same => ?_⟩
    obtain ⟨inside',value⟩ := List.getElem?_eq_some_iff.mp ((origin at_').mpr same)
    exact earlier l less (decide_eq_true value)

theorem leadsUnique {module k k' given b b'} (first : Leads p module source given k b) (second : Leads p module source given k' b') : b = b' := by
  have same : k = k' := by
    by_contra apart
    obtain less | more := Nat.lt_or_gt_of_ne apart
    · exact second.2.2 k less b first.1 first.2.1
    · exact first.2.2 k' more b' second.1 second.2.1
  have at_ := second.1
  rw [← same,first.1] at at_
  exact Option.some.inj at_

theorem donePresent {α β x a} {f : α → Exec β} (present : x = some a) : (lift (orPanic x) >>= f) s = f a s := by
  rw [present]
  rfl

theorem rejectsExactly (progress : Progress p [] [] start) (kept : CellsKept p start s) (at_ : p.module id = some source) {name text} (spelled : string source.code name = some text) {j b b' k}
    (first : (source.bindings.findIdx? fun b => string source.code b.name = some text) = some j) (named : source.bindings[j]? = some b)
    (leads : Leads p id.get.toNat source ⟨id.get.toNat,j,b.kind⟩ k b') (value) :
    Rejected (constantCells p start.registry.modules) id name value s ↔ isImmutable b'.kind = true := by
  obtain ⟨before,after,there,there',cells⟩ := moduleCells progress kept at_
  obtain ⟨c,k',b'',here,found,leads'⟩ := leadsFirst progress at_ there named
  have same := leadsUnique leads leads'
  subst same
  have constant := constantAt at_ there spelled
  rw [first,Option.bind_some,here,Option.join_some] at constant
  have run : storeGlobal (constantCells p start.registry.modules) id name value s = (if isImmutable b'.kind then fail constantAssignment
      else if s.registry.cells.length ≤ c then fail (.panicked .unexpected)
      else do
        update fun m => { m with registry.cells := m.registry.cells.set c value }
        pure none : Exec (Option EcmaString)) s := by
    unfold storeGlobal
    have position : after.bindingCells.findIdx? (fun candidate => candidate = some c) = some k' := cells ▸ found
    rw [doneBind (p := Effect.read) rfl,constant]
    dsimp only
    rw [donePresent there',donePresent position,donePresent (kept.based.module at_).1,donePresent leads'.1]
  unfold Rejected
  rw [run]
  cases kind : isImmutable b'.kind with
  | true => exact iff_of_true ⟨s,rfl⟩ rfl
  | false =>
    refine iff_of_false (fun rejected => ?_) Bool.false_ne_true
    obtain ⟨t,rejected⟩ := rejected
    rw [if_neg Bool.false_ne_true] at rejected
    split at rejected
    · cases rejected
    · cases rejected

theorem unnamedStores (progress : Progress p [] [] start) (kept : CellsKept p start s) (at_ : p.module id = some source) {name text} (spelled : string source.code name = some text)
    (absent : (source.bindings.findIdx? fun b => string source.code b.name = some text) = none) (value) :
    ¬Rejected (constantCells p start.registry.modules) id name value s := by
  obtain ⟨before,after,there,there',cells⟩ := moduleCells progress kept at_
  have constant := constantAt at_ there spelled
  rw [absent,Option.bind_none,Option.join_none] at constant
  intro rejected
  obtain ⟨t,rejected⟩ := rejected
  unfold storeGlobal at rejected
  rw [doneBind (p := Effect.read) rfl,constant] at rejected
  simp only [(kept.based.module at_).2,spelled] at rejected
  cases rejected

theorem linkedRun {m} (linked : Linked p) (unlinked : Unlinked p m) (run : instantiateModules limit m = .ok constants start) :
    Progress p [] [] start ∧ constants = constantCells p start.registry.modules := by
  obtain ⟨_,links⟩ := linkedLinks linked
  have small : p.modules.length < 2^32 := by
    have count := links.moduleCount
    rw [u32Max] at count
    omega
  exact (instantiateLinks small unlinked).ok run

theorem runKept (progress : Progress p [] [] start) (runs : Runs (CellOperation.run limit constants) (fun _ _ => True) start s) : CellsKept p start s :=
  runs.invariant ⟨progress.based,Nat.le_of_eq progress.full.symm,fun _ _ => rfl⟩ fun operation _ kept _ => operationKept operation kept

/- In every state after linking, an assignment to a name is rejected exactly when the name is an imported or a namespace binding, if and only
if the first binding with the cell of the name is as assignable as the name is. -/
theorem storeRejectsExactly {m : Machine} (linked : Linked p) (unlinked : Unlinked p m) (run : instantiateModules limit m = .ok constants start)
    (runs : Runs (CellOperation.run limit constants) (fun _ _ => True) start s) (at_ : p.module id = some source) {name : ConstantId} {text : EcmaString}
    (spelled : string source.code name = some text) (value : Value) :
    (Rejected constants id name value s ↔ NamedImmutable source text) ↔ Unmixed p id.get.toNat source text := by
  obtain ⟨progress,same⟩ := linkedRun linked unlinked run
  have kept := runKept progress runs
  subst same
  cases first : source.bindings.findIdx? (fun b => string source.code b.name = some text) with
  | none =>
    have absent : ∀ b ∈ source.bindings, string source.code b.name ≠ some text := fun b inside named =>
      of_decide_eq_false (List.findIdx?_eq_none_iff.mp first b inside) named
    refine iff_of_true (iff_of_false (unnamedStores progress kept at_ spelled first value) fun found => ?_) fun j b there named => ?_
    · obtain ⟨b,inside,named,_⟩ := found
      exact absent b inside named
    · exact absurd named (absent b (List.mem_of_getElem? there))
  | some j =>
    obtain ⟨small,hit,_⟩ := List.findIdx?_eq_some_iff_getElem.mp first
    have there := List.getElem?_eq_getElem small
    have named := of_decide_eq_true hit
    have only : ∀ (k : Nat) b, source.bindings[k]? = some b → string source.code b.name = some text → k = j := fun k b there' named' =>
      namesDistinct linked at_ there' there named' named
    obtain ⟨before,_,there',_,_⟩ := moduleCells progress kept at_
    obtain ⟨_,k,b',_,_,leads⟩ := leadsFirst progress at_ there' there
    have immutable : NamedImmutable source text ↔ isImmutable source.bindings[j].kind = true := by
      constructor
      · intro found
        obtain ⟨b,inside,named',kind⟩ := found
        obtain ⟨k,at_'⟩ := List.getElem?_of_mem inside
        rw [only k b at_' named',there] at at_'
        rw [Option.some.inj at_']
        exact kind
      · intro kind
        exact ⟨_,List.getElem_mem small,named,kind⟩
    have unmixed : Unmixed p id.get.toNat source text ↔ isImmutable b'.kind = isImmutable source.bindings[j].kind := by
      constructor
      · intro always
        exact always j _ there named k b' leads
      · intro same k' b at_' named' l b'' leads'
        have position := only k' b at_' named'
        subst position
        rw [there] at at_'
        cases at_'
        rw [leadsUnique leads' leads]
        exact same
    rw [rejectsExactly progress kept at_ spelled first there leads value,immutable,unmixed]
    exact Bool.eq_iff_iff.symm

end

-- A module that imports a binding of its own under another name: `import { x as y } from "./m"; export let x`.
def selfImport : Program where
  modules := [⟨⟨0⟩,stubCode [[109],[120],[121],[46,47,109]],[⟨⟨3⟩,.local ⟨0⟩,.static⟩],[⟨⟨1⟩,.lexical⟩,⟨⟨2⟩,.imported ⟨0⟩ ⟨1⟩⟩],[⟨⟨1⟩,.local ⟨0⟩⟩]⟩]
  entry := ⟨0⟩

theorem selfImportLinked : Linked selfImport := by
  refine ⟨fun m member => ?_,by decide⟩
  rcases List.mem_singleton.mp member with rfl
  exact ⟨_,rfl⟩

def selfMachine : Machine := { bareMachine with program := some selfImport,dynamicBase := 1 }

theorem selfUnlinked : Unlinked selfImport selfMachine := ⟨⟨rfl,rfl⟩,fun _ _ => rfl⟩

def selfStart : Machine := left (instantiateModules 4) selfMachine

def selfConstants : List (List (Option Nat)) := constantCells selfImport selfStart.registry.modules

theorem selfRun : instantiateModules 4 selfMachine = .ok selfConstants selfStart := rfl

theorem storeRejectsExactlySelf :
    ∃ source, selfImport.module ⟨0⟩ = some source ∧
      ((Rejected selfConstants ⟨0⟩ ⟨1⟩ .null selfStart ↔ NamedImmutable source ⟨[120]⟩) ↔ Unmixed selfImport 0 source ⟨[120]⟩) :=
  ⟨_,rfl,storeRejectsExactly selfImportLinked selfUnlinked selfRun .start rfl rfl .null⟩

theorem importedAssigned :
    ¬∀ (p : Program) (m start s : Machine) (limit : Nat) (constants : List (List (Option Nat))), Linked p → Unlinked p m →
      instantiateModules limit m = .ok constants start → Runs (CellOperation.run limit constants) (fun _ _ => True) start s →
      ∀ (id : ModuleId) (source : ProgramModule) (name : ConstantId) (text : EcmaString) (value : Value), p.module id = some source →
      string source.code name = some text → (Rejected constants id name value s ↔ NamedImmutable source text) := by
  intro always
  have same := always selfImport selfMachine selfStart selfStart 4 selfConstants selfImportLinked selfUnlinked selfRun .start ⟨0⟩ _ ⟨2⟩ ⟨[121]⟩ .null rfl rfl
  obtain ⟨t,rejected⟩ := same.mpr ⟨_,List.mem_cons_of_mem _ List.mem_cons_self,rfl,rfl⟩
  have stored : storeGlobal selfConstants ⟨0⟩ ⟨2⟩ .null selfStart = .ok none (left (storeGlobal selfConstants ⟨0⟩ ⟨2⟩ .null) selfStart) := rfl
  rw [stored] at rejected
  cases rejected

end Bamts.Runtime
