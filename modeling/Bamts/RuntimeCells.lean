import Bamts.ProgramLink
import Bamts.RuntimeIterate

/-! The cells of a linked program: every binding of a module has one, and an imported binding shares
the cell of the binding or of the outside export it resolves to. -/
set_option linter.all false
namespace Bamts.Runtime
open Effect Bytecode Linkage

def externalModuleUnavailable (module : ModuleId) (edge : EdgeId) : Fault := runtimeFault (.externalModuleUnavailable module edge)

def allocateCell (limit : Nat) (value : Value) : Exec Nat := do
  let m ← read
  if limit ≤ m.registry.cells.length then fail (runtimeFault (.moduleCellLimitExceeded limit))
  else do
    update fun m => { m with registry.cells := m.registry.cells ++ [value] }
    pure m.registry.cells.length

-- `get_mut` of a map.
def updateKey {α : Type} (key : EcmaString) (f : α → α) (entries : List (EcmaString × α)) : List (EcmaString × α) :=
  entries.map fun entry => if entry.1 = key then (entry.1,f entry.2) else entry

def Machine.setExternalCell (m : Machine) (specifier name : EcmaString) (cell : Nat) : Machine :=
  { m with registry.external := updateKey specifier (fun source =>
      { source with exports := updateKey name (fun found => { found with cell := some cell }) source.exports }) m.registry.external }

def Machine.setBindingCell (m : Machine) (module binding cell : Nat) : Machine :=
  { m with registry.modules := m.registry.modules.modify module fun found =>
      { found with bindingCells := found.bindingCells.set binding (some cell) } }

def Machine.externalSpecifier (m : Machine) (module : ModuleId) (edge : EdgeId) : Except Fault (Option EcmaString) := do
  let source ← orPanic (m.programModule module)
  let dependency ← orPanic source.edges[edge.get.toNat]?
  let specifier ← orPanic (m.constantText module dependency.specifier)
  .ok (if (m.externalModule specifier).isSome then some specifier else none)

def externalExportCell (limit : Nat) (module : ModuleId) (edge : EdgeId) (name : EcmaString) : Exec Nat := do
  let m ← read
  match ← lift (m.externalSpecifier module edge) with
  | none => fail (externalModuleUnavailable module edge)
  | some specifier =>
    match (m.externalModule specifier).bind fun source => source.exports.lookup name with
    | none => fail (externalModuleUnavailable module edge)
    | some found =>
      match found.cell with
      | some cell => pure cell
      | none => do
        let cell ← allocateCell limit found.value
        update fun m => m.setExternalCell specifier name cell
        pure cell

def linkReexport (limit : Nat) (target : ModuleId) (name : EcmaString) : Exec Unit := do
  let m ← read
  let program ← lift (orPanic m.program)
  match resolveExport program target name with
  | some (.external module edge name) => do
    let name ← lift (orPanic (m.constantText module name))
    let _ ← externalExportCell limit module edge name
    pure ()
  | _ => pure ()

def moduleNamespace (limit : Nat) (target : ModuleId) : Exec Value := do
  let m ← read
  let found ← lift (orPanic m.registry.modules[target.get.toNat]?)
  match found.namespace_ with
  | some value => pure value
  | none => do
    let source ← lift (orPanic (m.programModule target))
    let names ← lift (source.exports.mapM fun e => orPanic (m.constantText target e.name))
    forM names (linkReexport limit target)
    let value ← allocate (.moduleNamespace target)
    update fun m => { m with registry.modules := m.registry.modules.modify target.get.toNat fun found => { found with namespace_ := some value } }
    pure value

def externalNamespace (limit : Nat) (module : ModuleId) (edge : EdgeId) : Exec Value := do
  let m ← read
  match ← lift (m.externalSpecifier module edge) with
  | none => fail (externalModuleUnavailable module edge)
  | some specifier => do
    let source ← lift (orPanic (m.externalModule specifier))
    forM (source.exports.map Prod.fst) fun name => do
      let _ ← externalExportCell limit module edge name
      pure ()
    pure source.namespace_

def Machine.boundCell (m : Machine) (module binding : Nat) : Option Nat :=
  (m.registry.modules[module]?.bind fun found => found.bindingCells[binding]?).join

def importedCell (limit : Nat) (module : ModuleId) (edge : EdgeId) (name : ConstantId) : Exec Nat := do
  let m ← read
  let source ← lift (orPanic (m.programModule module))
  let dependency ← lift (orPanic source.edges[edge.get.toNat]?)
  let text ← lift (orPanic (m.constantText module name))
  match dependency.target with
  | .external => externalExportCell limit module edge text
  | .local target => do
    let program ← lift (orPanic m.program)
    match resolveExport program target text with
    | some (.local module binding) => lift (orPanic (m.boundCell module.get.toNat binding.get.toNat))
    | some (.external module edge name) => do
      let text ← lift (orPanic (m.constantText module name))
      externalExportCell limit module edge text
    | none => fail (runtimeFault (.invalidVerifiedProgram module (.import ⟨0⟩ name)))

def namespaceCell (limit : Nat) (module : ModuleId) (edge : EdgeId) : Exec Nat := do
  let m ← read
  let source ← lift (orPanic (m.programModule module))
  let dependency ← lift (orPanic source.edges[edge.get.toNat]?)
  let value ← match dependency.target with
    | .local target => moduleNamespace limit target
    | .external => externalNamespace limit module edge
  allocateCell limit value

structure BindingSite where
  module : Nat
  binding : Nat
  kind : BindingKind

def BindingSite.id (site : BindingSite) : ModuleId := ⟨UInt32.ofNat site.module⟩

def bindingSites (program : Program) : List BindingSite :=
  program.modules.zipIdx.flatMap fun module => module.1.bindings.zipIdx.map fun binding => ⟨module.2,binding.2,binding.1.kind⟩

def ownCell (limit : Nat) (site : BindingSite) : Exec Unit :=
  let initial := match site.kind with
    | .hoisted => some Value.undefined
    | .lexical => some Value.uninitialized
    | .imported .. | .namespace _ => none
  match initial with
  | none => pure ()
  | some value => do
    let cell ← allocateCell limit value
    update fun m => m.setBindingCell site.module site.binding cell

def aliasCell (limit : Nat) (site : BindingSite) : Exec Unit := do
  match site.kind with
  | .hoisted | .lexical => pure ()
  | .imported edge name => do
    let cell ← importedCell limit site.id edge name
    update fun m => m.setBindingCell site.module site.binding cell
  | .namespace edge => do
    let cell ← namespaceCell limit site.id edge
    update fun m => m.setBindingCell site.module site.binding cell

def emptyInstance (m : ProgramModule) : ModuleInstance := ⟨List.replicate m.bindings.length none,none,.unevaluated,none⟩

def constantCell (m : ProgramModule) (cells : List (Option Nat)) : Constant → Option Nat
  | .string name => ((m.bindings.findIdx? fun binding => string m.code binding.name = some name).bind fun j => cells[j]?).join
  | _ => none

def constantCells (program : Program) (modules : List ModuleInstance) : List (List (Option Nat)) :=
  List.zipWith (fun m found => m.code.constants.map (constantCell m found.bindingCells)) program.modules modules

def instantiateModules (limit : Nat) : Exec (List (List (Option Nat))) := do
  let m ← read
  let program ← lift (orPanic m.program)
  update fun m => { m with registry.modules := program.modules.map emptyInstance }
  forM (bindingSites program) (ownCell limit)
  forM (bindingSites program) (aliasCell limit)
  let m ← read
  pure (constantCells program m.registry.modules)

end Bamts.Runtime
