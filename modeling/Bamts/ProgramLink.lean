import Bamts.BytecodeInit
import Bamts.ProgramModel

/-! `Program::link`: the metadata of every module, then the three-colour walk over every
export chain, then the imported bindings. A `panicked` fault stands for the source's
`expect` and slice indexing. -/
set_option linter.all false
namespace Bamts.Linkage
open Bytecode
open Outcome (bindOk seqOk rejectIf rejectIfOk eachFrom eachFromOk foldFrom foldKeyed)

inductive ProgramVerifyErrorKind where
  | emptyProgram
  | tooManyModules (count : Nat)
  | entryModuleOutOfBounds (entry : UInt32) (moduleCount : Nat)
  | module (error : VerifyError)
  | moduleNameOutOfBounds (constant : ConstantId)
  | moduleNameNotString (constant : ConstantId)
  | invalidModuleName
  | metadataStringIllFormed (constant : ConstantId)
  | duplicateModuleName (first : ModuleId)
  | tooManyEdges (count : Nat)
  | tooManyBindings (count : Nat)
  | tooManyExports (count : Nat)
  | specifierOutOfBounds (edge : EdgeId) (constant : ConstantId)
  | specifierNotString (edge : EdgeId) (constant : ConstantId)
  | absoluteSpecifier (edge : EdgeId)
  | duplicateSpecifier (first second : EdgeId)
  | localTargetOutOfBounds (edge : EdgeId) (target : ModuleId)
  | bindingNameOutOfBounds (binding : BindingId) (constant : ConstantId)
  | bindingNameNotString (binding : BindingId) (constant : ConstantId)
  | bindingEdgeOutOfBounds (binding : BindingId) (edge : EdgeId)
  | importedNameOutOfBounds (binding : BindingId) (constant : ConstantId)
  | importedNameNotString (binding : BindingId) (constant : ConstantId)
  | duplicateBinding (first second : BindingId)
  | staticBindingRequiresStaticEdge (binding : BindingId) (edge : EdgeId)
  | indirectExportRequiresStaticEdge (index : UInt32) (edge : EdgeId)
  | missingImportedExport (binding : BindingId)
  | exportNameOutOfBounds (index : UInt32) (constant : ConstantId)
  | exportNameNotString (index : UInt32) (constant : ConstantId)
  | duplicateExport (first second : UInt32)
  | exportBindingOutOfBounds (index : UInt32) (binding : BindingId)
  | exportEdgeOutOfBounds (index : UInt32) (edge : EdgeId)
  | indirectNameOutOfBounds (index : UInt32) (constant : ConstantId)
  | indirectNameNotString (index : UInt32) (constant : ConstantId)
  | dynamicImportMissingEdge (specifier : ConstantId)
  | snapshotExportInstruction (function pc : UInt32)
  | missingIndirectExport (index : UInt32)
  | indirectExportCycle (index : UInt32)
  deriving DecidableEq, Repr

structure ProgramVerifyError where
  module : Option ModuleId
  kind : ProgramVerifyErrorKind
  deriving DecidableEq, Repr

inductive LinkFault where
  | rejected (error : ProgramVerifyError)
  | panicked
  deriving DecidableEq, Repr

abbrev Link := Except LinkFault

def programError (kind : ProgramVerifyErrorKind) : LinkFault := .rejected ⟨none,kind⟩
def moduleError (id : ModuleId) (kind : ProgramVerifyErrorKind) : LinkFault := .rejected ⟨some id,kind⟩

def orFault {α : Type} (value : Option α) (fault : LinkFault) : Link α :=
  match value with
  | none => .error fault
  | some a => .ok a

-- `HashMap<&EcmaString, T>`, the latest insertion first.
abbrev Names (τ : Type) := List (EcmaString × τ)

def insertNew {τ : Type} (names : Names τ) (name : EcmaString) (value : τ) (duplicate : τ → LinkFault) :
    Link (Names τ) :=
  match names.lookup name with
  | some first => .error (duplicate first)
  | none => .ok ((name,value) :: names)

def requiredString (id : ModuleId) (m : ProgramModule) (constant : ConstantId)
    (bounds kind : ProgramVerifyErrorKind) : Link EcmaString :=
  match m.code.constants[constant.get.toNat]? with
  | none => .error (moduleError id bounds)
  | some (.string value) =>
    if isWellFormed value then .ok value else .error (moduleError id (.metadataStringIllFormed constant))
  | some _ => .error (moduleError id kind)

def requireEdge (id : ModuleId) (m : ProgramModule) (binding : BindingId) (edge : EdgeId) : Link Edge :=
  orFault m.edges[edge.get.toNat]? (moduleError id (.bindingEdgeOutOfBounds binding edge))

-- Rust's `split`: the parts between separators, never empty as a list.
def splitUnits (separator : UInt16) : List UInt16 → List (List UInt16)
  | [] => [[]]
  | unit :: rest =>
    if unit = separator then [] :: splitUnits separator rest
    else match splitUnits separator rest with
      | [] => [[unit]]
      | part :: parts => (unit :: part) :: parts

def isNormalizedModuleName (name : EcmaString) : Bool :=
  let units := name.asUnits
  if units.isEmpty || units.head? == some 47 || units.contains 92 || units.contains 0 ||
      (splitUnits 47 units).any fun part => part.isEmpty || part == [46] || part == [46,46] then false
  else !((splitUnits 47 units).headD []).contains 58

def isAsciiAlphabetic (unit : UInt16) : Bool := 97 ≤ unit && unit ≤ 122 || 65 ≤ unit && unit ≤ 90

def isAbsoluteSpecifier (specifier : EcmaString) : Bool :=
  let units := specifier.asUnits
  units.head? == some 47 || units.head? == some 92 ||
    -- `file:` in any ASCII case
    (5 ≤ units.length && (units.zip [102,105,108,101,58]).all fun (unit,ascii) =>
      unit == ascii || (isAsciiAlphabetic ascii && unit == ascii - 32)) ||
    match units with
    | drive :: colon :: _ => isAsciiAlphabetic drive && colon == 58
    | _ => false

def verifyEdgeTarget (moduleCount : Nat) (id : ModuleId) (edgeId : EdgeId) : EdgeTarget → Link Unit
  | .local target => rejectIf (moduleCount ≤ target.get.toNat) (moduleError id (.localTargetOutOfBounds edgeId target))
  | .external => .ok ()

def verifyEdge (moduleCount : Nat) (id : ModuleId) (m : ProgramModule) (index : Nat) (specifiers : Names EdgeId)
    (edge : Edge) : Link (Names EdgeId) := do
  let edgeId : EdgeId := ⟨UInt32.ofNat index⟩
  let specifier ← requiredString id m edge.specifier (.specifierOutOfBounds edgeId edge.specifier)
    (.specifierNotString edgeId edge.specifier)
  rejectIf (isAbsoluteSpecifier specifier) (moduleError id (.absoluteSpecifier edgeId))
  let specifiers ← insertNew specifiers specifier edgeId fun first => moduleError id (.duplicateSpecifier first edgeId)
  verifyEdgeTarget moduleCount id edgeId edge.target
  return specifiers

def verifyStaticEdge (id : ModuleId) (bindingId : BindingId) (edge : EdgeId) (dependency : Edge) : Link Unit :=
  rejectIf (¬dependency.kind.hasStatic) (moduleError id (.staticBindingRequiresStaticEdge bindingId edge))

def verifyBindingKind (id : ModuleId) (m : ProgramModule) (bindingId : BindingId) : BindingKind → Link Unit
  | .imported edge name => do
    let dependency ← requireEdge id m bindingId edge
    let _ ← requiredString id m name (.importedNameOutOfBounds bindingId name) (.importedNameNotString bindingId name)
    verifyStaticEdge id bindingId edge dependency
  | .namespace edge => do
    let dependency ← requireEdge id m bindingId edge
    verifyStaticEdge id bindingId edge dependency
  | .hoisted | .lexical => .ok ()

def verifyBinding (id : ModuleId) (m : ProgramModule) (index : Nat) (names : Names BindingId) (binding : Binding) :
    Link (Names BindingId) := do
  let bindingId : BindingId := ⟨UInt32.ofNat index⟩
  let name ← requiredString id m binding.name (.bindingNameOutOfBounds bindingId binding.name)
    (.bindingNameNotString bindingId binding.name)
  let names ← insertNew names name bindingId fun first => moduleError id (.duplicateBinding first bindingId)
  verifyBindingKind id m bindingId binding.kind
  return names

def verifyExportSource (id : ModuleId) (m : ProgramModule) (index : UInt32) : ExportSource → Link Unit
  | .local binding =>
    rejectIf (m.bindings.length ≤ binding.get.toNat) (moduleError id (.exportBindingOutOfBounds index binding))
  | .indirect edge name => do
    let dependency ← orFault m.edges[edge.get.toNat]? (moduleError id (.exportEdgeOutOfBounds index edge))
    rejectIf (¬dependency.kind.hasStatic) (moduleError id (.indirectExportRequiresStaticEdge index edge))
    let _ ← requiredString id m name (.indirectNameOutOfBounds index name) (.indirectNameNotString index name)
    return ()

def verifyExport (id : ModuleId) (m : ProgramModule) (index : Nat) (names : Names UInt32) (e : Export) :
    Link (Names UInt32) := do
  let exportId := UInt32.ofNat index
  let name ← requiredString id m e.name (.exportNameOutOfBounds exportId e.name) (.exportNameNotString exportId e.name)
  let names ← insertNew names name exportId fun first => moduleError id (.duplicateExport first exportId)
  verifyExportSource id m exportId e.source
  return names

def verifyImport (id : ModuleId) (m : ProgramModule) (specifiers : Names EdgeId) (specifier : ConstantId) :
    Link Unit := do
  let name ← orFault (string m.code specifier) .panicked
  rejectIf (¬isWellFormed name) (moduleError id (.metadataStringIllFormed specifier))
  rejectIf (¬(specifiers.lookup name).any fun edge => (m.edges[edge.get.toNat]?).any fun e => e.kind.hasDynamic)
    (moduleError id (.dynamicImportMissingEdge specifier))

def verifyLinkedInstruction (id : ModuleId) (m : ProgramModule) (specifiers : Names EdgeId) (functionIndex : Nat)
    (pc : Nat) : Instruction → Link Unit
  | .import _ specifier => verifyImport id m specifiers specifier
  | .export _ _ => .error (moduleError id (.snapshotExportInstruction (UInt32.ofNat functionIndex) (UInt32.ofNat pc)))
  | _ => .ok ()

def verifyLinkedName (id : ModuleId) (m : ProgramModule) : Option ConstantId → Link Unit
  | none => .ok ()
  | some name => do
    let text ← orFault (string m.code name) .panicked
    rejectIf (¬isWellFormed text) (moduleError id (.metadataStringIllFormed name))

def verifyLinkedFunction (id : ModuleId) (m : ProgramModule) (specifiers : Names EdgeId) (functionIndex : Nat)
    (f : Function) : Link Unit := do
  verifyLinkedName id m f.name
  eachFrom (verifyLinkedInstruction id m specifiers functionIndex) 0 f.code

def u32Max : Nat := 2^32 - 1

def verifyModuleMetadata (moduleCount : Nat) (id : ModuleId) (m : ProgramModule) : Link Unit := do
  rejectIf (m.edges.length > u32Max) (moduleError id (.tooManyEdges m.edges.length))
  rejectIf (m.bindings.length > u32Max) (moduleError id (.tooManyBindings m.bindings.length))
  rejectIf (m.exports.length > u32Max) (moduleError id (.tooManyExports m.exports.length))
  let specifiers ← foldFrom (verifyEdge moduleCount id m) 0 [] m.edges
  let _ ← foldFrom (verifyBinding id m) 0 [] m.bindings
  let _ ← foldFrom (verifyExport id m) 0 [] m.exports
  eachFrom (verifyLinkedFunction id m specifiers) 0 m.code.functions

def verifyNamedModule (moduleCount : Nat) (index : Nat) (names : Names ModuleId) (m : ProgramModule) :
    Link (Names ModuleId) := do
  let id : ModuleId := ⟨UInt32.ofNat index⟩
  let name ← requiredString id m m.name (.moduleNameOutOfBounds m.name) (.moduleNameNotString m.name)
  rejectIf (¬isNormalizedModuleName name) (moduleError id .invalidModuleName)
  let names ← insertNew names name id fun first => moduleError id (.duplicateModuleName first)
  verifyModuleMetadata moduleCount id m
  return names

def exportIndex (m : ProgramModule) : Link (Names Nat) :=
  foldFrom (fun index names e => do
    let name ← orFault (string m.code e.name) .panicked
    return (name,index) :: names) 0 [] m.exports

def exportIndices : List ProgramModule → Link (List (Names Nat))
  | [] => .ok []
  | m :: rest => do
    let index ← exportIndex m
    let indices ← exportIndices rest
    return index :: indices

abbrev Node := Nat × Nat
abbrev States := List (List UInt8)

def stateAt (states : States) (node : Node) : Option UInt8 := do (← states[node.1]?)[node.2]?

def setState (states : States) (node : Node) (value : UInt8) : States :=
  states.modify node.1 fun row => row.set node.2 value

def forward (indices : List (Names Nat)) (m : ProgramModule) (edge : EdgeId) (name : ConstantId) (missing : LinkFault) :
    Link (Option Node) := do
  let found ← orFault m.edges[edge.get.toNat]? .panicked
  match found.target with
  | .external => return none
  | .local target => do
    let name ← orFault (string m.code name) .panicked
    let index ← orFault indices[target.get.toNat]? .panicked
    let next ← orFault (index.lookup name) missing
    return some (target.get.toNat,next)

def nextOf (indices : List (Names Nat)) (m : ProgramModule) (current : Node) : ExportSource → Link (Option Node)
  | .local binding => do
    let found ← orFault m.bindings[binding.get.toNat]? .panicked
    match found.kind with
    | .imported edge name =>
      forward indices m edge name (moduleError ⟨UInt32.ofNat current.1⟩ (.missingImportedExport binding))
    | .hoisted | .lexical | .namespace _ => return none
  | .indirect edge name =>
    forward indices m edge name
      (moduleError ⟨UInt32.ofNat current.1⟩ (.missingIndirectExport (UInt32.ofNat current.2)))

def nextExport (modules : List ProgramModule) (indices : List (Names Nat)) (current : Node) : Link (Option Node) := do
  let m ← orFault modules[current.1]? .panicked
  let e ← orFault m.exports[current.2]? .panicked
  nextOf indices m current e.source

/- The inner loop. Every round colours one more export, so a fuel of all exports and one
is never used up; the stack has its last element first. -/
def walk (modules : List ProgramModule) (indices : List (Names Nat)) :
    Nat → States → List Node → Node → Link (States × List Node)
  | 0, _, _, _ => .error .panicked
  | fuel+1, states, stack, current =>
    match stateAt states current with
    | none => .error .panicked
    | some colour =>
      if colour = 2 then .ok (states,stack)
      else if colour = 1 then
        .error (moduleError ⟨UInt32.ofNat current.1⟩ (.indirectExportCycle (UInt32.ofNat current.2)))
      else do
        let next ← nextExport modules indices current
        match next with
        | none => .ok (setState states current 1,current :: stack)
        | some next => walk modules indices fuel (setState states current 1) (current :: stack) next

def exportNodes : Nat → List ProgramModule → List Node
  | _, [] => []
  | index, m :: rest => (List.range m.exports.length).map (fun e => (index,e)) ++ exportNodes (index+1) rest

def settleExport (modules : List ProgramModule) (indices : List (Names Nat)) (states : States) (node : Node) :
    Link States :=
  match stateAt states node with
  | none => .error .panicked
  | some colour =>
    if colour = 2 then .ok states
    else do
      let (states,stack) ← walk modules indices ((exportNodes 0 modules).length + 1) states [] node
      return stack.foldr (fun node states => setState states node 2) states

def verifyExportResolutions (modules : List ProgramModule) (indices : List (Names Nat)) : Link Unit := do
  let _ ← foldFrom (fun _ => settleExport modules indices) 0
    (modules.map fun m => List.replicate m.exports.length 0) (exportNodes 0 modules)
  return ()

def verifyImportedBinding (indices : List (Names Nat)) (id : ModuleId) (m : ProgramModule) (bindingIndex : Nat)
    (binding : Binding) : Link Unit :=
  match binding.kind with
  | .imported edge name => do
    let found ← orFault m.edges[edge.get.toNat]? .panicked
    match found.target with
    | .external => .ok ()
    | .local target => do
      let name ← orFault (string m.code name) .panicked
      let index ← orFault indices[target.get.toNat]? .panicked
      rejectIf ((index.lookup name).isNone) (moduleError id (.missingImportedExport ⟨UInt32.ofNat bindingIndex⟩))
  | .hoisted | .lexical | .namespace _ => .ok ()

def verifyImportedBindings (modules : List ProgramModule) (indices : List (Names Nat)) : Link Unit :=
  eachFrom (fun index m => eachFrom (verifyImportedBinding indices ⟨UInt32.ofNat index⟩ m) 0 m.bindings) 0 modules

def verifyProgramMetadata (modules : List ProgramModule) (entry : ModuleId) : Link Unit := do
  rejectIf modules.isEmpty (programError .emptyProgram)
  rejectIf (modules.length > u32Max) (programError (.tooManyModules modules.length))
  rejectIf (modules.length ≤ entry.get.toNat) (programError (.entryModuleOutOfBounds entry.get modules.length))
  let _ ← foldFrom (verifyNamedModule modules.length) 0 [] modules
  let indices ← exportIndices modules
  verifyExportResolutions modules indices
  verifyImportedBindings modules indices

/- A program that `Program::link` accepted: its modules carry the `Verified` state and its
metadata passed. -/
structure Linked (p : Program) : Prop where
  verified : ∀ m ∈ p.modules, ∃ certificates, verifyModule m.code = .ok certificates
  metadata : verifyProgramMetadata p.modules p.entry = .ok ()

theorem orFaultOk {α} {value : Option α} {fault a} :
    orFault value fault = .ok a ↔ value = some a := by
  cases value <;> simp [orFault]

theorem insertNewOk {τ} {names out : Names τ} {name value duplicate}
    (ok : insertNew names name value duplicate = .ok out) : names.lookup name = none ∧ out = (name,value) :: names := by
  unfold insertNew at ok
  cases found : names.lookup name with
  | some first => rw [found] at ok; cases ok
  | none =>
    rw [found] at ok
    cases ok
    exact ⟨rfl,rfl⟩

theorem requiredStringOk {id m constant bounds kind name} (ok : requiredString id m constant bounds kind = .ok name) :
    string m.code constant = some name ∧ isWellFormed name = true := by
  unfold requiredString at ok
  unfold string
  split at ok
  · cases ok
  · rename_i found
    split at ok
    · rename_i formed
      cases ok
      rw [found]
      exact ⟨rfl,formed⟩
    · cases ok
  · cases ok

def BindingLinks (m : ProgramModule) : BindingKind → Prop
  | .imported edge name => (∃ e, m.edges[edge.get.toNat]? = some e) ∧ ∃ n, string m.code name = some n
  | .namespace edge => ∃ e, m.edges[edge.get.toNat]? = some e
  | .hoisted | .lexical => True

def SourceLinks (m : ProgramModule) : ExportSource → Prop
  | .local binding => binding.get.toNat < m.bindings.length
  | .indirect edge name => (∃ e, m.edges[edge.get.toNat]? = some e) ∧ ∃ n, string m.code name = some n

structure ModuleLinks (moduleCount : Nat) (m : ProgramModule) : Prop where
  edgeCount : m.edges.length ≤ u32Max
  bindingCount : m.bindings.length ≤ u32Max
  exportCount : m.exports.length ≤ u32Max
  targets : ∀ e ∈ m.edges, ∀ t, e.target = .local t → t.get.toNat < moduleCount
  bindings : ∀ b ∈ m.bindings, BindingLinks m b.kind
  sources : ∀ e ∈ m.exports, SourceLinks m e.source
  named : ∀ e ∈ m.exports, ∃ n, string m.code e.name = some n
  distinct : m.exports.Pairwise fun a b => string m.code a.name ≠ string m.code b.name

theorem bindingKindOk {id m bindingId kind} (ok : verifyBindingKind id m bindingId kind = .ok ()) : BindingLinks m kind := by
  cases kind with
  | hoisted => trivial
  | lexical => trivial
  | imported edge name =>
    obtain ⟨e,found,ok⟩ := bindOk.mp ok
    obtain ⟨n,known,_⟩ := bindOk.mp ok
    exact ⟨⟨e,orFaultOk.mp found⟩,n,(requiredStringOk known).1⟩
  | «namespace» edge =>
    obtain ⟨e,found,_⟩ := bindOk.mp ok
    exact ⟨e,orFaultOk.mp found⟩

theorem exportSourceOk {id m index source} (ok : verifyExportSource id m index source = .ok ()) : SourceLinks m source := by
  cases source with
  | «local» binding => exact Nat.lt_of_not_le (rejectIfOk.mp ok)
  | indirect edge name =>
    obtain ⟨e,found,ok⟩ := bindOk.mp ok
    obtain ⟨_,_,ok⟩ := bindOk.mp ok
    obtain ⟨n,known,_⟩ := bindOk.mp ok
    exact ⟨⟨e,orFaultOk.mp found⟩,n,(requiredStringOk known).1⟩

theorem verifyEdgeOk {moduleCount id m index names out edge} (ok : verifyEdge moduleCount id m index names edge = .ok out) :
    ∃ k v, string m.code edge.specifier = some k ∧ names.lookup k = none ∧ out = (k,v) :: names ∧
      ∀ t, edge.target = .local t → t.get.toNat < moduleCount := by
  obtain ⟨k,known,ok⟩ := bindOk.mp ok
  obtain ⟨_,_,ok⟩ := bindOk.mp ok
  obtain ⟨names',inserted,ok⟩ := bindOk.mp ok
  obtain ⟨_,target,ok⟩ := bindOk.mp ok
  cases ok
  obtain ⟨fresh,same⟩ := insertNewOk inserted
  refine ⟨k,_,(requiredStringOk known).1,fresh,same,?_⟩
  intro t here
  rw [here] at target
  exact Nat.lt_of_not_le (rejectIfOk.mp target)

theorem verifyBindingOk {id m index names out binding} (ok : verifyBinding id m index names binding = .ok out) :
    ∃ k v, string m.code binding.name = some k ∧ names.lookup k = none ∧ out = (k,v) :: names ∧
      BindingLinks m binding.kind := by
  obtain ⟨k,known,ok⟩ := bindOk.mp ok
  obtain ⟨names',inserted,ok⟩ := bindOk.mp ok
  obtain ⟨_,kind,ok⟩ := bindOk.mp ok
  cases ok
  obtain ⟨fresh,same⟩ := insertNewOk inserted
  exact ⟨k,_,(requiredStringOk known).1,fresh,same,bindingKindOk kind⟩

theorem verifyExportOk {id m index names out e} (ok : verifyExport id m index names e = .ok out) :
    ∃ k v, string m.code e.name = some k ∧ names.lookup k = none ∧ out = (k,v) :: names ∧ SourceLinks m e.source := by
  obtain ⟨k,known,ok⟩ := bindOk.mp ok
  obtain ⟨names',inserted,ok⟩ := bindOk.mp ok
  obtain ⟨_,source,ok⟩ := bindOk.mp ok
  cases ok
  obtain ⟨fresh,same⟩ := insertNewOk inserted
  exact ⟨k,_,(requiredStringOk known).1,fresh,same,exportSourceOk source⟩

theorem moduleMetadataOk {moduleCount id m} (ok : verifyModuleMetadata moduleCount id m = .ok ()) : ModuleLinks moduleCount m := by
  obtain ⟨edgeCount,ok⟩ := seqOk.mp ok
  obtain ⟨bindingCount,ok⟩ := seqOk.mp ok
  obtain ⟨exportCount,ok⟩ := seqOk.mp ok
  obtain ⟨specifiers,edges,ok⟩ := bindOk.mp ok
  obtain ⟨_,bindings,ok⟩ := bindOk.mp ok
  obtain ⟨_,exports,_⟩ := bindOk.mp ok
  have edgesOk := foldKeyed (fun e : Edge => string m.code e.specifier)
    (fun e => ∀ t, e.target = .local t → t.get.toNat < moduleCount) edges fun _ _ _ _ => verifyEdgeOk
  have bindingsOk := foldKeyed (fun b : Binding => string m.code b.name) (fun b => BindingLinks m b.kind)
    bindings fun _ _ _ _ => verifyBindingOk
  have exportsOk := foldKeyed (fun e : Export => string m.code e.name) (fun e => SourceLinks m e.source)
    exports fun _ _ _ _ => verifyExportOk
  constructor
  · exact Nat.le_of_not_gt (rejectIfOk.mp edgeCount)
  · exact Nat.le_of_not_gt (rejectIfOk.mp bindingCount)
  · exact Nat.le_of_not_gt (rejectIfOk.mp exportCount)
  · intro e member
    exact (edgesOk.1 e member).1
  · intro b member
    exact (bindingsOk.1 b member).1
  · intro e member
    exact (exportsOk.1 e member).1
  · intro e member
    obtain ⟨_,n,known,_⟩ := exportsOk.1 e member
    exact ⟨n,known⟩
  · exact exportsOk.2

theorem namedModuleOk {moduleCount index names out m} (ok : verifyNamedModule moduleCount index names m = .ok out) :
    ∃ k v, string m.code m.name = some k ∧ names.lookup k = none ∧ out = (k,v) :: names ∧ ModuleLinks moduleCount m := by
  obtain ⟨k,known,ok⟩ := bindOk.mp ok
  obtain ⟨_,_,ok⟩ := bindOk.mp ok
  obtain ⟨names',inserted,ok⟩ := bindOk.mp ok
  obtain ⟨_,metadata,ok⟩ := bindOk.mp ok
  cases ok
  obtain ⟨fresh,same⟩ := insertNewOk inserted
  exact ⟨k,_,(requiredStringOk known).1,fresh,same,moduleMetadataOk metadata⟩

structure ProgramLinks (p : Program) (indices : List (Names Nat)) : Prop where
  moduleCount : p.modules.length ≤ u32Max
  modules : ∀ m ∈ p.modules, ModuleLinks p.modules.length m
  indexed : exportIndices p.modules = .ok indices
  resolutions : verifyExportResolutions p.modules indices = .ok ()
  imported : verifyImportedBindings p.modules indices = .ok ()

theorem linkedLinks {p} (linked : Linked p) : ∃ indices, ProgramLinks p indices := by
  have ok := linked.metadata
  obtain ⟨_,ok⟩ := seqOk.mp ok
  obtain ⟨moduleCount,ok⟩ := seqOk.mp ok
  obtain ⟨_,ok⟩ := seqOk.mp ok
  obtain ⟨_,modules,ok⟩ := bindOk.mp ok
  obtain ⟨indices,indexed,ok⟩ := bindOk.mp ok
  obtain ⟨resolutions,imported⟩ := seqOk.mp ok
  have modulesOk := foldKeyed (fun m : ProgramModule => string m.code m.name) (ModuleLinks p.modules.length)
    modules fun _ _ _ _ => namedModuleOk
  exact ⟨indices,Nat.le_of_not_gt (rejectIfOk.mp moduleCount),fun m member => (modulesOk.1 m member).1,indexed,
    resolutions,imported⟩

def stubCode (names : List (List UInt16)) : Module where
  constants := names.map fun units => .string ⟨units⟩
  functions := [⟨none,0,1,1,⟨false,false,false⟩,[.ret ⟨0⟩],[]⟩]
  entry := ⟨0⟩

-- The chain `a` of the first module, `b` of the second, `c` of the first again.
def reentrant : Program where
  modules := [
    ⟨⟨0⟩,stubCode [[109],[97],[98],[99],[120],[46,47,110]],[⟨⟨5⟩,.local ⟨1⟩,.static⟩],
      [⟨⟨4⟩,.hoisted⟩],[⟨⟨1⟩,.indirect ⟨0⟩ ⟨2⟩⟩,⟨⟨3⟩,.local ⟨0⟩⟩]⟩,
    ⟨⟨0⟩,stubCode [[110],[98],[99],[121],[46,47,109]],[⟨⟨4⟩,.local ⟨0⟩,.static⟩],
      [⟨⟨3⟩,.imported ⟨0⟩ ⟨2⟩⟩],[⟨⟨1⟩,.local ⟨0⟩⟩]⟩]
  entry := ⟨0⟩

theorem reentrantLinked : Linked reentrant := by
  refine ⟨?_,by decide⟩
  intro m member
  rcases List.mem_cons.mp member with rfl | member
  · exact ⟨_,rfl⟩
  · rcases List.mem_singleton.mp member with rfl
    exact ⟨_,rfl⟩

end Bamts.Linkage
