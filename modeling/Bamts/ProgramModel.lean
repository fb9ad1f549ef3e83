import Bamts.BytecodeModel

/-! Whole programs: modules with their linkage tables (edges, bindings, exports) and the
lookup of an export by its ECMAScript name. -/
set_option linter.all false
namespace Bamts.Linkage
open Bytecode

structure ModuleId where new ::
  get : UInt32
  deriving DecidableEq, Repr

structure EdgeId where new ::
  get : UInt32
  deriving DecidableEq, Repr

structure BindingId where new ::
  get : UInt32
  deriving DecidableEq, Repr

inductive EdgeTarget where
  | local (target : ModuleId)
  | external
  deriving DecidableEq, Repr

inductive EdgeKind where
  | static | dynamic | staticAndDynamic
  deriving DecidableEq, Repr

def EdgeKind.hasStatic : EdgeKind → Bool
  | .static | .staticAndDynamic => true
  | .dynamic => false

def EdgeKind.hasDynamic : EdgeKind → Bool
  | .dynamic | .staticAndDynamic => true
  | .static => false

structure Edge where
  specifier : ConstantId
  target : EdgeTarget
  kind : EdgeKind
  deriving DecidableEq, Repr

inductive BindingKind where
  | hoisted
  | lexical
  | imported (edge : EdgeId) (name : ConstantId)
  | namespace (edge : EdgeId)
  deriving DecidableEq, Repr

structure Binding where
  name : ConstantId
  kind : BindingKind
  deriving DecidableEq, Repr

inductive ExportSource where
  | local (binding : BindingId)
  | indirect (edge : EdgeId) (name : ConstantId)
  deriving DecidableEq, Repr

structure Export where
  name : ConstantId
  source : ExportSource
  deriving DecidableEq, Repr

structure ProgramModule where
  name : ConstantId
  code : Module
  edges : List Edge
  bindings : List Binding
  exports : List Export
  deriving DecidableEq

structure Program where
  modules : List ProgramModule
  entry : ModuleId
  deriving DecidableEq

def Program.module (p : Program) (id : ModuleId) : Option ProgramModule := p.modules[id.get.toNat]?

inductive ResolvedExport where
  | local (module : ModuleId) (binding : BindingId)
  | external (module : ModuleId) (edge : EdgeId) (name : ConstantId)
  deriving DecidableEq, Repr

def string (m : Module) (id : ConstantId) : Option EcmaString :=
  match m.constants[id.get.toNat]? with
  | some (.string value) => some value
  | _ => none

def isHighSurrogate (unit : UInt16) : Bool := 0xd800 ≤ unit && unit ≤ 0xdbff
def isLowSurrogate (unit : UInt16) : Bool := 0xdc00 ≤ unit && unit ≤ 0xdfff

def wellFormedUnits : List UInt16 → Bool
  | [] => true
  | [unit] => !isHighSurrogate unit && !isLowSurrogate unit
  | unit :: next :: rest =>
    if isHighSurrogate unit then isLowSurrogate next && wellFormedUnits rest
    else !isLowSurrogate unit && wellFormedUnits (next :: rest)

def isWellFormed (s : EcmaString) : Bool := wellFormedUnits s.asUnits

inductive Hop where
  | next (module : ModuleId) (name : EcmaString)
  | done (resolved : ResolvedExport)
  deriving DecidableEq, Repr

-- `edge.target` of a forwarding export: on to another module, or out of the program.
def follow (m : ProgramModule) (id : ModuleId) (edge : EdgeId) (name : ConstantId) : Option Hop := do
  let found ← m.edges[edge.get.toNat]?
  match found.target with
  | .local target => do
    let linked ← string m.code name
    some (.next target linked)
  | .external => some (.done (.external id edge name))

def resolveSource (m : ProgramModule) (id : ModuleId) : ExportSource → Option Hop
  | .local binding => do
    let found ← m.bindings[binding.get.toNat]?
    match found.kind with
    | .imported edge name => follow m id edge name
    | .hoisted | .lexical | .namespace _ => some (.done (.local id binding))
  | .indirect edge name => follow m id edge name

-- One iteration of the loop of `resolve_export`; `none` is its `?`.
def resolveStep (p : Program) (id : ModuleId) (name : EcmaString) : Option Hop := do
  let current ← p.module id
  let found ← current.exports.find? fun e => string current.code e.name = some name
  resolveSource current id found.source

def resolveLoop (p : Program) : Nat → ModuleId → EcmaString → Option ResolvedExport
  | 0, _, _ => none
  | n+1, id, name =>
    match resolveStep p id name with
    | none => none
    | some (.done resolved) => some resolved
    | some (.next id name) => resolveLoop p n id name

-- `usize` saturation of the sum is out of reach: the exports are in memory.
def exportCount (p : Program) : Nat := (p.modules.map fun m => m.exports.length).sum

def resolveExport (p : Program) (id : ModuleId) (name : EcmaString) : Option ResolvedExport :=
  resolveLoop p (exportCount p + 1) id name

end Bamts.Linkage
