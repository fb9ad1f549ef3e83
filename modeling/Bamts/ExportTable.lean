import Bamts.BytecodeModel
import Bamts.OrderedMap
import Mathlib.Data.List.Lex

/-! The binder's export table: what each module exports by name, its stars, and the search of an
exported name through re-exports. The diagnostics it reports are left out. -/
set_option linter.all false
namespace Bamts.Exports
open Bytecode

abbrev SourceId := Nat
abbrev SymbolId := Nat

theorem unitsInjective : Function.Injective fun s : EcmaString => s.asUnits.map UInt16.toNat := by
  intro a b same
  have units : a.asUnits = b.asUnits := List.map_injective_iff.mpr (fun x y h => UInt16.toNat_inj.mp h) same
  cases a
  cases units
  rfl

instance : LinearOrder EcmaString := LinearOrder.lift' _ unitsInjective

structure SymbolFlags where
  bits : UInt32
  deriving DecidableEq, Repr

inductive SpecifierKind where
  | value | typeOnly
  deriving DecidableEq, Repr

inductive ResolveSpace where
  | value | type
  deriving DecidableEq, Repr

namespace SymbolFlags

def bit (n : UInt32) : SymbolFlags := ⟨1 <<< n⟩

def functionScopedVariable := bit 0
def blockScopedVariable := bit 1
def function := bit 2
def class_ := bit 3
def interface := bit 4
def enum := bit 5
def valueModule := bit 6
def typeAlias := bit 7
def typeParameter := bit 8
def enumMember := bit 9
def parameter := bit 10
def intrinsicValue := bit 11
def intrinsicType := bit 12
def alias_ := bit 13
def export_ := bit 14
def exportStar := bit 15
def typeOnly := bit 16
def default_ := bit 17

def union (a b : SymbolFlags) : SymbolFlags := ⟨a.bits ||| b.bits⟩

def all (flags : List SymbolFlags) : SymbolFlags := flags.foldl union ⟨0⟩

def value : SymbolFlags :=
  all [functionScopedVariable,blockScopedVariable,function,class_,enum,valueModule,enumMember,parameter,intrinsicValue]

def type : SymbolFlags := all [class_,interface,enum,valueModule,typeAlias,typeParameter,intrinsicType]

def contains (a b : SymbolFlags) : Bool := b.bits != 0 && a.bits &&& b.bits == b.bits

def intersects (a b : SymbolFlags) : Bool := a.bits &&& b.bits != 0

def visibleIn (flags : SymbolFlags) : ResolveSpace → Bool
  | .value => !flags.contains typeOnly && (flags.intersects value || flags.contains alias_)
  | .type => flags.intersects type || flags.contains typeOnly || flags.contains alias_

end SymbolFlags

inductive ResolvedExport where
  | symbol (source : SourceId) (symbol : SymbolId)
  | namespace_ (source : SourceId)
  | unresolved | cycle | ambiguous
  deriving DecidableEq, Repr

inductive ExportTarget where
  | local_ (source : SourceId) (symbol : SymbolId)
  | forward (source : SourceId) (name : EcmaString)
  | starNamespace (source : SourceId)
  deriving DecidableEq, Repr

structure NamedExport where
  target : ExportTarget
  flags : SymbolFlags
  deriving DecidableEq, Repr

inductive ExportCandidate where
  | symbol (source : SourceId) (symbol : SymbolId)
  | namespace_ (source : SourceId)
  deriving DecidableEq, Repr

/-- The origins one name reached, each once, and whether any branch cycled. -/
structure ResolutionSet where
  candidates : List ExportCandidate
  cycled : Bool
  deriving DecidableEq, Repr

namespace ResolutionSet

def empty : ResolutionSet := ⟨[],false⟩
def candidate (origin : ExportCandidate) : ResolutionSet := ⟨[origin],false⟩
def cycle : ResolutionSet := ⟨[],true⟩

def extend (self other : ResolutionSet) : ResolutionSet :=
  ⟨other.candidates ∪ self.candidates,self.cycled || other.cycled⟩

def intoResolution (self : ResolutionSet) : ResolvedExport :=
  match self.candidates with
  | [] => if self.cycled then .cycle else .unresolved
  | [.symbol source symbol] => .symbol source symbol
  | [.namespace_ source] => .namespace_ source
  | _ => .ambiguous

end ResolutionSet

structure StarExport where
  target : SourceId
  specifier : SpecifierKind
  deriving DecidableEq, Repr

structure ModuleExports where
  named : OrderedMap EcmaString NamedExport
  stars : List StarExport

structure ExportTable where
  modules : OrderedMap SourceId ModuleExports

def defaultExportName : EcmaString := ⟨"default".toList.map fun c => UInt16.ofNat c.toNat⟩

namespace ExportTable

def new : ExportTable := ⟨.empty⟩

-- `entry(module).or_default()`
def entry (table : ExportTable) (module : SourceId) : ModuleExports :=
  (table.modules.get module).getD ⟨.empty,[]⟩

def setEntry (table : ExportTable) (module : SourceId) (exports : ModuleExports) : ExportTable :=
  ⟨table.modules.insert module exports⟩

def boundFlags (existing : Option NamedExport) (export_ : NamedExport) : Option SymbolFlags :=
  match existing with
  | none => some export_.flags
  | some existing => if existing.target ≠ export_.target then none else some (existing.flags.union export_.flags)

def bindNamed (table : ExportTable) (module : SourceId) (name : EcmaString) (export_ : NamedExport) : ExportTable :=
  let exports := table.entry module
  match boundFlags (exports.named.get name) export_ with
  | none => table
  | some flags => table.setEntry module { exports with named := exports.named.insert name ⟨export_.target,flags⟩ }

def exportLocal (table : ExportTable) (module : SourceId) (name : EcmaString) (source : SourceId) (symbol : SymbolId)
    (flags : SymbolFlags) : ExportTable :=
  table.bindNamed module name ⟨.local_ source symbol,flags.union .export_⟩

def exportForward (table : ExportTable) (module : SourceId) (exported : EcmaString) (target : SourceId)
    (local_ : EcmaString) (specifier : SpecifierKind) : ExportTable :=
  let flags := SymbolFlags.export_.union .alias_
  let flags := if specifier = .typeOnly then flags.union .typeOnly else flags
  table.bindNamed module exported ⟨.forward target local_,flags⟩

def exportStar (table : ExportTable) (module target : SourceId) (specifier : SpecifierKind) : ExportTable :=
  let exports := table.entry module
  let star : StarExport := ⟨target,specifier⟩
  table.setEntry module { exports with stars := if star ∈ exports.stars then exports.stars else exports.stars ++ [star] }

def exportStarAs (table : ExportTable) (module : SourceId) (exported : EcmaString) (target : SourceId) : ExportTable :=
  table.bindNamed module exported ⟨.starNamespace target,(SymbolFlags.export_.union .exportStar).union .valueModule⟩

def exportDefault (table : ExportTable) (module source : SourceId) (symbol : SymbolId) (flags : SymbolFlags) : ExportTable :=
  table.exportLocal module defaultExportName source symbol (flags.union .default_)

end ExportTable

/-- One recorded export. -/
inductive Call where
  | exportLocal (module : SourceId) (name : EcmaString) (source : SourceId) (symbol : SymbolId) (flags : SymbolFlags)
  | exportForward (module : SourceId) (exported : EcmaString) (target : SourceId) (local_ : EcmaString)
      (specifier : SpecifierKind)
  | exportStar (module target : SourceId) (specifier : SpecifierKind)
  | exportStarAs (module : SourceId) (exported : EcmaString) (target : SourceId)
  | exportDefault (module source : SourceId) (symbol : SymbolId) (flags : SymbolFlags)
  deriving DecidableEq, Repr

def Call.run (table : ExportTable) : Call → ExportTable
  | .exportLocal module name source symbol flags => table.exportLocal module name source symbol flags
  | .exportForward module exported target local_ specifier => table.exportForward module exported target local_ specifier
  | .exportStar module target specifier => table.exportStar module target specifier
  | .exportStarAs module exported target => table.exportStarAs module exported target
  | .exportDefault module source symbol flags => table.exportDefault module source symbol flags

def Call.isStar : Call → Bool
  | .exportStar .. => true
  | _ => false

/-- The table after the calls. -/
def built (calls : List Call) : ExportTable := calls.foldl Call.run .new

abbrev Key := SourceId × EcmaString

/-- A search, with the pairs that are being visited; none when its fuel is out. -/
abbrev Search := SourceId → EcmaString → List Key → Option (ResolutionSet × List Key)

def collectStars (search : Search) (name : EcmaString) (space : ResolveSpace) :
    List StarExport → ResolutionSet → List Key → Option (ResolutionSet × List Key)
  | [], candidates, visited => some (candidates,visited)
  | star :: rest, candidates, visited =>
    if star.specifier = .typeOnly ∧ space ≠ .type then collectStars search name space rest candidates visited
    else
      (search star.target name visited).bind fun found =>
        collectStars search name space rest (candidates.extend found.1) found.2

namespace ExportTable

def collectVisible (table : ExportTable) (space : ResolveSpace) (search : Search) : Search := fun module name visited =>
  match table.modules.get module with
  | none => some (.empty,visited)
  | some exports =>
    match (exports.named.get name).filter fun named => named.flags.visibleIn space with
    | some named =>
      match named.target with
      | .local_ source symbol => some (.candidate (.symbol source symbol),visited)
      | .forward source forwarded => search source forwarded visited
      | .starNamespace source => some (.candidate (.namespace_ source),visited)
    | none =>
      if name = defaultExportName then some (.empty,visited)
      else collectStars search name space exports.stars .empty visited

/-- A pair is taken out of the visited ones on the way back. -/
def collect (table : ExportTable) (space : ResolveSpace) : Nat → Search
  | 0, _, _, _ => none
  | fuel+1, module, name, visited =>
    if (module,name) ∈ visited then some (.cycle,visited)
    else
      (table.collectVisible space (table.collect space fuel) module name ((module,name) :: visited)).map fun found =>
        (found.1,found.2.erase (module,name))

def resolve (table : ExportTable) (fuel : Nat) (module : SourceId) (name : EcmaString) (space : ResolveSpace) :
    Option ResolvedExport :=
  (table.collect space fuel module name []).map fun found => found.1.intoResolution

end ExportTable

end Bamts.Exports
