import Bamts.OrderedMap
import Mathlib.Data.List.Sort
import Mathlib.Data.String.Basic

/-! Graphs of project references: the search for a cycle, the order in which projects are built, and the bytes a
project's build info is identified by. -/
set_option linter.all false
namespace Bamts.Project

structure ReferenceNode (Path : Type) where
  path : Path
  references : List Path
  files : List Path
  include_ : List String
  exclude : List String
  composite : Bool
  incremental : Option Bool
  declaration : Option Bool
  noEmit : Bool
  buildInfoPath : Option Path

structure ReferenceGraph (Path : Type) [LinearOrder Path] where
  nodes : OrderedMap Path (ReferenceNode Path)
  keyed : ∀ path node, nodes.get path = some node → node.path = path

inductive Visit where
  | white
  | gray
  | black
  deriving DecidableEq, Repr

structure Search (Path : Type) [LinearOrder Path] where
  state : OrderedMap Path Visit
  path : List Path
  stack : List (Path × Nat)

inductive ReferenceError (Path : Type) where
  | cycle (sequence : List Path)
  | panicked
  deriving DecidableEq, Repr

structure Kahn (Path : Type) [LinearOrder Path] where
  inDegree : OrderedMap Path Nat
  ready : OrderedMap Path Unit
  order : List Path

section
variable {Path : Type} [LinearOrder Path]

def ReferenceNode.isIncremental (node : ReferenceNode Path) : Bool := node.incremental.getD false || node.composite

def sorted {α : Type} [LinearOrder α] (values : List α) : List α := values.insertionSort (· ≤ ·)

def ReferenceNode.canonical (node : ReferenceNode Path) : ReferenceNode Path :=
  { node with references := sorted node.references,files := sorted node.files,include_ := sorted node.include_,exclude := sorted node.exclude }

namespace ReferenceGraph

def empty : ReferenceGraph Path := ⟨.empty,nofun⟩

def insert (g : ReferenceGraph Path) (node : ReferenceNode Path) : ReferenceGraph Path where
  nodes := g.nodes.insert node.path node
  keyed path other found := by
    rw [OrderedMap.getInsert] at found
    split at found
    · rename_i same
      cases found
      exact same.symm
    · exact g.keyed path other found

def fromTsconfigs (configs : List (ReferenceNode Path)) : ReferenceGraph Path := configs.foldl (fun g config => g.insert config.canonical) empty

variable (g : ReferenceGraph Path)

def contains (path : Path) : Bool := (g.nodes.get path).isSome

def references (path : Path) : List Path := (g.nodes.get path).elim [] (·.references)

def keys : List Path := g.nodes.entries.map Prod.fst

def scan (s : Search Path) (current : Path) : List Path → Nat → Except (List Path) (Search Path)
  | [], _ =>
    .ok { s with state := s.state.insert current .black,path := if s.path.getLast? = some current then s.path.dropLast else s.path }
  | target :: rest, i =>
    match s.state.get target with
    | some .white => .ok ⟨s.state.insert target .gray,s.path ++ [target],(target,0) :: (current,i+1) :: s.stack⟩
    | some .gray => match s.path.idxOf? target with
      | some index => .error (s.path.drop index ++ [target])
      | none => scan s current rest (i+1)
    | some .black | none => scan s current rest (i+1)

-- `while let Some((current, mut i)) = stack.pop()`
def search : Nat → Search Path → Option (Except (List Path) (Search Path))
  | 0, _ => none
  | fuel+1, s => match s.stack with
    | [] => some (.ok s)
    | (current,i) :: stack => match scan { s with stack := stack } current ((g.references current).drop i) i with
      | .ok next => search fuel next
      | .error sequence => some (.error sequence)

def searchFrom (fuel : Nat) : List Path → Search Path → Option (Except (List Path) (Search Path))
  | [], s => some (.ok s)
  | start :: rest, s =>
    if s.state.get start = some .white then
      match g.search fuel ⟨s.state.insert start .gray,s.path ++ [start],(start,0) :: s.stack⟩ with
      | some (.ok next) => searchFrom fuel rest next
      | ended => ended
    else searchFrom fuel rest s

def findCycle (fuel : Nat) : Option (Option (List Path)) :=
  (g.searchFrom fuel g.keys ⟨g.nodes.map fun _ => .white,[],[]⟩).map fun ended =>
    match ended with
    | .ok _ => none
    | .error sequence => some sequence

def addDependents (path : Path) : List Path → OrderedMap Path (List Path) → OrderedMap Path (List Path)
  | [], dependents => dependents
  | target :: rest, dependents => addDependents path rest (match dependents.get target with
    | some list => dependents.insert target (list ++ [path])
    | none => dependents)

-- Without an entry for a node the source panics.
def countEdges : List (ReferenceNode Path) → OrderedMap Path Nat → OrderedMap Path (List Path) →
    Option (OrderedMap Path Nat × OrderedMap Path (List Path))
  | [], inDegree, dependents => some (inDegree,dependents)
  | node :: rest, inDegree, dependents =>
    if (inDegree.get node.path).isSome then
      countEdges rest (inDegree.insert node.path (node.references.filter g.contains).length) (addDependents node.path node.references dependents)
    else none

-- A degree is never taken below zero, or the source panics.
def release (s : Kahn Path) : List Path → Option (Kahn Path)
  | [] => some s
  | dependent :: rest => match s.inDegree.get dependent with
    | none => release s rest
    | some 0 => none
    | some (degree+1) =>
      let inDegree := s.inDegree.insert dependent degree
      release { s with inDegree := inDegree,ready := if degree = 0 then s.ready.insert dependent () else s.ready } rest

-- `while let Some(current) = take_first(&mut ready)`; the inner option is the panic.
def drain (dependents : OrderedMap Path (List Path)) : Nat → Kahn Path → Option (Option (Kahn Path))
  | 0, _ => none
  | fuel+1, s => match s.ready.first with
    | none => some (some s)
    | some current => match release { s with ready := s.ready.remove current,order := s.order ++ [current] } ((dependents.get current).getD []) with
      | some next => drain dependents fuel next
      | none => some none

def topologicalOrder (fuel : Nat) : Option (Except (ReferenceError Path) (List Path)) := do
  match ← g.findCycle fuel with
  | some cycle => pure (.error (.cycle cycle))
  | none =>
    match g.countEdges g.nodes.values (g.nodes.map fun _ => 0) (g.nodes.map fun _ => []) with
    | none => pure (.error .panicked)
    | some (inDegree,dependents) =>
      let ready := (inDegree.entries.filter fun entry => entry.2 = 0).foldl (fun ready entry => ready.insert entry.1 ()) .empty
      match ← drain dependents fuel ⟨inDegree,ready,[]⟩ with
      | none => pure (.error .panicked)
      | some s =>
        if s.order.length = g.nodes.length then pure (.ok s.order)
        else
          let cycle ← g.findCycle fuel
          pure (.error (.cycle (cycle.getD [])))

end ReferenceGraph

end

def asBytes (text : String) : List UInt8 := text.toUTF8.data.toList

def feedBytes (canonical bytes : List UInt8) : List UInt8 := canonical ++ bytes ++ [0]

def flagText (flag : Bool) : String := if flag then "1" else "0"

-- What `tsbuildinfo_identity` feeds to the hash. Paths are valid UTF-8, which `to_string_lossy` leaves as it is.
def identityBytes (project : String) (node : ReferenceNode String) : List UInt8 :=
  let canonical := feedBytes [] (asBytes project)
  let canonical := match node.buildInfoPath with
    | some buildInfo => feedBytes canonical (asBytes buildInfo)
    | none => canonical
  let canonical := feedBytes canonical (asBytes (flagText node.composite))
  let canonical := feedBytes canonical (asBytes (flagText node.isIncremental))
  let canonical := feedBytes canonical (asBytes (flagText (node.declaration.getD false)))
  let canonical := feedBytes canonical (asBytes (flagText node.noEmit))
  let canonical := node.references.foldl (fun canonical reference => feedBytes canonical (asBytes reference)) canonical
  let canonical := node.files.foldl (fun canonical file => feedBytes canonical (asBytes file)) canonical
  let canonical := node.include_.foldl (fun canonical pattern => feedBytes canonical (asBytes pattern)) canonical
  node.exclude.foldl (fun canonical pattern => feedBytes canonical (asBytes pattern)) canonical

def ReferenceGraph.tsbuildinfoIdentity {Digest : Type} (sha256 : List UInt8 → Digest) (g : ReferenceGraph String) (project : String) : Option Digest := do
  let node ← g.nodes.get project
  if node.isIncremental then some (sha256 (identityBytes project node)) else none

end Bamts.Project
