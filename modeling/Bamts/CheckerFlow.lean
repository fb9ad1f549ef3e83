import Bamts.Worklist
import Bamts.CheckerType

/-! The control-flow graph of the checker and the definite-assignment analysis over it: reachability first, then one queue
per root that descends from `Assigned`. -/
set_option linter.all false
namespace Bamts.Checker

structure ScopeId where
  get : Nat
  deriving DecidableEq, Repr

structure FlowKey where
  root : SymbolId
  path : List String
  deriving DecidableEq, Repr

abbrev FlowPointId := Nat

inductive ExecutionBoundary where
  | primary | entry | exit | condition | consequent | alternate | guard | join | loopTest | loopBody | «catch» | «finally»
  deriving DecidableEq, Repr

inductive FlowEdgeKind where
  | sequential | guarded | join | assignment | captured | loopBackedge | abrupt | conservativeCatch | «finally»
  deriving DecidableEq, Repr

inductive FlowOperation where
  | entry | pass | guard
  | write (target : FlowKey)
  | declarationComplete (assignedRoots : List SymbolId)
  | capture | join | loopSummary | exit
  deriving DecidableEq, Repr

structure FlowEdge where
  from_ : FlowPointId
  to_ : FlowPointId
  kind : FlowEdgeKind
  deriving DecidableEq, Repr

structure ProgramFlowNode where
  pointBoundary : ExecutionBoundary
  boundary : ScopeId
  operation : FlowOperation
  deriving DecidableEq, Repr

-- Each index lists the edges of its point, and each edge runs between points.
structure Synced (nodes : List ProgramFlowNode) (edges : List FlowEdge) (incoming outgoing : List (List Nat)) : Prop where
  inside : ∀ edge ∈ edges, edge.from_ < nodes.length ∧ edge.to_ < nodes.length
  points : incoming.length = nodes.length ∧ outgoing.length = nodes.length
  arrives : ∀ point k, k ∈ (incoming[point]?).getD [] ↔ ∃ edge : FlowEdge, edges[k]? = some edge ∧ edge.to_ = point
  leaves : ∀ point k, k ∈ (outgoing[point]?).getD [] ↔ ∃ edge : FlowEdge, edges[k]? = some edge ∧ edge.from_ = point

structure ProgramFlow where
  nodes : List ProgramFlowNode
  edges : List FlowEdge
  incoming : List (List Nat)
  outgoing : List (List Nat)
  roots : List FlowPointId
  synced : Synced nodes edges incoming outgoing

theorem Synced.addNode {nodes edges incoming outgoing} (synced : Synced nodes edges incoming outgoing) (node) :
    Synced (nodes ++ [node]) edges (incoming ++ [[]]) (outgoing ++ [[]]) := by
  have wider : ∀ (index : List (List Nat)) (point : Nat), ((index ++ [[]])[point]?).getD [] = (index[point]?).getD [] := by
    intro index point
    rcases Nat.lt_trichotomy point index.length with before | same | after
    · rw [List.getElem?_append_left before]
    · subst same
      rw [List.getElem?_concat_length,List.getElem?_eq_none (Nat.le_refl _)]
      rfl
    · rw [List.getElem?_eq_none (by simp; omega),List.getElem?_eq_none (by omega)]
  refine ⟨fun edge member => ?_,by simp [synced.points],fun point k => ?_,fun point k => ?_⟩
  · have old := synced.inside edge member
    rw [List.length_append]
    exact ⟨Nat.lt_add_right _ old.1,Nat.lt_add_right _ old.2⟩
  · rw [wider]
    exact synced.arrives point k
  · rw [wider]
    exact synced.leaves point k

theorem Synced.addEdge {nodes edges incoming outgoing}
    (synced : Synced nodes edges incoming outgoing) (edge : FlowEdge) (inside : edge.from_ < nodes.length ∧ edge.to_ < nodes.length) :
    Synced nodes (edges ++ [edge]) (incoming.modify edge.to_ (· ++ [edges.length])) (outgoing.modify edge.from_ (· ++ [edges.length])) := by
  have found : ∀ k e, (edges ++ [edge])[k]? = some e ↔ edges[k]? = some e ∨ k = edges.length ∧ e = edge := by
    intro k e
    rcases Nat.lt_trichotomy k edges.length with before | same | after
    · rw [List.getElem?_append_left before]
      exact ⟨.inl,fun either => either.elim id fun new => absurd new.1 (Nat.ne_of_lt before)⟩
    · subst same
      simp [eq_comm]
    · rw [List.getElem?_eq_none (by simp; omega),List.getElem?_eq_none (by omega)]
      simp [Nat.ne_of_gt after]
  have indexed : ∀ (index : List (List Nat)) (end_ : FlowEdge → Nat), index.length = nodes.length → end_ edge < nodes.length →
      (∀ point k, k ∈ (index[point]?).getD [] ↔ ∃ e, edges[k]? = some e ∧ end_ e = point) → ∀ point k,
      k ∈ ((index.modify (end_ edge) (· ++ [edges.length]))[point]?).getD [] ↔ ∃ e, (edges ++ [edge])[k]? = some e ∧ end_ e = point := by
    intro index end_ length bound exact_ point k
    have split : (∃ e, (edges ++ [edge])[k]? = some e ∧ end_ e = point) ↔
        (∃ e, edges[k]? = some e ∧ end_ e = point) ∨ k = edges.length ∧ end_ edge = point := by
      constructor
      · intro there
        obtain ⟨e,at_,ends⟩ := there
        rcases (found k e).mp at_ with old | ⟨same,rfl⟩
        · exact .inl ⟨e,old,ends⟩
        · exact .inr ⟨same,ends⟩
      · intro there
        rcases there with ⟨e,old,ends⟩ | ⟨same,ends⟩
        · exact ⟨e,(found k e).mpr (.inl old),ends⟩
        · exact ⟨edge,(found k edge).mpr (.inr ⟨same,rfl⟩),ends⟩
    rw [split,← exact_ point k,List.getElem?_modify]
    by_cases same : end_ edge = point
    · subst same
      obtain ⟨list,here⟩ : ∃ list, index[end_ edge]? = some list := ⟨_,List.getElem?_eq_getElem (length ▸ bound)⟩
      simp [here]
    · simp [same]
  exact ⟨fun e member => (List.mem_append.mp member).elim (synced.inside e) fun new => by cases List.mem_singleton.mp new; exact inside,
    by simp [synced.points],indexed incoming FlowEdge.to_ synced.points.1 inside.2 synced.arrives,
    indexed outgoing FlowEdge.from_ synced.points.2 inside.1 synced.leaves⟩

namespace ProgramFlow

def new : ProgramFlow := ⟨[],[],[],[],[],⟨nofun,⟨rfl,rfl⟩,by simp,by simp⟩⟩

def addNode (flow : ProgramFlow) (node : ProgramFlowNode) : ProgramFlow :=
  ⟨flow.nodes ++ [node],flow.edges,flow.incoming ++ [[]],flow.outgoing ++ [[]],flow.roots,flow.synced.addNode node⟩

def addEdge (flow : ProgramFlow) (edge : FlowEdge) (inside : edge.from_ < flow.nodes.length ∧ edge.to_ < flow.nodes.length) : ProgramFlow :=
  ⟨flow.nodes,flow.edges ++ [edge],flow.incoming.modify edge.to_ (· ++ [flow.edges.length]),
    flow.outgoing.modify edge.from_ (· ++ [flow.edges.length]),flow.roots,flow.synced.addEdge edge inside⟩

def addRoot (flow : ProgramFlow) (root : FlowPointId) : ProgramFlow :=
  if root ∈ flow.roots then flow else { flow with roots := flow.roots ++ [root] }

end ProgramFlow

def isEntryOperation (node : ProgramFlowNode) : Bool :=
  decide (node.operation = .entry) && decide (node.pointBoundary = .entry)

def isAssignmentTransferEdge (kind : FlowEdgeKind) (targetIsJoin : Bool) : Bool :=
  match kind with
  | .sequential | .guarded | .join | .assignment | .conservativeCatch => true
  -- A backedge feeds the loop test but is not a normal post-loop join predecessor.
  | .loopBackedge => !targetIsJoin
  | .finally => !targetIsJoin
  | .captured | .abrupt => false

inductive AssignmentState where
  | assigned | unassigned
  deriving DecidableEq, Repr

inductive AssignmentReachability where
  | unreachable
  | reachable (state : AssignmentState)
  deriving DecidableEq, Repr

structure AssignmentRoot where
  symbol : SymbolId
  boundary : ScopeId
  entry : AssignmentState
  deriving DecidableEq, Repr

abbrev AssignmentAnalysis := FlowPointId → SymbolId → Option AssignmentReachability

def assignmentMeet : AssignmentState → AssignmentState → AssignmentState
  | .assigned,.assigned => .assigned
  | _,_ => .unassigned

def pointIndex (point : FlowPointId) (len : Nat) : Option Nat := if point < len then some point else none

section
variable (flow : ProgramFlow)

def edgesOf (index : List (List Nat)) (point : Nat) : List FlowEdge := ((index[point]?).getD []).filterMap (flow.edges[·]?)

def initialRoots : List Nat :=
  if flow.roots.isEmpty then (List.range flow.nodes.length).filter fun index => (flow.nodes[index]?).any isEntryOperation
  else flow.roots.filterMap (pointIndex · flow.nodes.length)

def successors (index : Nat) : List Nat := (edgesOf flow flow.outgoing index).filterMap fun edge => pointIndex edge.to_ flow.nodes.length

def reachable (fuel : Nat) : Option (Nat → Bool) :=
  let started := Worklist.visit [] (fun _ => false) (initialRoots flow)
  Worklist.explore (successors flow) fuel started.1 started.2

variable (reached : Nat → Bool) (root : AssignmentRoot)

def initialState (index : Nat) : Option AssignmentReachability :=
  match flow.nodes[index]? with
  | none => none
  | some node =>
    if !reached index then some .unreachable
    else if node.boundary = root.boundary && isEntryOperation node then some (.reachable root.entry)
    else if node.boundary = root.boundary then some (.reachable .assigned)
    else some .unreachable

def meetEdge (states : Nat → Option AssignmentReachability) (node : ProgramFlowNode) (met : Option AssignmentState) (edge : FlowEdge) :
    Option AssignmentState :=
  if !isAssignmentTransferEdge edge.kind (decide (node.operation = .join)) then met
  else match flow.nodes[edge.from_]? with
    | none => met
    | some predecessor =>
      if !reached edge.from_ || predecessor.boundary ≠ root.boundary then met
      else match states edge.from_ with
        | some (.reachable state) => some (match met with
          | some current => assignmentMeet current state
          | none => state)
        | _ => met

def assigns (node : ProgramFlowNode) (symbol : SymbolId) : Bool :=
  match node.operation with
  | .declarationComplete assignedRoots => decide (symbol ∈ assignedRoots)
  | .write target => decide (target.root = symbol) && target.path.isEmpty
  | _ => false

def desired (states : Nat → Option AssignmentReachability) (index : Nat) : Option AssignmentReachability :=
  match flow.nodes[index]? with
  | none => states index
  | some node =>
    if !reached index || node.boundary ≠ root.boundary then states index
    else
      let met := if isEntryOperation node then root.entry
        else ((edgesOf flow flow.incoming index).foldl (meetEdge flow reached root states node) none).getD .unassigned
      some (.reachable (if assigns node root.symbol then .assigned else met))

def inBoundary (index : Nat) : Bool := (flow.nodes[index]?).any fun node => node.boundary = root.boundary

def queueNext (index : Nat) : List Nat := (successors flow index).filter (inBoundary flow root)

def solveRoot (fuel : Nat) : Option (Nat → Option AssignmentReachability) :=
  let queue := (List.range flow.nodes.length).filter fun index => reached index && inBoundary flow root index
  Worklist.solve (desired flow reached root) (queueNext flow root) fuel queue (initialState flow reached root)

def analyzeRoots (fuel : Nat) : List AssignmentRoot → AssignmentAnalysis → Option AssignmentAnalysis
  | [],analysis => some analysis
  | root :: rest,analysis => match solveRoot flow reached root fuel with
    | none => none
    | some states => analyzeRoots fuel rest fun point symbol =>
      if symbol = root.symbol && decide (point < flow.nodes.length) then states point else analysis point symbol

end

def analyzeDefiniteAssignment (fuel : Nat) (flow : ProgramFlow) (roots : List AssignmentRoot) : Option AssignmentAnalysis :=
  match reachable flow fuel with
  | none => none
  | some reached => analyzeRoots flow reached fuel roots fun _ _ => none

end Bamts.Checker
