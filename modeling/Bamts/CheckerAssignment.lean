import Bamts.CheckerFlow

/-! Definite assignment as a statement about paths: a point is unassigned when a path of transfers leads to it along which
nothing assigns the root. -/
set_option linter.all false
namespace Bamts.Checker

section
variable (flow : ProgramFlow)

def Steps (a b : Nat) : Prop := ∃ edge ∈ flow.edges, edge.from_ = a ∧ edge.to_ = b

def Reached (point : Nat) : Prop := ∃ start ∈ initialRoots flow, Relation.ReflTransGen (Steps flow) start point

variable (root : AssignmentRoot)

structure Inside (point : Nat) (node : ProgramFlowNode) : Prop where
  found : flow.nodes[point]? = some node
  reached : Reached flow point
  boundary : node.boundary = root.boundary

def Transfers (a b : Nat) : Prop := ∃ edge ∈ flow.edges, ∃ before after, edge.from_ = a ∧ edge.to_ = b ∧ Inside flow root a before ∧
  Inside flow root b after ∧ isAssignmentTransferEdge edge.kind (decide (after.operation = .join)) = true

def Begins (point : Nat) (node : ProgramFlowNode) : Prop :=
  isEntryOperation node = true ∧ root.entry = .unassigned ∨ isEntryOperation node = false ∧ ∀ a, ¬Transfers flow root a point

inductive PathTo (blocked : ProgramFlowNode → Prop) : Nat → Prop where
  | begin {point : Nat} {node : ProgramFlowNode} (inside : Inside flow root point node) (begins : Begins flow root point node)
      (clear : ¬blocked node) : PathTo blocked point
  | step {a point : Nat} {node : ProgramFlowNode} (before : PathTo blocked a) (transfers : Transfers flow root a point)
      (inside : Inside flow root point node) (clear : ¬blocked node) : PathTo blocked point

def Assigns (node : ProgramFlowNode) : Prop := assigns node root.symbol = true

def Holds (node : ProgramFlowNode) : Prop := Assigns root node ∨ isEntryOperation node = true ∧ root.entry = .assigned

end

section
variable {flow : ProgramFlow} {root : AssignmentRoot} {reached : Nat → Bool}

theorem edgesOfArrives (point edge) : edge ∈ edgesOf flow flow.incoming point ↔ edge ∈ flow.edges ∧ edge.to_ = point := by
  unfold edgesOf
  rw [List.mem_filterMap]
  constructor
  · intro there
    obtain ⟨k,member,found⟩ := there
    obtain ⟨other,same,ends⟩ := (flow.synced.arrives point k).mp member
    cases same.symm.trans found
    exact ⟨List.mem_of_getElem? found,ends⟩
  · intro there
    obtain ⟨member,ends⟩ := there
    obtain ⟨k,found⟩ := List.mem_iff_getElem?.mp member
    exact ⟨k,(flow.synced.arrives point k).mpr ⟨edge,found,ends⟩,found⟩

theorem edgesOfLeaves (point edge) : edge ∈ edgesOf flow flow.outgoing point ↔ edge ∈ flow.edges ∧ edge.from_ = point := by
  unfold edgesOf
  rw [List.mem_filterMap]
  constructor
  · intro there
    obtain ⟨k,member,found⟩ := there
    obtain ⟨other,same,ends⟩ := (flow.synced.leaves point k).mp member
    cases same.symm.trans found
    exact ⟨List.mem_of_getElem? found,ends⟩
  · intro there
    obtain ⟨member,ends⟩ := there
    obtain ⟨k,found⟩ := List.mem_iff_getElem?.mp member
    exact ⟨k,(flow.synced.leaves point k).mpr ⟨edge,found,ends⟩,found⟩

theorem pointIndexSome {point len i : Nat} : pointIndex point len = some i ↔ point < len ∧ i = point := by
  unfold pointIndex
  split
  · rename_i inside
    simp [inside,eq_comm]
  · rename_i outside
    simp [outside]

theorem successorsExact (a b) : b ∈ successors flow a ↔ Steps flow a b := by
  unfold successors Steps
  rw [List.mem_filterMap]
  constructor
  · intro there
    obtain ⟨edge,member,index⟩ := there
    obtain ⟨member,leaves⟩ := (edgesOfLeaves a edge).mp member
    exact ⟨edge,member,leaves,(pointIndexSome.mp index).2.symm⟩
  · intro there
    obtain ⟨edge,member,leaves,arrives⟩ := there
    exact ⟨edge,(edgesOfLeaves a edge).mpr ⟨member,leaves⟩,pointIndexSome.mpr ⟨(flow.synced.inside edge member).2,arrives.symm⟩⟩

theorem initialInside {start} (member : start ∈ initialRoots flow) : start < flow.nodes.length := by
  unfold initialRoots at member
  split at member
  · exact List.mem_range.mp (List.mem_filter.mp member).1
  · obtain ⟨point,_,index⟩ := List.mem_filterMap.mp member
    obtain ⟨inside,same⟩ := pointIndexSome.mp index
    rw [same]
    exact inside

theorem stepsInside {a b} (steps : Steps flow a b) : b < flow.nodes.length := by
  obtain ⟨edge,member,_,rfl⟩ := steps
  exact (flow.synced.inside edge member).2

theorem reachedInside {point} (reached : Reached flow point) : point < flow.nodes.length := by
  obtain ⟨start,member,path⟩ := reached
  cases path with
  | refl => exact initialInside member
  | tail _ steps => exact stepsInside steps

theorem Reached.step {a b} (before : Reached flow a) (steps : Steps flow a b) : Reached flow b := by
  obtain ⟨start,member,path⟩ := before
  exact ⟨start,member,path.tail steps⟩

theorem unseenAll (nodes : List Nat) : Worklist.unseen nodes (fun _ => false) = nodes.length := by
  simp [Worklist.unseen]

theorem reachableExact {fuel} (enough : flow.nodes.length ≤ fuel) :
    ∃ reached, reachable flow fuel = some reached ∧ ∀ point, reached point = true ↔ Reached flow point := by
  have distinct : (List.range flow.nodes.length).Nodup := List.nodup_range
  have known : ∀ start ∈ initialRoots flow, start ∈ List.range flow.nodes.length := fun start member => List.mem_range.mpr (initialInside member)
  obtain ⟨seen,waiting,measure⟩ := Worklist.visitSpec distinct known [] fun _ => false
  have queueLength : (Worklist.visit [] (fun _ => false) (initialRoots flow)).1.length+
      Worklist.unseen (List.range flow.nodes.length) (Worklist.visit [] (fun _ => false) (initialRoots flow)).2 ≤ fuel := by
    rw [measure,unseenAll,List.length_range]
    simpa using enough
  have explored : Worklist.Explored (successors flow) (List.range flow.nodes.length) { start | start ∈ initialRoots flow }
      (Worklist.visit [] (fun _ => false) (initialRoots flow)).1 (Worklist.visit [] (fun _ => false) (initialRoots flow)).2 := by
    have begun : ∀ point, (Worklist.visit [] (fun _ => false) (initialRoots flow)).2 point = true ↔ point ∈ initialRoots flow := by
      intro point
      rw [seen point]
      simp
    refine ⟨fun point found => ⟨point,(begun point).mp found,.refl⟩,fun start member => (begun start).mpr member,fun point member => ?_,
      fun point found away => ?_,fun point found => known point ((begun point).mp found)⟩
    · exact (begun point).mpr (by simpa using (waiting point).mp member)
    · exact absurd ((waiting point).mpr (by simpa using (begun point).mp found)) away
  obtain ⟨all,done,exact_⟩ := Worklist.exploreSpec distinct
    (fun a _ b member => List.mem_range.mpr (stepsInside ((successorsExact a b).mp member))) queueLength explored
  refine ⟨all,done,fun point => (exact_ point).trans ?_⟩
  have same : (fun a b => b ∈ successors flow a) = Steps flow := by
    funext a b
    exact propext (successorsExact a b)
  rw [same]
  exact Iff.rfl

structure Contributes (flow : ProgramFlow) (reached : Nat → Bool) (root : AssignmentRoot) (states : Nat → Option AssignmentReachability)
    (node : ProgramFlowNode) (edge : FlowEdge) (state : AssignmentState) : Prop where
  transfers : isAssignmentTransferEdge edge.kind (decide (node.operation = .join)) = true
  before : ∃ predecessor, flow.nodes[edge.from_]? = some predecessor ∧ predecessor.boundary = root.boundary
  reached : reached edge.from_ = true
  known : states edge.from_ = some (.reachable state)

variable {states : Nat → Option AssignmentReachability} {node : ProgramFlowNode}

theorem meetEdgeAdds {edge state} (contributes : Contributes flow reached root states node edge state)
    (met) : meetEdge flow reached root states node met edge = some (match met with
      | some current => assignmentMeet current state
      | none => state) := by
  obtain ⟨predecessor,found,boundary⟩ := contributes.before
  cases met with
  | _ => simp [meetEdge,contributes.transfers,found,boundary,contributes.reached,contributes.known]

theorem meetEdgeKeeps {edge} (silent : ∀ state, ¬Contributes flow reached root states node edge state) (met) :
    meetEdge flow reached root states node met edge = met := by
  unfold meetEdge
  split
  · rfl
  · rename_i transfers
    split
    · rfl
    · rename_i predecessor found
      split
      · rfl
      · rename_i inside
        split
        · rename_i state known
          simp only [Bool.or_eq_true,Bool.not_eq_true',decide_eq_true_eq,not_or,ne_eq,not_not] at inside
          exact absurd ⟨by simpa using transfers,⟨predecessor,found,inside.2⟩,by simpa using inside.1,known⟩ (silent state)
        · rfl

theorem meetNone (edges : List FlowEdge) (met) : edges.foldl (meetEdge flow reached root states node) met = none ↔
    met = none ∧ ∀ edge ∈ edges, ∀ state, ¬Contributes flow reached root states node edge state := by
  induction edges generalizing met with
  | nil => simp
  | cons edge rest ih =>
    rw [List.foldl_cons,ih,List.forall_mem_cons]
    by_cases adds : ∃ state, Contributes flow reached root states node edge state
    · obtain ⟨state,contributes⟩ := adds
      rw [meetEdgeAdds contributes]
      exact ⟨fun none_ => (nomatch none_.1),fun none_ => absurd contributes (none_.2.1 state)⟩
    · have silent : ∀ state, ¬Contributes flow reached root states node edge state := fun state contributes => adds ⟨state,contributes⟩
      rw [meetEdgeKeeps silent]
      exact ⟨fun none_ => ⟨none_.1,silent,none_.2⟩,fun none_ => ⟨none_.1,none_.2.2⟩⟩

theorem meetUnassigned (edges : List FlowEdge) (met) :
    edges.foldl (meetEdge flow reached root states node) met = some .unassigned ↔
      met = some .unassigned ∨ ∃ edge ∈ edges, Contributes flow reached root states node edge .unassigned := by
  induction edges generalizing met with
  | nil => simp
  | cons edge rest ih =>
    rw [List.foldl_cons,ih,List.exists_mem_cons_iff,← or_assoc]
    by_cases adds : ∃ state, Contributes flow reached root states node edge state
    · obtain ⟨state,contributes⟩ := adds
      rw [meetEdgeAdds contributes]
      have only : ∀ other, Contributes flow reached root states node edge other ↔ other = state := by
        intro other
        exact ⟨fun there => by cases there.known.symm.trans contributes.known; rfl,fun same => same ▸ contributes⟩
      rw [only]
      cases met with
      | none => simp [eq_comm]
      | some current => cases current with
        | unassigned => simp [assignmentMeet]
        | assigned => cases state with
          | _ => simp [assignmentMeet]
    · have silent : ∀ state, ¬Contributes flow reached root states node edge state := fun state contributes => adds ⟨state,contributes⟩
      rw [meetEdgeKeeps silent]
      simp [silent]

theorem entryAssigns (entry : isEntryOperation node = true) : assigns node root.symbol = false := by
  have operation : node.operation = .entry := by simpa using (Bool.and_eq_true_iff.mp entry).1
  simp [assigns,operation]

def Known (flow : ProgramFlow) (root : AssignmentRoot) (states : Nat → Option AssignmentReachability) : Prop :=
  ∀ point node, Inside flow root point node → ∃ state, states point = some (.reachable state)

variable (exact_ : ∀ point, reached point = true ↔ Reached flow point)

include exact_ in
theorem contributesTransfers {point : Nat} (edge : FlowEdge) (state : AssignmentState) :
    (edge ∈ edgesOf flow flow.incoming point ∧ Contributes flow reached root states node edge state) ↔
      edge ∈ flow.edges ∧ edge.to_ = point ∧ isAssignmentTransferEdge edge.kind (decide (node.operation = .join)) = true ∧
        (∃ before, Inside flow root edge.from_ before) ∧ states edge.from_ = some (.reachable state) := by
  rw [edgesOfArrives]
  constructor
  · intro there
    obtain ⟨⟨member,arrives⟩,transfers,⟨before,found,boundary⟩,reached,known⟩ := there
    exact ⟨member,arrives,transfers,⟨before,found,(exact_ _).mp reached,boundary⟩,known⟩
  · intro there
    obtain ⟨member,arrives,transfers,⟨before,here⟩,known⟩ := there
    exact ⟨⟨member,arrives⟩,transfers,⟨before,here.found,here.boundary⟩,(exact_ _).mpr here.reached,known⟩

def Falls (flow : ProgramFlow) (root : AssignmentRoot) (states : Nat → Option AssignmentReachability) (point : Nat) (node : ProgramFlowNode) : Prop :=
  assigns node root.symbol = false ∧ (isEntryOperation node = true ∧ root.entry = .unassigned ∨ isEntryOperation node = false ∧
    ((∀ a, ¬Transfers flow root a point) ∨ ∃ a, Transfers flow root a point ∧ states a = some (.reachable .unassigned)))

include exact_ in
theorem desiredExact {point : Nat} (inside : Inside flow root point node) (known : Known flow root states) :
    (∃ state, desired flow reached root states point = some (.reachable state)) ∧
      (desired flow reached root states point = some (.reachable .unassigned) ↔ Falls flow root states point node) := by
  have here : reached point = true := (exact_ point).mpr inside.reached
  have computed : desired flow reached root states point = some (.reachable (if assigns node root.symbol then .assigned else
      if isEntryOperation node then root.entry
      else ((edgesOf flow flow.incoming point).foldl (meetEdge flow reached root states node) none).getD .unassigned)) := by
    simp [desired,inside.found,here,inside.boundary]
  refine ⟨⟨_,computed⟩,?_⟩
  rw [computed]
  unfold Falls
  cases assigned : assigns node root.symbol with
  | true => simp
  | false =>
    cases entry : isEntryOperation node with
    | true => simp
    | false =>
      have transfers : ∀ a, Transfers flow root a point ↔ ∃ edge, edge ∈ edgesOf flow flow.incoming point ∧ edge.from_ = a ∧
          ∃ state, Contributes flow reached root states node edge state := by
        intro a
        constructor
        · intro there
          obtain ⟨edge,member,before,after,rfl,arrives,first,second,transfers⟩ := there
          cases second.found.symm.trans inside.found
          obtain ⟨state,is⟩ := known _ _ first
          obtain ⟨member,contributes⟩ := (contributesTransfers exact_ edge state).mpr ⟨member,arrives,transfers,⟨before,first⟩,is⟩
          exact ⟨edge,member,rfl,state,contributes⟩
        · intro there
          obtain ⟨edge,member,rfl,state,contributes⟩ := there
          obtain ⟨member,arrives,transfers,⟨before,first⟩,_⟩ := (contributesTransfers exact_ edge state).mp ⟨member,contributes⟩
          exact ⟨edge,member,before,node,rfl,arrives,first,inside,transfers⟩
      have silent : (∀ a, ¬Transfers flow root a point) ↔
          (edgesOf flow flow.incoming point).foldl (meetEdge flow reached root states node) none = none := by
        rw [meetNone]
        refine ⟨fun none_ => ⟨rfl,fun edge member state contributes => none_ edge.from_ ((transfers _).mpr ⟨edge,member,rfl,state,contributes⟩)⟩,
          fun none_ a there => ?_⟩
        obtain ⟨edge,member,_,state,contributes⟩ := (transfers a).mp there
        exact none_.2 edge member state contributes
      have falls : (∃ a, Transfers flow root a point ∧ states a = some (.reachable .unassigned)) ↔
          (edgesOf flow flow.incoming point).foldl (meetEdge flow reached root states node) none = some .unassigned := by
        rw [meetUnassigned]
        constructor
        · intro there
          obtain ⟨a,there,is⟩ := there
          obtain ⟨edge,member,rfl,state,contributes⟩ := (transfers a).mp there
          cases contributes.known.symm.trans is
          exact .inr ⟨edge,member,contributes⟩
        · intro there
          obtain ⟨edge,member,contributes⟩ := there.resolve_left nofun
          exact ⟨edge.from_,(transfers _).mpr ⟨edge,member,rfl,_,contributes⟩,contributes.known⟩
      rw [silent,falls]
      cases met : (edgesOf flow flow.incoming point).foldl (meetEdge flow reached root states node) none with
      | none => simp
      | some state => simp

def boundaryPoints (flow : ProgramFlow) (reached : Nat → Bool) (root : AssignmentRoot) : List Nat :=
  (List.range flow.nodes.length).filter fun index => reached index && inBoundary flow root index

include exact_ in
theorem boundaryPointsExact (point : Nat) : point ∈ boundaryPoints flow reached root ↔ ∃ node, Inside flow root point node := by
  unfold boundaryPoints inBoundary
  rw [List.mem_filter,List.mem_range,Bool.and_eq_true,exact_,Option.any_eq_true]
  constructor
  · intro there
    obtain ⟨_,reaches,node,found,boundary⟩ := there
    exact ⟨node,found,reaches,by simpa using boundary⟩
  · intro there
    obtain ⟨node,inside⟩ := there
    exact ⟨reachedInside inside.reached,inside.reached,node,inside.found,by simpa using inside.boundary⟩

-- A change at one point concerns the points its edges lead to.
include exact_ in
theorem desiredLocal (states : Nat → Option AssignmentReachability) (point : Nat) (new : Option AssignmentReachability) (x : Nat)
    (away : x ∉ queueNext flow root point) : desired flow reached root (Function.update states point new) x = desired flow reached root states x ∨
      x ∉ boundaryPoints flow reached root := by
  by_cases member : x ∈ boundaryPoints flow reached root
  · obtain ⟨node,inside⟩ := (boundaryPointsExact exact_ x).mp member
    have here : reached x = true := (exact_ x).mpr inside.reached
    have apart : ∀ edge ∈ edgesOf flow flow.incoming x, edge.from_ ≠ point := by
      intro edge arrives same
      obtain ⟨known,ends⟩ := (edgesOfArrives x edge).mp arrives
      refine away (List.mem_filter.mpr ⟨(successorsExact point x).mpr ⟨edge,known,same,ends⟩,?_⟩)
      unfold inBoundary
      rw [Option.any_eq_true]
      exact ⟨node,inside.found,by simpa using inside.boundary⟩
    have folded : ∀ (edges : List FlowEdge), (∀ edge ∈ edges, edge.from_ ≠ point) → ∀ met,
        edges.foldl (meetEdge flow reached root (Function.update states point new) node) met = edges.foldl (meetEdge flow reached root states node) met := by
      intro edges
      induction edges with
      | nil => exact fun _ _ => rfl
      | cons edge rest ih =>
        intro others met
        obtain ⟨first,others⟩ := List.forall_mem_cons.mp others
        have same : meetEdge flow reached root (Function.update states point new) node met edge = meetEdge flow reached root states node met edge := by
          simp only [meetEdge,Function.update_of_ne first]
        rw [List.foldl_cons,List.foldl_cons,same,ih others]
    left
    simp only [desired,inside.found,here,inside.boundary,folded _ apart]
    simp
  · exact .inr member

def rank : Option AssignmentReachability → Nat
  | some (.reachable .assigned) => 1
  | _ => 0

-- What holds of the states while the queue runs: no point is unassigned without a path, and none rises again.
structure Descending (flow : ProgramFlow) (reached : Nat → Bool) (root : AssignmentRoot) (states : Nat → Option AssignmentReachability) : Prop where
  known : Known flow root states
  path : ∀ point, (∃ node, Inside flow root point node) → states point = some (.reachable .unassigned) → PathTo flow root (Holds root) point
  stays : ∀ point node, Inside flow root point node → states point = some (.reachable .unassigned) →
    desired flow reached root states point = some (.reachable .unassigned)
  others : ∀ point, (¬∃ node, Inside flow root point node) → states point = initialState flow reached root point

include exact_ in
theorem descendingStart : Descending flow reached root (initialState flow reached root) := by
  have initial : ∀ point node, Inside flow root point node →
      initialState flow reached root point = some (.reachable (if isEntryOperation node then root.entry else .assigned)) := by
    intro point node inside
    have here : reached point = true := (exact_ point).mpr inside.reached
    cases entry : isEntryOperation node with
    | _ => simp [initialState,inside.found,here,inside.boundary,entry]
  have begins : ∀ point node, Inside flow root point node → initialState flow reached root point = some (.reachable .unassigned) →
      isEntryOperation node = true ∧ root.entry = .unassigned := by
    intro point node inside state
    rw [initial point node inside] at state
    cases entry : isEntryOperation node with
    | true => exact ⟨rfl,by simpa [entry] using state⟩
    | false => simp [entry] at state
  have known : Known flow root (initialState flow reached root) := fun point node inside => ⟨_,initial point node inside⟩
  refine ⟨known,fun point there state => ?_,fun point node inside state => ?_,fun _ _ => rfl⟩
  · obtain ⟨node,inside⟩ := there
    obtain ⟨entry,unassigned⟩ := begins point node inside state
    refine .begin inside (.inl ⟨entry,unassigned⟩) fun holds => ?_
    rcases holds with assigned | ⟨_,assigned⟩
    · exact nomatch (entryAssigns entry).symm.trans assigned
    · exact nomatch unassigned.symm.trans assigned
  · obtain ⟨entry,unassigned⟩ := begins point node inside state
    exact (desiredExact exact_ inside known).2.mpr ⟨entryAssigns entry,.inl ⟨entry,unassigned⟩⟩

theorem Falls.path {point} (falls : Falls flow root states point node) (inside : Inside flow root point node)
    (before : ∀ a, (∃ node, Inside flow root a node) → states a = some (.reachable .unassigned) → PathTo flow root (Holds root) a) :
    PathTo flow root (Holds root) point := by
  obtain ⟨clear,why⟩ := falls
  have open_ : (isEntryOperation node = true → root.entry = .unassigned) → ¬Holds root node := by
    intro entry holds
    rcases holds with assigned | ⟨is,assigned⟩
    · exact nomatch clear.symm.trans assigned
    · exact nomatch (entry is).symm.trans assigned
  rcases why with ⟨entry,unassigned⟩ | ⟨inner,none_ | ⟨a,transfers,state⟩⟩
  · exact .begin inside (.inl ⟨entry,unassigned⟩) (open_ fun _ => unassigned)
  · exact .begin inside (.inr ⟨inner,none_⟩) (open_ fun is => nomatch inner.symm.trans is)
  · obtain ⟨edge,member,first,after,leaves,arrives,here,rest⟩ := transfers
    exact .step (before a ⟨first,here⟩ state) ⟨edge,member,first,after,leaves,arrives,here,rest⟩ inside (open_ fun is => nomatch inner.symm.trans is)

include exact_ in
theorem descendingStep (descending : Descending flow reached root states) {point : Nat} (member : point ∈ boundaryPoints flow reached root)
    (changed : desired flow reached root states point ≠ states point) :
    Descending flow reached root (Function.update states point (desired flow reached root states point)) ∧
      rank (desired flow reached root states point) < rank (states point) := by
  obtain ⟨node,inside⟩ := (boundaryPointsExact exact_ point).mp member
  obtain ⟨⟨next,computed⟩,falls⟩ := desiredExact exact_ inside descending.known
  obtain ⟨state,old⟩ := descending.known point node inside
  have was : state = .assigned := by
    cases state with
    | assigned => rfl
    | unassigned => exact absurd ((descending.stays point node inside old).trans old.symm) changed
  have now : desired flow reached root states point = some (.reachable .unassigned) := by
    cases next with
    | unassigned => exact computed
    | assigned => exact absurd (computed.trans (was ▸ old.symm)) changed
  have lower : ∀ x, states x = some (.reachable .unassigned) → Function.update states point (some (.reachable .unassigned)) x = some (.reachable .unassigned) := by
    intro x is
    by_cases same : x = point
    · rw [same,Function.update_self]
    · rw [Function.update_of_ne same]
      exact is
  have fallen : ∀ x other, Falls flow root states x other → Falls flow root (Function.update states point (some (.reachable .unassigned))) x other := by
    intro x other there
    refine there.imp_right fun why => why.imp_right fun inner => ⟨inner.1,inner.2.imp_right fun some_ => ?_⟩
    obtain ⟨a,transfers,is⟩ := some_
    exact ⟨a,transfers,lower a is⟩
  rw [now,old,was]
  have known : Known flow root (Function.update states point (some (.reachable .unassigned))) := by
    intro x other there
    by_cases same : x = point
    · exact ⟨.unassigned,by rw [same,Function.update_self]⟩
    · rw [Function.update_of_ne same]
      exact descending.known x other there
  refine ⟨⟨known,fun x there is => ?_,fun x other there is => ?_,fun x outside => ?_⟩,Nat.zero_lt_one⟩
  · by_cases same : x = point
    · subst same
      exact (falls.mp now).path inside descending.path
    · rw [Function.update_of_ne same] at is
      exact descending.path x there is
  · refine (desiredExact exact_ there known).2.mpr (fallen x other ?_)
    by_cases same : x = point
    · subst same
      cases there.found.symm.trans inside.found
      exact falls.mp now
    · rw [Function.update_of_ne same] at is
      exact (desiredExact exact_ there descending.known).2.mp (descending.stays x other there is)
  · have other : x ≠ point := by
      intro same
      subst same
      exact outside ⟨node,inside⟩
    rw [Function.update_of_ne other]
    exact descending.others x outside

theorem potentialBound (points : List Nat) (states) : Worklist.potential rank points states ≤ points.length := by
  unfold Worklist.potential
  induction points with
  | nil => exact Nat.le_refl 0
  | cons point rest ih =>
    rw [List.map_cons,List.sum_cons,List.length_cons]
    have small : rank (states point) ≤ 1 := by
      unfold rank
      split
      · exact Nat.le_refl 1
      · exact Nat.zero_le 1
    omega

def budget (flow : ProgramFlow) : Nat := flow.nodes.length+flow.nodes.length*(flow.nodes.length+1)

include exact_ in
/-- The queue of one root comes to an end: a point of the boundary is unassigned exactly when a path says so. -/
theorem solveRootExact (root : AssignmentRoot) {fuel : Nat} (enough : budget flow ≤ fuel) : ∃ states, solveRoot flow reached root fuel = some states ∧
    (∀ point node, Inside flow root point node → (∃ state, states point = some (.reachable state)) ∧
      (states point = some (.reachable .unassigned) ↔ PathTo flow root (Holds root) point)) ∧
    ∀ point, (¬∃ node, Inside flow root point node) → states point = initialState flow reached root point := by
  have short : (boundaryPoints flow reached root).length ≤ flow.nodes.length := by
    have filtered := List.length_filter_le (fun index => reached index && inBoundary flow root index) (List.range flow.nodes.length)
    rw [List.length_range] at filtered
    exact filtered
  have room : (boundaryPoints flow reached root).length+Worklist.potential rank (boundaryPoints flow reached root) (initialState flow reached root)*
      ((boundaryPoints flow reached root).length+1) ≤ fuel := by
    have bounded := (potentialBound (boundaryPoints flow reached root) (initialState flow reached root)).trans short
    have product := Nat.mul_le_mul bounded (Nat.add_le_add_right short 1)
    unfold budget at enough
    omega
  obtain ⟨final,done,descending,stable⟩ := Worklist.solveSpec (desired flow reached root) (queueNext flow root) (boundaryPoints flow reached root) rank
    (Descending flow reached root)
    (fun point member next queued => by
      obtain ⟨node,inside⟩ := (boundaryPointsExact exact_ point).mp member
      obtain ⟨after,bounded⟩ := List.mem_filter.mp queued
      unfold inBoundary at bounded
      rw [Option.any_eq_true] at bounded
      obtain ⟨other,found,boundary⟩ := bounded
      exact (boundaryPointsExact exact_ next).mpr ⟨other,found,inside.reached.step ((successorsExact point next).mp after),by simpa using boundary⟩)
    (desiredLocal exact_) (fun states good point member changed => descendingStep exact_ good member changed) room
    (List.nodup_range.filter _) (fun point member => member) (descendingStart exact_) (fun point member away => absurd member away)
  refine ⟨final,done,fun point node inside => ⟨descending.known point node inside,descending.path point ⟨node,inside⟩,fun path => ?_⟩,descending.others⟩
  have settled : ∀ x other, Inside flow root x other → Falls flow root final x other → final x = some (.reachable .unassigned) := by
    intro x other there falls
    rw [← stable x ((boundaryPointsExact exact_ x).mpr ⟨other,there⟩)]
    exact (desiredExact exact_ there descending.known).2.mpr falls
  induction path generalizing node with
  | begin here begins clear =>
    refine settled _ _ here ⟨by simpa [Assigns] using fun assigned => clear (.inl assigned),begins.imp_right fun inner => ⟨inner.1,.inl inner.2⟩⟩
  | @step a x other before transfers here clear ih =>
    have assigned : assigns other root.symbol = false := by simpa [Assigns] using fun assigned => clear (.inl assigned)
    obtain ⟨edge,member,first,after,leaves,arrives,source,rest⟩ := transfers
    have was := ih first source
    cases entry : isEntryOperation other with
    | true =>
      have unassigned : root.entry = .unassigned := by
        cases state : root.entry with
        | unassigned => rfl
        | assigned => exact absurd (.inr ⟨entry,state⟩) clear
      exact settled x other here ⟨assigned,.inl ⟨entry,unassigned⟩⟩
    | false => exact settled x other here ⟨assigned,.inr ⟨entry,.inr ⟨a,⟨edge,member,first,after,leaves,arrives,source,rest⟩,was⟩⟩⟩

end

def Solved (flow : ProgramFlow) (root : AssignmentRoot) (point : Nat) : Option AssignmentReachability → Prop
  | none => flow.nodes.length ≤ point
  | some .unreachable => ∃ node, flow.nodes[point]? = some node ∧ ¬(Reached flow point ∧ node.boundary = root.boundary)
  | some (.reachable state) => (∃ node, Inside flow root point node) ∧ (state = .unassigned ↔ PathTo flow root (Holds root) point)

section
variable {flow : ProgramFlow} {root : AssignmentRoot}

theorem Solved.unique {point one two} (first : Solved flow root point one) (second : Solved flow root point two) :
    one = two := by
  have found : ∀ {node}, flow.nodes[point]? = some node → ¬flow.nodes.length ≤ point := fun here => Nat.not_le.mpr (List.getElem?_eq_some_iff.mp here).1
  cases one with
  | none => cases two with
    | none => rfl
    | some two => cases two with
      | unreachable =>
        obtain ⟨node,here,_⟩ := second
        exact absurd first (found here)
      | reachable state =>
        obtain ⟨⟨node,inside⟩,_⟩ := second
        exact absurd first (found inside.found)
  | some one => cases one with
    | unreachable =>
      obtain ⟨node,here,outside⟩ := first
      cases two with
      | none => exact absurd second (found here)
      | some two => cases two with
        | unreachable => rfl
        | reachable state =>
          obtain ⟨⟨other,inside⟩,_⟩ := second
          cases here.symm.trans inside.found
          exact absurd ⟨inside.reached,inside.boundary⟩ outside
    | reachable state =>
      obtain ⟨⟨node,inside⟩,path⟩ := first
      cases two with
      | none => exact absurd second (found inside.found)
      | some two => cases two with
        | unreachable =>
          obtain ⟨other,here,outside⟩ := second
          cases here.symm.trans inside.found
          exact absurd ⟨inside.reached,inside.boundary⟩ outside
        | reachable other =>
          have same : state = .unassigned ↔ other = .unassigned := path.trans second.2.symm
          cases state with
          | unassigned => rw [same.mp rfl]
          | assigned => cases other with
            | assigned => rfl
            | unassigned => cases same.mpr rfl

theorem solveRootSolved {reached} (exact_ : ∀ point, reached point = true ↔ Reached flow point) (root) {fuel}
    (enough : budget flow ≤ fuel) : ∃ states, solveRoot flow reached root fuel = some states ∧ ∀ point, Solved flow root point (states point) := by
  obtain ⟨states,done,inner,outer⟩ := solveRootExact exact_ root enough
  refine ⟨states,done,fun point => ?_⟩
  by_cases there : ∃ node, Inside flow root point node
  · obtain ⟨node,inside⟩ := there
    obtain ⟨⟨state,is⟩,path⟩ := inner point node inside
    rw [is] at path ⊢
    exact ⟨⟨node,inside⟩,by simpa using path⟩
  · rw [outer point there]
    unfold initialState
    cases here : flow.nodes[point]? with
    | none => exact List.getElem?_eq_none_iff.mp here
    | some node =>
      have outside : ¬(Reached flow point ∧ node.boundary = root.boundary) := fun both => there ⟨node,here,both.1,both.2⟩
      have unreachable : Solved flow root point (some .unreachable) := ⟨node,here,outside⟩
      cases reaches : reached point with
      | false => simpa using unreachable
      | true =>
        have other : node.boundary ≠ root.boundary := fun boundary => outside ⟨(exact_ point).mp reaches,boundary⟩
        simpa [other] using unreachable

def Recorded (flow : ProgramFlow) (start : AssignmentAnalysis) (point : Nat) (symbol : SymbolId) (value : Option AssignmentReachability) :
    Option AssignmentRoot → Prop
  | some root => if point < flow.nodes.length then Solved flow root point value else value = start point symbol
  | none => value = start point symbol

def lastRoot (roots : List AssignmentRoot) (symbol : SymbolId) : Option AssignmentRoot := roots.reverse.find? fun root => root.symbol = symbol

theorem analyzeRootsRecorded {reached} (exact_ : ∀ point, reached point = true ↔ Reached flow point) {fuel} (enough : budget flow ≤ fuel)
    (roots start) : ∃ analysis, analyzeRoots flow reached fuel roots start = some analysis ∧
      ∀ point symbol, Recorded flow start point symbol (analysis point symbol) (lastRoot roots symbol) := by
  induction roots generalizing start with
  | nil => exact ⟨start,rfl,fun _ _ => rfl⟩
  | cons root rest ih =>
    obtain ⟨states,solved,is⟩ := solveRootSolved exact_ root enough
    obtain ⟨analysis,done,recorded⟩ := ih fun point symbol =>
      if symbol = root.symbol && decide (point < flow.nodes.length) then states point else start point symbol
    refine ⟨analysis,by rw [analyzeRoots,solved]; exact done,fun point symbol => ?_⟩
    have known := recorded point symbol
    unfold lastRoot at known ⊢
    rw [List.reverse_cons,List.find?_append]
    cases later : rest.reverse.find? fun root => root.symbol = symbol with
    | some other =>
      rw [later] at known
      simp only [Recorded,Option.some_or] at known ⊢
      split at known
      · rename_i inside
        rw [if_pos inside]
        exact known
      · rename_i outside
        simpa [outside] using known
    | none =>
      rw [later] at known
      simp only [Recorded,Option.none_or,List.find?_singleton] at known ⊢
      rw [known]
      by_cases same : symbol = root.symbol
      · subst same
        simp only [decide_true,Bool.true_and,if_true]
        split
        · rename_i inside
          rw [if_pos (by simpa using inside)]
          exact is point
        · rename_i outside
          rw [if_neg (by simpa using outside)]
      · have other : ¬root.symbol = symbol := fun equal => same equal.symm
        simp [same,other]

structure SameGraph (flow other : ProgramFlow) : Prop where
  nodes : other.nodes = flow.nodes
  roots : other.roots = flow.roots
  edges : ∀ edge, edge ∈ other.edges ↔ edge ∈ flow.edges

variable {other : ProgramFlow}

theorem SameGraph.symm (same : SameGraph flow other) : SameGraph other flow := ⟨same.nodes.symm,same.roots.symm,fun edge => (same.edges edge).symm⟩

theorem SameGraph.steps (same : SameGraph flow other) : Steps other = Steps flow := by
  unfold Steps
  simp only [same.edges]

theorem SameGraph.initial (same : SameGraph flow other) : initialRoots other = initialRoots flow := by
  unfold initialRoots
  rw [same.nodes,same.roots]

theorem SameGraph.reached (same : SameGraph flow other) (point) : Reached other point ↔ Reached flow point := by
  unfold Reached
  rw [same.steps,same.initial]

theorem SameGraph.inside (same : SameGraph flow other) {point node} (inside : Inside flow root point node) :
    Inside other root point node := ⟨by rw [same.nodes]; exact inside.found,(same.reached point).mpr inside.reached,inside.boundary⟩

theorem SameGraph.transfers (same : SameGraph flow other) {a b} (transfers : Transfers flow root a b) : Transfers other root a b := by
  obtain ⟨edge,member,before,after,leaves,arrives,first,second,kind⟩ := transfers
  exact ⟨edge,(same.edges edge).mpr member,before,after,leaves,arrives,same.inside first,same.inside second,kind⟩

theorem SameGraph.path (same : SameGraph flow other) {blocked point} (path : PathTo flow root blocked point) :
    PathTo other root blocked point := by
  induction path with
  | begin inside begins clear =>
    refine .begin (same.inside inside) (begins.imp_right fun none_ => ⟨none_.1,fun a transfers => none_.2 a ?_⟩) clear
    exact same.symm.transfers transfers
  | step before transfers inside clear ih => exact .step ih (same.transfers transfers) (same.inside inside) clear

theorem SameGraph.solved (same : SameGraph flow other) {point value} (solved : Solved flow root point value) :
    Solved other root point value := by
  cases value with
  | none =>
    show other.nodes.length ≤ point
    rw [same.nodes]
    exact solved
  | some value => cases value with
    | unreachable =>
      obtain ⟨node,found,outside⟩ := solved
      exact ⟨node,by rw [same.nodes]; exact found,fun both => outside ⟨(same.reached point).mp both.1,both.2⟩⟩
    | reachable state =>
      obtain ⟨⟨node,inside⟩,path⟩ := solved
      exact ⟨⟨node,same.inside inside⟩,path.trans ⟨same.path,same.symm.path⟩⟩

theorem SameGraph.recorded (same : SameGraph flow other) {start point symbol one two root} (first : Recorded flow start point symbol one root)
    (second : Recorded other start point symbol two root) : two = one := by
  cases root with
  | none => exact (show two = start point symbol from second).trans (show one = start point symbol from first).symm
  | some root =>
    simp only [Recorded,same.nodes] at first second
    split at first
    · rename_i inside
      rw [if_pos inside] at second
      exact second.unique (same.solved first)
    · rename_i outside
      rw [if_neg outside] at second
      exact second.trans first.symm

theorem analysisRecorded (flow roots) {fuel} (enough : budget flow ≤ fuel) :
    ∃ analysis, analyzeDefiniteAssignment fuel flow roots = some analysis ∧
      ∀ point symbol, Recorded flow (fun _ _ => none) point symbol (analysis point symbol) (lastRoot roots symbol) := by
  have room : flow.nodes.length ≤ fuel := (Nat.le_add_right _ _).trans enough
  obtain ⟨reached,explored,exact_⟩ := reachableExact room
  obtain ⟨analysis,done,recorded⟩ := analyzeRootsRecorded exact_ enough roots fun _ _ => none
  refine ⟨analysis,?_,recorded⟩
  rw [analyzeDefiniteAssignment,explored]
  exact done

theorem lastRootAlike {roots} (member : root ∈ roots) (alike : ∀ other ∈ roots, other.symbol = root.symbol → other = root) :
    lastRoot roots root.symbol = some root := by
  unfold lastRoot
  cases found : roots.reverse.find? fun other => other.symbol = root.symbol with
  | none =>
    have none_ := List.find?_eq_none.mp found root (List.mem_reverse.mpr member)
    simp at none_
  | some other =>
    have symbol : other.symbol = root.symbol := by simpa using List.find?_some found
    rw [alike other (List.mem_reverse.mp (List.mem_of_find?_eq_some found)) symbol]

/-- With fuel enough the analysis ends with one result, whatever the order of the edges: a reachable point of the boundary of
a root is unassigned exactly when a path leads to it, from an unassigned entry or from a point that no edge transfers to,
along which no point assigns the root or is an assigned entry; every other point is unreachable. -/
theorem assignmentMeetsPaths (flow : ProgramFlow) (roots : List AssignmentRoot) : ∃ analysis,
    (∀ other, SameGraph flow other → ∀ fuel, budget other ≤ fuel → analyzeDefiniteAssignment fuel other roots = some analysis) ∧
    ∀ root ∈ roots, (∀ other ∈ roots, other.symbol = root.symbol → other = root) → ∀ point node, flow.nodes[point]? = some node →
      (Reached flow point ∧ node.boundary = root.boundary → ∃ state, analysis point root.symbol = some (.reachable state) ∧
        (state = .unassigned ↔ PathTo flow root (Holds root) point)) ∧
      (¬(Reached flow point ∧ node.boundary = root.boundary) → analysis point root.symbol = some .unreachable) := by
  obtain ⟨analysis,done,recorded⟩ := analysisRecorded flow roots (Nat.le_refl (budget flow))
  refine ⟨analysis,fun other same fuel enough => ?_,fun root member alike point node found => ?_⟩
  · obtain ⟨result,ends,again⟩ := analysisRecorded other roots enough
    have equal : result = analysis := by
      funext point symbol
      exact same.recorded (recorded point symbol) (again point symbol)
    rw [ends,equal]
  · have inside := (List.getElem?_eq_some_iff.mp found).1
    have known : Solved flow root point (analysis point root.symbol) := by
      have recorded := recorded point root.symbol
      rw [lastRootAlike member alike] at recorded
      simpa [Recorded,inside] using recorded
    refine ⟨fun both => ?_,fun outside => known.unique ⟨node,found,outside⟩⟩
    cases value : analysis point root.symbol with
    | none =>
      rw [value] at known
      exact absurd inside (Nat.not_lt.mpr known)
    | some value' =>
      rw [value] at known
      cases value' with
      | unreachable =>
        obtain ⟨other,here,outside⟩ := known
        cases here.symm.trans found
        exact absurd both outside
      | reachable state => exact ⟨state,rfl,known.2⟩

end

def enteredFlow : ProgramFlow :=
  ((((ProgramFlow.new.addNode ⟨.primary,⟨0⟩,.pass⟩).addNode ⟨.entry,⟨0⟩,.entry⟩).addEdge ⟨0,1,.sequential⟩ (by decide)).addRoot 0).addRoot 1

/-- A path alone would make the entry unassigned, but the entry holds its assigned state. -/
theorem enteredHolds : ¬∀ (flow : ProgramFlow) (root : AssignmentRoot) (fuel : Nat) (analysis : AssignmentAnalysis), budget flow ≤ fuel →
    analyzeDefiniteAssignment fuel flow [root] = some analysis → ∀ point node, Inside flow root point node →
      (analysis point root.symbol = some (.reachable .unassigned) ↔ PathTo flow root (Assigns root) point) := by
  intro all
  have result : (analyzeDefiniteAssignment 8 enteredFlow [⟨⟨0⟩,⟨0⟩,.assigned⟩]).map (fun analysis => analysis 1 ⟨0⟩) =
      some (some (.reachable .assigned)) := by decide
  obtain ⟨analysis,done,value⟩ := Option.map_eq_some_iff.mp result
  have first : Reached enteredFlow 0 := ⟨0,by decide,.refl⟩
  have steps : Steps enteredFlow 0 1 := ⟨⟨0,1,.sequential⟩,List.mem_singleton_self _,rfl,rfl⟩
  have start : Inside enteredFlow ⟨⟨0⟩,⟨0⟩,.assigned⟩ 0 ⟨.primary,⟨0⟩,.pass⟩ := ⟨rfl,first,rfl⟩
  have inside : Inside enteredFlow ⟨⟨0⟩,⟨0⟩,.assigned⟩ 1 ⟨.entry,⟨0⟩,.entry⟩ := ⟨rfl,first.step steps,rfl⟩
  have begins : Begins enteredFlow ⟨⟨0⟩,⟨0⟩,.assigned⟩ 0 ⟨.primary,⟨0⟩,.pass⟩ := by
    refine .inr ⟨rfl,fun a transfers => ?_⟩
    obtain ⟨edge,member,_,_,_,arrives,_⟩ := transfers
    cases List.mem_singleton.mp member
    cases arrives
  have path : PathTo enteredFlow ⟨⟨0⟩,⟨0⟩,.assigned⟩ (Assigns ⟨⟨0⟩,⟨0⟩,.assigned⟩) 1 :=
    .step (.begin start begins Bool.false_ne_true) ⟨⟨0,1,.sequential⟩,List.mem_singleton_self _,_,_,rfl,rfl,start,inside,rfl⟩ inside Bool.false_ne_true
  have unassigned := (all enteredFlow _ 8 analysis (by decide) done 1 _ inside).mpr path
  rw [value] at unassigned
  cases unassigned

end Bamts.Checker
