import Mathlib.Data.List.Nodup
import Mathlib.Data.List.Perm.Subperm
import Mathlib.Logic.Function.Basic
import Mathlib.Logic.Relation
import Mathlib.Algebra.Order.BigOperators.Group.List
import Mathlib.Algebra.Order.Ring.Nat

/-! Two loops over a finite graph: the search for everything that can be reached, and the queue that recomputes a value per
node until no value changes. Both are given fuel, and both come to an end with a bound that the graph fixes. -/
set_option linter.all false
namespace Bamts.Worklist

variable {Node : Type*} [DecidableEq Node]

def visit (queue : List Node) (seen : Node → Bool) : List Node → List Node × (Node → Bool)
  | [] => (queue,seen)
  | node :: rest => if seen node then visit queue seen rest else visit (queue ++ [node]) (Function.update seen node true) rest

def explore (next : Node → List Node) : Nat → List Node → (Node → Bool) → Option (Node → Bool)
  | _,[],seen => some seen
  | 0,_ :: _,_ => none
  | fuel+1,node :: queue,seen => explore next fuel (visit queue seen (next node)).1 (visit queue seen (next node)).2

section
variable {next : Node → List Node} {universe_ : List Node} {starts : Set Node}

def unseen (universe_ : List Node) (seen : Node → Bool) : Nat := (universe_.filter fun node => !seen node).length

theorem unseenUpdate (distinct : universe_.Nodup) {seen node} (inside : node ∈ universe_) (new : seen node = false) :
    unseen universe_ (Function.update seen node true)+1 = unseen universe_ seen := by
  unfold unseen
  induction universe_ with
  | nil => cases inside
  | cons head tail ih =>
    obtain ⟨away,distinct⟩ := List.nodup_cons.mp distinct
    by_cases same : head = node
    · subst same
      have tailSame : tail.filter (fun x => !Function.update seen head true x) = tail.filter fun x => !seen x :=
        by
        refine List.filter_congr fun x member => ?_
        have other : x ≠ head := fun equal => away (equal ▸ member)
        rw [Function.update_of_ne other]
      rw [List.filter_cons_of_neg (by simp),List.filter_cons_of_pos (by simp [new]),tailSame,List.length_cons]
    · have known := ih distinct ((List.mem_cons.mp inside).resolve_left fun equal => same equal.symm)
      have kept : Function.update seen node true head = seen head := Function.update_of_ne same _ _
      cases found : seen head with
      | true => simpa [List.filter_cons,kept,found] using known
      | false =>
        rw [List.filter_cons_of_pos (by simp [kept,found]),List.filter_cons_of_pos (by simp [found]),List.length_cons,List.length_cons]
        omega

-- What is seen is reached, and what is seen but not queued has had its successors seen.
structure Explored (next : Node → List Node) (universe_ : List Node) (starts : Set Node) (queue : List Node) (seen : Node → Bool) : Prop where
  sound : ∀ node, seen node = true → ∃ start ∈ starts, Relation.ReflTransGen (fun a b => b ∈ next a) start node
  begun : ∀ start ∈ starts, seen start = true
  queued : ∀ node ∈ queue, seen node = true
  closed : ∀ node, seen node = true → node ∉ queue → ∀ after ∈ next node, seen after = true
  inside : ∀ node, seen node = true → node ∈ universe_

structure Visited (universe_ : List Node) (queue : List Node) (seen : Node → Bool) (nodes : List Node) (queue' : List Node) (seen' : Node → Bool) : Prop where
  reached : ∀ node, seen' node = true ↔ seen node = true ∨ node ∈ nodes
  waiting : ∀ node, node ∈ queue' ↔ node ∈ queue ∨ seen node = false ∧ node ∈ nodes
  measure : queue'.length+unseen universe_ seen' = queue.length+unseen universe_ seen

theorem visitSpec (distinct : universe_.Nodup) {nodes} (inside : ∀ node ∈ nodes, node ∈ universe_) (queue seen) :
    Visited universe_ queue seen nodes (visit queue seen nodes).1 (visit queue seen nodes).2 := by
  induction nodes generalizing queue seen with
  | nil => exact ⟨by simp [visit],by simp [visit],rfl⟩
  | cons head tail ih =>
    have inner : ∀ node ∈ tail, node ∈ universe_ := fun node member => inside node (List.mem_cons_of_mem _ member)
    unfold visit
    split
    · rename_i old
      obtain ⟨seen',queue',measure⟩ := ih inner queue seen
      refine ⟨fun node => ?_,fun node => ?_,measure⟩
      · rw [seen' node,List.mem_cons]
        by_cases same : node = head
        · simp [same,old]
        · simp [same]
      · rw [queue' node,List.mem_cons]
        by_cases same : node = head
        · simp [same,old]
        · simp [same]
    · rename_i new
      have new : seen head = false := by simpa using new
      obtain ⟨seen',queue',measure⟩ := ih inner (queue ++ [head]) (Function.update seen head true)
      refine ⟨fun node => ?_,fun node => ?_,?_⟩
      · rw [seen' node,List.mem_cons]
        by_cases same : node = head
        · simp [same]
        · simp [same]
      · rw [queue' node,List.mem_cons,List.mem_append,List.mem_singleton]
        by_cases same : node = head
        · simp [same,new]
        · simp [same]
      · have fewer := unseenUpdate distinct (inside head List.mem_cons_self) new
        rw [measure,List.length_append,List.length_singleton]
        omega

theorem exploreSpec (distinct : universe_.Nodup) (bounded : ∀ node ∈ universe_, ∀ after ∈ next node, after ∈ universe_) {fuel queue seen} (enough : queue.length+unseen universe_ seen ≤ fuel) (explored : Explored next universe_ starts queue seen) :
    ∃ all, explore next fuel queue seen = some all ∧ ∀ node, all node = true ↔ ∃ start ∈ starts, Relation.ReflTransGen (fun a b => b ∈ next a) start node := by
  induction fuel generalizing queue seen with
  | zero =>
    cases queue with
    | cons node queue => simp at enough
    | nil =>
      refine ⟨seen,rfl,fun node => ⟨explored.sound node,fun reached => ?_⟩⟩
      obtain ⟨start,begins,path⟩ := reached
      induction path with
      | refl => exact explored.begun start begins
      | tail _ edge ih => exact explored.closed _ ih List.not_mem_nil _ edge
  | succ fuel ih =>
    cases queue with
    | nil =>
      refine ⟨seen,rfl,fun node => ⟨explored.sound node,fun reached => ?_⟩⟩
      obtain ⟨start,begins,path⟩ := reached
      induction path with
      | refl => exact explored.begun start begins
      | tail _ edge ih => exact explored.closed _ ih List.not_mem_nil _ edge
    | cons node queue =>
      have here := explored.queued node List.mem_cons_self
      have known := bounded node (explored.inside node here)
      obtain ⟨seen',queue',measure⟩ := visitSpec distinct known queue seen
      refine ih ?_ ⟨fun x found => ?_,fun start begins => (seen' start).mpr (.inl (explored.begun start begins)),fun x member => ?_,
        fun x found away y edge => ?_,fun x found => ?_⟩
      · rw [measure]
        rw [List.length_cons] at enough
        omega
      · rcases (seen' x).mp found with old | new
        · exact explored.sound x old
        · obtain ⟨start,begins,path⟩ := explored.sound node here
          exact ⟨start,begins,path.tail new⟩
      · rcases (queue' x).mp member with old | new
        · exact (seen' x).mpr (.inl (explored.queued x (List.mem_cons_of_mem _ old)))
        · exact (seen' x).mpr (.inr new.2)
      · rw [queue' x,not_or] at away
        rcases Bool.eq_false_or_eq_true (seen x) with old | new
        · by_cases same : x = node
          · subst same
            exact (seen' y).mpr (.inr edge)
          · exact (seen' y).mpr (.inl (explored.closed x old (fun member => (List.mem_cons.mp member).elim same away.1) y edge))
        · rcases (seen' x).mp found with old | among
          · rw [old] at new
            cases new
          · exact absurd ⟨new,among⟩ away.2
      · rcases (seen' x).mp found with old | new
        · exact explored.inside x old
        · exact known x new

end

def enqueue (queue : List Node) : List Node → List Node
  | [] => queue
  | node :: rest => enqueue (if node ∈ queue then queue else queue ++ [node]) rest

section
variable {Value : Type*} {universe_ : List Node}

def potential (rank : Value → Nat) (universe_ : List Node) (state : Node → Value) : Nat := (universe_.map fun node => rank (state node)).sum

theorem potentialDrops {rank : Value → Nat} {state node new} (inside : node ∈ universe_)
    (lower : rank new < rank (state node)) : potential rank universe_ (Function.update state node new) < potential rank universe_ state := by
  refine List.sum_lt_sum _ _ (fun x _ => ?_) ⟨node,inside,by rw [Function.update_self]; exact lower⟩
  by_cases same : x = node
  · subst same
    rw [Function.update_self]
    exact lower.le
  · rw [Function.update_of_ne same]

variable [DecidableEq Value]

def solve (value : (Node → Value) → Node → Value) (dependents : Node → List Node) : Nat → List Node → (Node → Value) → Option (Node → Value)
  | _,[],state => some state
  | 0,_ :: _,_ => none
  | fuel+1,node :: queue,state =>
    if value state node = state node then solve value dependents fuel queue state
    else solve value dependents fuel (enqueue queue (dependents node)) (Function.update state node (value state node))

theorem enqueueMember (queue nodes : List Node) (x) : x ∈ enqueue queue nodes ↔ x ∈ queue ∨ x ∈ nodes := by
  induction nodes generalizing queue with
  | nil => simp [enqueue]
  | cons head tail ih =>
    unfold enqueue
    rw [ih,List.mem_cons]
    split
    · rename_i old
      by_cases same : x = head
      · simp [same,old]
      · simp [same]
    · rw [List.mem_append,List.mem_singleton,or_assoc]

theorem enqueueNodup {queue : List Node} (distinct : queue.Nodup) (nodes) : (enqueue queue nodes).Nodup := by
  induction nodes generalizing queue with
  | nil => exact distinct
  | cons head tail ih =>
    unfold enqueue
    split
    · exact ih distinct
    · rename_i new
      exact ih (distinct.append (List.nodup_singleton head) (List.disjoint_singleton.mpr new))

/-- The queue comes to an end when each change lowers a rank, and every node keeps its value then. -/
theorem solveSpec (value dependents universe_ rank) (good : (Node → Value) → Prop)
    (bounded : ∀ node ∈ universe_, ∀ after ∈ dependents node, after ∈ universe_)
    (local_ : ∀ (state : Node → Value) (node : Node) (new : Value), ∀ x ∉ dependents node, value (Function.update state node new) x = value state x ∨ x ∉ universe_)
    (lowers : ∀ state, good state → ∀ node ∈ universe_, value state node ≠ state node →
      good (Function.update state node (value state node)) ∧ rank (value state node) < rank (state node))
    {fuel queue state} (enough : queue.length+potential rank universe_ state*(universe_.length+1) ≤ fuel)
    (distinct : queue.Nodup) (queued : ∀ node ∈ queue, node ∈ universe_) (ok : good state)
    (settled : ∀ node ∈ universe_, node ∉ queue → value state node = state node) :
    ∃ final, solve value dependents fuel queue state = some final ∧ good final ∧ ∀ node ∈ universe_, value final node = final node := by
  induction fuel generalizing queue state with
  | zero =>
    cases queue with
    | nil => exact ⟨state,rfl,ok,fun node inside => settled node inside List.not_mem_nil⟩
    | cons node queue => simp at enough
  | succ fuel ih =>
    cases queue with
    | nil => exact ⟨state,rfl,ok,fun node inside => settled node inside List.not_mem_nil⟩
    | cons node queue =>
      obtain ⟨away,distinct⟩ := List.nodup_cons.mp distinct
      have inside := queued node List.mem_cons_self
      have others : ∀ x ∈ queue, x ∈ universe_ := fun x member => queued x (List.mem_cons_of_mem _ member)
      unfold solve
      split
      · rename_i same
        refine ih ?_ distinct others ok fun x member apart => ?_
        · rw [List.length_cons] at enough
          omega
        · by_cases equal : x = node
          · rw [equal]
            exact same
          · exact settled x member fun back => (List.mem_cons.mp back).elim equal apart
      · rename_i changed
        obtain ⟨ok,lower⟩ := lowers state ok node inside changed
        have members : ∀ x ∈ enqueue queue (dependents node), x ∈ universe_ := fun x member =>
          ((enqueueMember queue _ x).mp member).elim (others x) (bounded node inside x)
        refine ih ?_ (enqueueNodup distinct _) members ok fun x member apart => ?_
        · have drops : potential rank universe_ (Function.update state node (value state node)) < potential rank universe_ state := potentialDrops inside lower
          have short : (enqueue queue (dependents node)).length ≤ universe_.length := ((enqueueNodup distinct _).subperm members).length_le
          have room := Nat.mul_le_mul_right (universe_.length+1) (Nat.succ_le_of_lt drops)
          rw [Nat.succ_mul] at room
          omega
        · rw [enqueueMember,not_or] at apart
          have kept : value (Function.update state node (value state node)) x = value state x :=
            (local_ state node _ x apart.2).resolve_right fun outside => outside member
          by_cases equal : x = node
          · subst equal
            rw [kept,Function.update_self]
          · rw [kept,Function.update_of_ne equal]
            exact settled x member fun back => (List.mem_cons.mp back).elim equal apart.1

end

end Bamts.Worklist
