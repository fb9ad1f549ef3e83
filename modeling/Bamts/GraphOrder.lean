import Mathlib.Logic.Relation
import Mathlib.Order.Lattice
import Mathlib.Data.List.Basic
import Mathlib.Data.List.Nodup

/-! Orders of the nodes of a directed graph: every node after its successors, and the one that always takes
the least node it can. -/
set_option linter.all false
namespace Bamts.GraphOrder

variable {α : Type} (next : α → α → Prop)

inductive Finished : List α → Prop where
  | nil : Finished []
  | cons {x : α} {rest : List α} (closed : ∀ y, next x y → y ∈ rest) (older : Finished rest) : Finished (x :: rest)

structure Cycle (sequence : List α) : Prop where
  steps : 2 ≤ sequence.length
  returns : sequence.head? = sequence.getLast?
  chain : sequence.IsChain next

-- A node that is still to be taken and whose successors have all been taken.
structure Available (nodes taken : List α) (x : α) : Prop where
  node : x ∈ nodes
  open_ : x ∉ taken
  closed : ∀ y, next x y → y ∈ taken

variable {next}

theorem Finished.closed {done} (finished : Finished next done) {x y} (member : x ∈ done) (path : Relation.ReflTransGen next x y) : y ∈ done := by
  induction path with
  | refl => exact member
  | tail _ step ih =>
    clear member
    induction finished with
    | nil => cases ih
    | cons closed _ older =>
      rcases List.mem_cons.mp ih with rfl | later
      · exact List.mem_cons_of_mem _ (closed _ step)
      · exact List.mem_cons_of_mem _ (older later)

theorem Finished.noReturn {done} (finished : Finished next done) {x} (member : x ∈ done) : ¬Relation.TransGen next x x := by
  induction finished with
  | nil => cases member
  | cons closed older ih =>
    rcases List.mem_cons.mp member with rfl | later
    · intro round
      obtain ⟨y,step,back⟩ := Relation.TransGen.head'_iff.mp round
      exact ih (older.closed (closed y step) back) round
    · exact ih later

theorem Finished.first {done} (finished : Finished next done) (inside : α → Prop) {x} (member : x ∈ done) (outside : ¬inside x) :
    ∃ y ∈ done, ¬inside y ∧ ∀ z, next y z → inside z := by
  induction finished generalizing x with
  | nil => cases member
  | @cons first rest closed older ih =>
    by_cases some_ : ∃ y ∈ rest, ¬inside y
    · obtain ⟨y,later,out⟩ := some_
      obtain ⟨z,there,rest_⟩ := ih later out
      exact ⟨z,List.mem_cons_of_mem _ there,rest_⟩
    · have all : ∀ y ∈ rest, inside y := fun y later => Classical.not_not.mp fun out => some_ ⟨y,later,out⟩
      rcases List.mem_cons.mp member with rfl | later
      · exact ⟨x,List.mem_cons_self,outside,fun z step => all z (closed z step)⟩
      · exact absurd (all x later) outside

theorem chainReaches {x y rest} (chain : (x :: rest).IsChain next) (last : (x :: rest).getLast? = some y) :
    Relation.ReflTransGen next x y := by
  induction rest generalizing x with
  | nil =>
    cases last
    exact .refl
  | cons z rest ih =>
    obtain ⟨step,chain⟩ := List.isChain_cons_cons.mp chain
    exact .head step (ih chain last)

theorem Cycle.returnsTo {sequence} (cycle : Cycle next sequence) : ∃ x, sequence.head? = some x ∧ Relation.TransGen next x x := by
  obtain ⟨steps,returns,chain⟩ := cycle
  match sequence, steps with
  | x :: y :: rest, _ =>
    obtain ⟨step,chain⟩ := List.isChain_cons_cons.mp chain
    exact ⟨x,rfl,.head' step (chainReaches chain returns.symm)⟩

/-- Once every node that leads anywhere is finished, there is no cycle. -/
theorem Finished.noCycle {done sequence} (finished : Finished next done) (covers : ∀ x y, next x y → x ∈ done) :
    ¬Cycle next sequence := by
  intro cycle
  obtain ⟨x,_,round⟩ := cycle.returnsTo
  obtain ⟨y,step,_⟩ := Relation.TransGen.head'_iff.mp round
  exact finished.noReturn (covers x y step) round

section
variable [LinearOrder α]

def LeastFirst (next : α → α → Prop) (nodes order : List α) : Prop :=
  ∀ k x, order[k]? = some x → Available next nodes (order.take k) x ∧ ∀ y, Available next nodes (order.take k) y → x ≤ y

theorem LeastFirst.snoc {nodes order x} (least : LeastFirst next nodes order) (free : Available next nodes order x)
    (first : ∀ y, Available next nodes order y → x ≤ y) : LeastFirst next nodes (order ++ [x]) := by
  intro k y found
  rw [List.getElem?_append] at found
  split at found
  · rename_i inside
    rw [List.take_append_of_le_length (Nat.le_of_lt inside)]
    exact least k y found
  · rename_i outside
    have last : k = order.length := by
      have := (List.getElem?_eq_some_iff.mp found).1
      rw [List.length_singleton] at this
      omega
    subst last
    rw [Nat.sub_self] at found
    cases found
    rw [List.take_left]
    exact ⟨free,first⟩

theorem LeastFirst.nodup {nodes order} (least : LeastFirst next nodes order) : order.Nodup := by
  rw [List.nodup_iff_pairwise_ne,List.pairwise_iff_getElem]
  intro i j insideI insideJ before same
  refine (least j order[j] (List.getElem?_eq_getElem insideJ)).1.open_ ?_
  rw [← same,List.mem_take_iff_getElem]
  exact ⟨i,by omega,rfl⟩

theorem LeastFirst.inside {nodes order} (least : LeastFirst next nodes order) {x} (member : x ∈ order) : x ∈ nodes := by
  obtain ⟨k,found⟩ := List.mem_iff_getElem?.mp member
  exact (least k x found).1.node

theorem LeastFirst.earlier {nodes order} (least : LeastFirst next nodes order) {k : Nat} {x y} (found : order[k]? = some x)
    (step : next x y) : ∃ j, j < k ∧ order[j]? = some y := by
  obtain ⟨j,inside,same⟩ := List.mem_take_iff_getElem.mp ((least k x found).1.closed y step)
  have bound : j < order.length := by omega
  exact ⟨j,by omega,by rw [List.getElem?_eq_getElem bound,same]⟩

/-- There is one such order of all nodes. -/
theorem LeastFirst.unique {nodes order other} (least : LeastFirst next nodes order) (least' : LeastFirst next nodes other)
    (all : ∀ x ∈ nodes, x ∈ order) (all' : ∀ x ∈ nodes, x ∈ other) : order = other := by
  have step : ∀ {order other : List α}, LeastFirst next nodes order → LeastFirst next nodes other → (∀ x ∈ nodes, x ∈ other) →
      ∀ {k : Nat} {x : α}, order.take k = other.take k → order[k]? = some x → other[k]? = some x := by
    intro order other least least' all' k x same found
    obtain ⟨free,first⟩ := least k x found
    cases here : other[k]? with
    | none =>
      have short : other.length ≤ k := List.getElem?_eq_none_iff.mp here
      rw [same,List.take_of_length_le short] at free
      exact absurd (all' x free.node) free.open_
    | some y =>
      obtain ⟨free',first'⟩ := least' k y here
      rw [same] at free first
      exact congrArg some (le_antisymm (first' x free) (first y free'))
  have prefixes : ∀ k, order.take k = other.take k := by
    intro k
    induction k with
    | zero => rfl
    | succ k ih =>
      rw [List.take_add_one,List.take_add_one,ih]
      congr 2
      cases here : order[k]? with
      | some x => exact (step least least' all' ih here).symm
      | none =>
        cases there : other[k]? with
        | none => rfl
        | some y =>
          rw [step least' least all ih.symm there] at here
          cases here
  have whole := prefixes (order.length+other.length)
  rwa [List.take_of_length_le (Nat.le_add_right _ _),List.take_of_length_le (Nat.le_add_left _ _)] at whole

end

end Bamts.GraphOrder
