import Mathlib.Data.List.Chain
import Mathlib.Data.List.Nodup

/-! Paths of a graph that pass no node twice, found one step at a time. -/
set_option linter.all false
namespace Bamts.SimplePath
variable {ν : Type} (next : ν → ν → Prop)

/-- From `node` along `rest`, past no node twice and past none that is barred. -/
structure Path (barred : List ν) (node : ν) (rest : List ν) : Prop where
  chain : (node :: rest).IsChain next
  distinct : (node :: rest).Nodup
  free : ∀ x ∈ node :: rest, x ∉ barred

def Reaches (final : ν → Prop) (barred : List ν) (node : ν) : Prop :=
  ∃ rest, Path next barred node rest ∧ final (rest.getLastD node)

/-- A path with one more step, back onto itself or to a barred node. -/
def Returns (barred : List ν) (node : ν) : Prop :=
  ∃ rest target, Path next barred node rest ∧ next (rest.getLastD node) target ∧ (target ∈ node :: rest ∨ target ∈ barred)

variable {next} {barred : List ν} {node : ν}

theorem pathNil : Path next barred node [] ↔ node ∉ barred := by
  constructor
  · intro path
    exact path.free node List.mem_cons_self
  · intro free
    exact ⟨List.isChain_singleton _,List.nodup_singleton _,by simpa using free⟩

theorem pathCons {y rest} :
    Path next barred node (y :: rest) ↔ node ∉ barred ∧ next node y ∧ Path next (node :: barred) y rest := by
  constructor
  · intro path
    obtain ⟨step,chain⟩ := List.isChain_cons_cons.mp path.chain
    obtain ⟨fresh,distinct⟩ := List.nodup_cons.mp path.distinct
    refine ⟨path.free node List.mem_cons_self,step,chain,distinct,?_⟩
    intro x member among
    rcases List.mem_cons.mp among with rfl | old
    · exact fresh member
    · exact path.free x (List.mem_cons_of_mem _ member) old
  · intro h
    obtain ⟨free,step,path⟩ := h
    refine ⟨List.isChain_cons_cons.mpr ⟨step,path.chain⟩,List.nodup_cons.mpr ⟨?_,path.distinct⟩,?_⟩
    · intro member
      exact path.free node member List.mem_cons_self
    · intro x member
      rcases List.mem_cons.mp member with rfl | later
      · exact free
      · exact fun old => path.free x later (List.mem_cons_of_mem _ old)

theorem reachesStep {final} : Reaches next final barred node ↔
    node ∉ barred ∧ (final node ∨ ∃ y, next node y ∧ Reaches next final (node :: barred) y) := by
  constructor
  · intro h
    obtain ⟨rest,path,ends⟩ := h
    cases rest with
    | nil => exact ⟨pathNil.mp path,.inl ends⟩
    | cons y rest =>
      obtain ⟨free,step,path⟩ := pathCons.mp path
      rw [List.getLastD_cons] at ends
      exact ⟨free,.inr ⟨y,step,rest,path,ends⟩⟩
  · intro h
    obtain ⟨free,ends⟩ := h
    rcases ends with here | later
    · exact ⟨[],pathNil.mpr free,here⟩
    · obtain ⟨y,step,rest,path,ends⟩ := later
      rw [← List.getLastD_cons (a := node)] at ends
      exact ⟨y :: rest,pathCons.mpr ⟨free,step,path⟩,ends⟩

theorem returnsStep : Returns next barred node ↔
    node ∉ barred ∧ ∃ y, next node y ∧ (y ∈ node :: barred ∨ Returns next (node :: barred) y) := by
  constructor
  · intro h
    obtain ⟨rest,target,path,step,back⟩ := h
    cases rest with
    | nil =>
      refine ⟨pathNil.mp path,target,step,.inl ?_⟩
      rcases back with here | old
      · exact List.mem_singleton.mp here ▸ List.mem_cons_self
      · exact List.mem_cons_of_mem _ old
    | cons y rest =>
      obtain ⟨free,first,path⟩ := pathCons.mp path
      rw [List.getLastD_cons] at step
      refine ⟨free,y,first,.inr ⟨rest,target,path,step,?_⟩⟩
      rcases back with here | old
      · rcases List.mem_cons.mp here with rfl | later
        · exact .inr List.mem_cons_self
        · exact .inl later
      · exact .inr (List.mem_cons_of_mem _ old)
  · intro h
    obtain ⟨free,y,step,back⟩ := h
    rcases back with here | later
    · refine ⟨[],y,pathNil.mpr free,step,?_⟩
      rcases List.mem_cons.mp here with rfl | old
      · exact .inl List.mem_cons_self
      · exact .inr old
    · obtain ⟨rest,target,path,last,back⟩ := later
      rw [← List.getLastD_cons (a := node)] at last
      refine ⟨y :: rest,target,pathCons.mpr ⟨free,step,path⟩,last,?_⟩
      rcases back with here | old
      · exact .inl (List.mem_cons_of_mem _ here)
      · rcases List.mem_cons.mp old with rfl | old
        · exact .inl List.mem_cons_self
        · exact .inr old

/-- The nodes a path may still pass. -/
def remaining [DecidableEq ν] (nodes barred : List ν) : Nat := (nodes.filter (· ∉ barred)).length

theorem remainingDrops [DecidableEq ν] {nodes} (inside : node ∈ nodes) (free : node ∉ barred) :
    remaining nodes (node :: barred) < remaining nodes barred := by
  have fewer : nodes.filter (· ∉ node :: barred) = (nodes.filter (· ∉ barred)).filter (· ≠ node) := by
    simp [not_or]
  rw [remaining,fewer]
  exact List.length_filter_lt_length_iff_exists.mpr ⟨node,List.mem_filter.mpr ⟨inside,by simpa using free⟩,by simp⟩

end Bamts.SimplePath
