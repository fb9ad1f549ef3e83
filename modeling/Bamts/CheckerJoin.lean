import Bamts.CheckerFacts
import Bamts.Outcome

/-! Joining frames: every key that a branch refined is unioned over the branches, and a union that is the type of the parent is
not recorded. What the join then says of a key is compared with what each branch says. -/
set_option linter.all false
namespace Bamts.Checker
open TypeTable (Sound Kept Later Names Single absorbingKinds absorbingListed unionNames unionAbsorbs)

section
variable (full : TypeTable) (leaf : TypeId → String → Option TypeId)

end

namespace FlowFacts

def deltaFrom (facts : FlowFacts) (ancestor : FlowNodeId) : List FlowNodeId → Facts → Facts
  | [],_ => ∅
  | id :: rest,found => if id = ancestor then found else facts.deltaFrom ancestor rest (found ∪ facts.frameFacts id)

def deltaFacts (facts : FlowFacts) (ancestor descendant : FlowNodeId) : Facts := facts.deltaFrom ancestor (facts.chain descendant) ∅

def candidates (facts : FlowFacts) (parent : FlowNodeId) (branches : List FlowNodeId) : List FlowKey :=
  branches.foldl (fun found branch => (facts.deltaFacts parent branch).keys.foldl TypeTable.pushNew found) []

section
variable (property : TypeId → String → Option TypeId) (facts : FlowFacts) (parent : FlowNodeId) (branches : List FlowNodeId)

def armsAt (key : FlowKey) : List TypeId :=
  branches.filterMap fun branch => (facts.typeAt property branch key).or (facts.typeAt property parent key)

def joinKey (state : TypeTable × Facts) (key : FlowKey) : TypeTable × Facts :=
  let base := facts.typeAt property parent key
  let arms := facts.armsAt property parent branches key
  if arms = [] then state
  else
    let (table,union) := state.1.union arms
    if some union = base then (table,state.2) else (table,state.2.insert key union)

def join (table : TypeTable) (inside : parent < facts.frames.length) : TypeTable × FlowFacts × FlowNodeId :=
  match branches with
  | [] => (table,facts,parent)
  | [single] => (table,facts,single)
  | _ =>
    let (table,joined) := (facts.candidates parent branches).foldl (joinKey property facts parent branches) (table,∅)
    (table,facts.pushFrame parent inside joined)

end

end FlowFacts

def Covered (table : TypeTable) (a b : TypeId) : Prop := table.get b = .any ∨ table.get b = .unknown ∨ ∀ part ∈ table.parts a, part ∈ table.parts b

section
variable {table later full : TypeTable} {leaf : TypeId → String → Option TypeId} {a b : TypeId} {arms : List TypeId} {name : String}

theorem Covered.refl (table a) : Covered table a a := Or.inr (Or.inr fun _ inside => inside)

theorem Covered.kept (kept : Kept table later) (valid : table.Valid a) (valid' : table.Valid b) : Covered later a b ↔ Covered table a b := by
  unfold Covered
  rw [kept.get valid',kept.parts valid,kept.parts valid']

end

namespace FlowFacts

section
variable {property : TypeId → String → Option TypeId} {facts : FlowFacts} {flow parent branch : FlowNodeId} {key : FlowKey} {joined : Facts}

theorem chainSplit (descends : parent ∈ facts.chain branch) : ∃ before, facts.chain branch = before ++ facts.chain parent ∧ parent ∉ before := by
  induction branch using Nat.strong_induction_on with
  | _ branch ih =>
    by_cases same : branch = parent
    · exact ⟨[],by rw [same]; rfl,List.not_mem_nil⟩
    rw [chainUnfold] at descends ⊢
    cases found : facts.parentOf branch with
    | none =>
      rw [found] at descends
      exact absurd (List.mem_singleton.mp descends).symm same
    | some above =>
      rw [found] at descends
      obtain here | there := List.mem_cons.mp descends
      · exact absurd here.symm same
      obtain ⟨before,split,away⟩ := ih above (parentEarlier facts branch above found) there
      refine ⟨branch :: before,congrArg (branch :: ·) split,fun listed => ?_⟩
      obtain here | later := List.mem_cons.mp listed
      · exact same here.symm
      · exact away later

theorem memDeltaFrom {before rest} (away : parent ∉ before) (found) :
    key ∈ facts.deltaFrom parent (before ++ parent :: rest) found ↔ key ∈ found ∨ ∃ id ∈ before, key ∈ facts.frameFacts id := by
  induction before generalizing found with
  | nil => simp [deltaFrom]
  | cons head tail ih =>
    rw [List.cons_append,deltaFrom,if_neg fun same : head = parent => away (same ▸ List.mem_cons_self),ih fun listed => away (List.mem_cons_of_mem _ listed),
      AList.mem_union,or_assoc]
    simp

theorem branchSplit (descends : parent ∈ facts.chain branch) : ∃ before, facts.chain branch = before ++ facts.chain parent ∧
    ∀ key, key ∈ facts.deltaFacts parent branch ↔ ∃ id ∈ before, key ∈ facts.frameFacts id := by
  obtain ⟨before,split,away⟩ := chainSplit descends
  refine ⟨before,split,fun key => ?_⟩
  rw [deltaFacts,split,chainUnfold facts parent,memDeltaFrom away]
  simp

theorem typeOfRefined (recorded : facts.Recorded flow key) : ∃ ty, facts.refinedTypeAt flow key = some ty ∧ facts.typeAt property flow key = some ty := by
  have refined : facts.refinedTypeAt flow key ≠ none := fun none_ => refinedNone.mp none_ recorded
  obtain ⟨ty,found⟩ := Option.ne_none_iff_exists'.mp refined
  exact ⟨ty,found,by rw [typeAt,found]⟩

section
variable (inside : parent < facts.frames.length)
include inside

end

end

section
variable {property : TypeId → String → Option TypeId} {facts : FlowFacts} {parent : FlowNodeId} {branches : List FlowNodeId} {key : FlowKey}
variable {table : TypeTable}

def Refined (facts : FlowFacts) (parent : FlowNodeId) (branches : List FlowNodeId) (key : FlowKey) : Prop :=
  ∃ branch ∈ branches, key ∈ facts.deltaFacts parent branch

def Changed (facts : FlowFacts) (property : TypeId → String → Option TypeId) (table : TypeTable) (parent : FlowNodeId) (branches : List FlowNodeId)
    (key : FlowKey) : Prop :=
  facts.Refined parent branches key ∧ facts.typeAt property parent key ≠ some (table.union (facts.armsAt property parent branches key)).2

structure Joined (property : TypeId → String → Option TypeId) (table : TypeTable) (facts : FlowFacts) (parent : FlowNodeId)
    (branches : List FlowNodeId) (state : TypeTable × Facts) (keys : List FlowKey) : Prop where
  sound : Sound state.1
  kept : Kept table state.1
  others : ∀ key, key ∉ keys → state.2.lookup key = none
  made : ∀ key ∈ keys, facts.armsAt property parent branches key ≠ [] → ∃ union, state.1.Valid union ∧
    (∀ arm ∈ facts.armsAt property parent branches key, Covered state.1 arm union) ∧
    (if facts.typeAt property parent key = some (table.union (facts.armsAt property parent branches key)).2
      then state.2.lookup key = none ∧ facts.typeAt property parent key = some union else state.2.lookup key = some union)

section
variable (known : ∀ flow key ty, facts.typeAt property flow key = some ty → table.Valid ty)
include known

end

theorem candidatesFrom (facts : FlowFacts) (parent list found) :
    (∀ key, key ∈ list.foldl (fun found branch => (facts.deltaFacts parent branch).keys.foldl TypeTable.pushNew found) found ↔
      key ∈ found ∨ facts.Refined parent list key) ∧
    (found.Nodup → (list.foldl (fun found branch => (facts.deltaFacts parent branch).keys.foldl TypeTable.pushNew found) found).Nodup) := by
  induction list generalizing found with
  | nil => exact ⟨by simp [Refined],fun distinct => distinct⟩
  | cons head tail ih =>
    obtain ⟨mem,distinct⟩ := TypeTable.pushNewAll (facts.deltaFacts parent head).keys found
    obtain ⟨mem',distinct'⟩ := ih ((facts.deltaFacts parent head).keys.foldl TypeTable.pushNew found)
    refine ⟨fun key => ?_,fun before => distinct' (distinct before)⟩
    rw [List.foldl_cons,mem',mem,or_assoc]
    simp [Refined,AList.mem_keys]

theorem candidatesRefined : (∀ key, key ∈ facts.candidates parent branches ↔ facts.Refined parent branches key) ∧
    (facts.candidates parent branches).Nodup := by
  obtain ⟨mem,distinct⟩ := candidatesFrom facts parent branches []
  exact ⟨fun key => (mem key).trans (by simp),distinct List.nodup_nil⟩

-- What the state before the join must be for a key. A refined key must not fall back to the parent's type while something above it
-- is recorded; a key below a refined one must be read through it, by the branches and where nothing is recorded by the parent.
structure Settled (property : TypeId → String → Option TypeId) (table : TypeTable) (facts : FlowFacts) (parent : FlowNodeId)
    (branches : List FlowNodeId) (key : FlowKey) : Prop where
  here : facts.Refined parent branches key → (∀ branch ∈ branches, facts.typeAt property branch key ≠ none) ∧
    (facts.Changed property table parent branches key ∨ facts.Recorded parent key ∨
      ∀ candidate, Above candidate key → ¬facts.Changed property table parent branches candidate)
  below : ¬facts.Refined parent branches key → ¬facts.Recorded parent key → ∀ candidate, Above candidate key →
    facts.Refined parent branches candidate →
    (∀ other, Above other key → facts.Refined parent branches other → other.path.length ≤ candidate.path.length) →
    (∀ branch ∈ branches, facts.typeAt property branch key ≠ none ∧ ∃ arm, facts.typeAt property branch candidate = some arm ∧
      facts.typeAt property branch key = project property arm (key.path.drop candidate.path.length)) ∧
    (facts.Changed property table parent branches candidate ∨
      (∀ other, Above other key → ¬facts.Changed property table parent branches other) ∧
      facts.typeAt property parent key =
        (facts.typeAt property parent candidate).bind fun base => project property base (key.path.drop candidate.path.length))

theorem Joined.covers {state full} (joined : Joined property table facts parent branches state (facts.candidates parent branches))
    (known : ∀ flow key ty, facts.typeAt property flow key = some ty → table.Valid ty) (kept : Kept state.1 full) {branch}
    (listed : branch ∈ branches) (refined : facts.Refined parent branches key) {arm} (read : facts.typeAt property branch key = some arm) :
    ∃ union, full.Valid arm ∧ full.Valid union ∧ Covered full arm union ∧
      (facts.Changed property table parent branches key ∧ state.2.lookup key = some union ∨
        ¬facts.Changed property table parent branches key ∧ state.2.lookup key = none ∧ facts.typeAt property parent key = some union) := by
  have arms : arm ∈ facts.armsAt property parent branches key := List.mem_filterMap.mpr ⟨branch,listed,by rw [read,Option.some_or]⟩
  obtain ⟨union,there,covers,looked⟩ := joined.made key ((candidatesRefined.1 key).mpr refined) (List.ne_nil_of_mem arms)
  have armThere := joined.kept.valid (known branch key arm read)
  refine ⟨union,kept.valid armThere,kept.valid there,(Covered.kept kept armThere there).mpr (covers arm arms),?_⟩
  split at looked
  · rename_i same
    exact Or.inr ⟨fun changed => changed.2 same,looked⟩
  · rename_i different
    exact Or.inl ⟨⟨refined,different⟩,looked⟩

theorem Joined.changed {state} (joined : Joined property table facts parent branches state (facts.candidates parent branches))
    (known : ∀ flow key ty, facts.typeAt property flow key = some ty → table.Valid ty) (descend : ∀ branch ∈ branches, parent ∈ facts.chain branch)
    (stored : key ∈ state.2) : facts.Changed property table parent branches key := by
  have refined : facts.Refined parent branches key := by
    by_contra away
    exact AList.lookup_eq_none.mp (joined.others key fun listed => away ((candidatesRefined.1 key).mp listed)) stored
  obtain ⟨branch,listed,delta⟩ := refined
  obtain ⟨before,split,within⟩ := branchSplit (descend branch listed)
  obtain ⟨id,there,fact⟩ := (within key).mp delta
  have recorded : facts.Recorded branch key := ⟨id,by rw [split]; exact List.mem_append_left _ there,fact⟩
  obtain ⟨arm,_,read⟩ : ∃ arm, _ ∧ facts.typeAt property branch key = some arm := typeOfRefined recorded
  obtain ⟨_,_,_,_,⟨changed,_⟩ | ⟨_,missing,_⟩⟩ := joined.covers known (Kept.refl _) listed ⟨branch,listed,delta⟩ read
  · exact changed
  · exact absurd stored (AList.lookup_eq_none.mp missing)

section
variable {full : TypeTable} {leaf : TypeId → String → Option TypeId}

end

end

section

def twoForks : FlowFacts := (((new.declare ⟨0⟩ ⟨15⟩).branch 0 (by decide)).1.branch 0 (by decide)).1

def forked (first second : List (FlowKey × TypeId)) : FlowFacts :=
  second.foldl (fun facts fact => facts.refine 2 fact.1 fact.2) (first.foldl (fun facts fact => facts.refine 1 fact.1 fact.2) twoForks)

def root : FlowKey := ⟨⟨0⟩,[]⟩

def member : FlowKey := ⟨⟨0⟩,["p"]⟩

end

end FlowFacts

end Bamts.Checker
