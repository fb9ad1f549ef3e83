import Bamts.CheckerFlow
import Bamts.CheckerTable
import Mathlib.Data.List.AList
import Mathlib.Data.List.Dedup
import Mathlib.Data.List.MinMax

/-! The facts of the narrowing pass: a forest of frames over declared types. A reference is looked up by its own key along the
frames, then through the nearest fact above it, then through the declared type of its root. -/
set_option linter.all false
namespace Bamts.Checker

abbrev FlowNodeId := Nat

abbrev Facts := AList fun _ : FlowKey => TypeId

structure FlowFrame where
  parent : Option FlowNodeId
  facts : Facts

structure FlowFacts where
  declared : SymbolId → Option TypeId
  frames : List FlowFrame
  earlier : ∀ (id : FlowNodeId) frame, frames[id]? = some frame → ∀ parent, frame.parent = some parent → parent < id

namespace FlowFacts

def frameFacts (facts : FlowFacts) (id : FlowNodeId) : Facts := (facts.frames[id]?.map FlowFrame.facts).getD ∅

def parentOf (facts : FlowFacts) (id : FlowNodeId) : Option FlowNodeId := facts.frames[id]?.bind FlowFrame.parent

def chainFrom (parentOf : FlowNodeId → Option FlowNodeId) : Nat → FlowNodeId → List FlowNodeId
  | 0,id => [id]
  | fuel+1,id => id :: ((parentOf id).map (chainFrom parentOf fuel)).getD []

-- A frame and those it forked from, nearest first. Frames fork from earlier ones, so the id is fuel enough.
def chain (facts : FlowFacts) (flow : FlowNodeId) : List FlowNodeId := chainFrom facts.parentOf flow flow

def new : FlowFacts := ⟨fun _ => none,[⟨none,∅⟩],fun id frame found parent is => by
  cases id with
  | zero =>
    rw [← Option.some.inj found] at is
    cases is
  | succ id => simp at found⟩

def declare (facts : FlowFacts) (symbol : SymbolId) (ty : TypeId) : FlowFacts :=
  { facts with declared := Function.update facts.declared symbol (some ty) }

def insertFact (facts : FlowFacts) (flow : FlowNodeId) (key : FlowKey) (ty : TypeId) : FlowFacts :=
  { facts with
    frames := facts.frames.modify flow fun frame => { frame with facts := frame.facts.insert key ty }
    earlier := fun id frame found parent is => by
      rw [List.getElem?_modify] at found
      obtain ⟨before,there,same⟩ := Option.map_eq_some_iff.mp found
      refine facts.earlier id before there parent ?_
      rw [← is,← same]
      split <;> rfl }

def refine (facts : FlowFacts) (flow : FlowNodeId) (key : FlowKey) (ty : TypeId) : FlowFacts := facts.insertFact flow key ty

def pushFrame (facts : FlowFacts) (parent : FlowNodeId) (inside : parent < facts.frames.length) (frameFacts : Facts) : FlowFacts × FlowNodeId :=
  ({ facts with
    frames := facts.frames ++ [⟨some parent,frameFacts⟩]
    earlier := fun id frame found other is => by
      obtain before | after := Nat.lt_or_ge id facts.frames.length
      · rw [List.getElem?_append_left before] at found
        exact facts.earlier id frame found other is
      · rw [List.getElem?_append_right after] at found
        have made := List.mem_singleton.mp (List.mem_of_getElem? found)
        rw [made] at is
        rw [← Option.some.inj is]
        exact lt_of_lt_of_le inside after },facts.frames.length)

def branch (facts : FlowFacts) (flow : FlowNodeId) (inside : flow < facts.frames.length) : FlowFacts × FlowNodeId :=
  facts.pushFrame flow inside ∅

end FlowFacts

section
variable (property : TypeId → String → Option TypeId)

-- `property` is what a type supplies under a name: the views of named types and the members of object types are behind it.
def project (ty : TypeId) (path : List String) : Option TypeId := path.foldlM property ty

end

namespace FlowFacts

section
variable (property : TypeId → String → Option TypeId)

def refinedTypeAt (facts : FlowFacts) (flow : FlowNodeId) (key : FlowKey) : Option TypeId :=
  (facts.chain flow).findSome? fun id => (facts.frameFacts id).lookup key

def Above (candidate key : FlowKey) : Prop :=
  candidate.root = key.root ∧ candidate.path.length < key.path.length ∧ candidate.path <+: key.path

instance (candidate key : FlowKey) : Decidable (Above candidate key) := inferInstanceAs (Decidable (_ ∧ _ ∧ _))

def ancestorIn (frameFacts : Facts) (key : FlowKey) : Option (TypeId × Nat) :=
  ((frameFacts.keys.filter (Above · key)).argmax fun candidate => candidate.path.length).bind fun candidate =>
    (frameFacts.lookup candidate).map fun ty => (ty,candidate.path.length)

def typeAt (facts : FlowFacts) (flow : FlowNodeId) (key : FlowKey) : Option TypeId :=
  match facts.refinedTypeAt flow key with
  | some ty => some ty
  | none =>
    match (facts.chain flow).findSome? fun id => ancestorIn (facts.frameFacts id) key with
    | some (ty,prefixLen) => project property ty (key.path.drop prefixLen)
    | none => (facts.declared key.root).bind fun declared => project property declared key.path

def Related (candidate key : FlowKey) : Prop := candidate.root = key.root ∧ (key.path <+: candidate.path ∨ candidate.path <+: key.path)

instance (candidate key : FlowKey) : Decidable (Related candidate key) := inferInstanceAs (Decidable (_ ∧ (_ ∨ _)))

def affected (facts : FlowFacts) (flow : FlowNodeId) (key : FlowKey) : List FlowKey :=
  ((facts.chain flow).flatMap fun id => (facts.frameFacts id).keys.filter (Related · key)).dedup

def shadow (flow : FlowNodeId) (facts : FlowFacts) (candidate : FlowKey) : FlowFacts :=
  match facts.declared candidate.root with
  | none => facts
  | some declared =>
    match project property declared candidate.path with
    | none => facts
    | some baseline => facts.insertFact flow candidate baseline

def invalidate (facts : FlowFacts) (flow : FlowNodeId) (key : FlowKey) : FlowFacts :=
  (facts.affected flow key).foldl (shadow property flow) facts

def declaredAt (facts : FlowFacts) (key : FlowKey) : Option TypeId :=
  (facts.declared key.root).bind fun declared => project property declared key.path

end

def Recorded (facts : FlowFacts) (flow : FlowNodeId) (key : FlowKey) : Prop := ∃ id ∈ facts.chain flow, key ∈ facts.frameFacts id

section
variable {property : TypeId → String → Option TypeId} {facts : FlowFacts} {flow id : FlowNodeId} {key candidate : FlowKey} {ty : TypeId}

theorem chainFromStable {parentOf : Nat → Option Nat} (earlier : ∀ id parent, parentOf id = some parent → parent < id) {fuel id} (enough : id ≤ fuel) : chainFrom parentOf fuel id = chainFrom parentOf id id := by
  induction fuel using Nat.strong_induction_on generalizing id with
  | _ fuel ih =>
    cases fuel with
    | zero => rw [Nat.le_zero.mp enough]
    | succ fuel =>
      cases id with
      | zero =>
        have none_ : parentOf 0 = none := by
          cases found : parentOf 0 with
          | none => rfl
          | some parent => exact absurd (earlier 0 parent found) (Nat.not_lt_zero _)
        simp [chainFrom,none_]
      | succ id =>
        unfold chainFrom
        cases found : parentOf (id+1) with
        | none => rfl
        | some parent =>
          have before := Nat.le_of_lt_succ (earlier _ parent found)
          simp only [Option.map_some,Option.getD_some]
          rw [ih fuel (Nat.lt_succ_self _) (by omega)]
          obtain same | less := Nat.eq_or_lt_of_le enough
          · rw [show id = fuel by omega]
            rw [ih fuel (Nat.lt_succ_self _) (show parent ≤ fuel by omega)]
          · rw [ih id (by omega) before]

theorem parentEarlier (facts : FlowFacts) (id parent) (found : facts.parentOf id = some parent) : parent < id := by
  obtain ⟨frame,there,is⟩ := Option.bind_eq_some_iff.mp found
  exact facts.earlier id frame there parent is

theorem chainUnfold (facts : FlowFacts) (flow) :
    facts.chain flow = flow :: ((facts.parentOf flow).map facts.chain).getD [] := by
  unfold chain
  cases flow with
  | zero =>
    cases found : facts.parentOf 0 with
    | none => rfl
    | some parent => exact absurd (parentEarlier facts 0 parent found) (Nat.not_lt_zero _)
  | succ flow =>
    rw [chainFrom]
    cases found : facts.parentOf (flow+1) with
    | none => rfl
    | some parent =>
      simp only [Option.map_some,Option.getD_some]
      rw [chainFromStable (parentEarlier facts) (Nat.le_of_lt_succ (parentEarlier facts _ parent found))]

theorem ancestorSome {frameFacts prefixLen} (found : ancestorIn frameFacts key = some (ty,prefixLen)) :
    ∃ candidate, Above candidate key ∧ frameFacts.lookup candidate = some ty ∧ candidate.path.length = prefixLen ∧
      ∀ other, Above other key → other ∈ frameFacts → other.path.length ≤ prefixLen := by
  obtain ⟨candidate,longest,stored⟩ := Option.bind_eq_some_iff.mp found
  obtain ⟨value,looked,same⟩ := Option.map_eq_some_iff.mp stored
  obtain ⟨valueSame,length⟩ := Prod.mk.inj same
  refine ⟨candidate,?_,valueSame ▸ looked,length,fun other above inside => ?_⟩
  · exact of_decide_eq_true (List.mem_filter.mp (List.argmax_mem longest)).2
  · exact length ▸ List.le_of_mem_argmax (f := fun candidate : FlowKey => candidate.path.length) (List.mem_filter.mpr ⟨inside,decide_eq_true above⟩) longest

theorem ancestorNone {frameFacts} : ancestorIn frameFacts key = none ↔ ∀ candidate, Above candidate key → candidate ∉ frameFacts := by
  constructor
  · intro none_ candidate above inside
    have listed : candidate ∈ frameFacts.keys.filter (Above · key) := List.mem_filter.mpr ⟨inside,decide_eq_true above⟩
    cases longest : (frameFacts.keys.filter (Above · key)).argmax fun candidate => candidate.path.length with
    | none => exact absurd (List.argmax_eq_none.mp longest ▸ listed) List.not_mem_nil
    | some best =>
      obtain ⟨value,looked⟩ := Option.isSome_iff_exists.mp (AList.lookup_isSome.mpr (List.mem_filter.mp (List.argmax_mem longest)).1)
      rw [ancestorIn,longest,Option.bind_some,looked] at none_
      cases none_
  · intro nowhere
    have empty : frameFacts.keys.filter (Above · key) = [] :=
      List.filter_eq_nil_iff.mpr fun candidate inside above => nowhere candidate (of_decide_eq_true above) inside
    rw [ancestorIn,empty]
    rfl

theorem projectAppend (property ty before after) :
    project property ty (before ++ after) = (project property ty before).bind fun middle => project property middle after :=
  List.foldlM_append

theorem declaredBelow (above : Above candidate key) : facts.declaredAt property key =
    (facts.declaredAt property candidate).bind fun middle => project property middle (key.path.drop candidate.path.length) := by
  have path : key.path = candidate.path ++ key.path.drop candidate.path.length := by
    conv_lhs => rw [← List.take_append_drop candidate.path.length key.path,← List.prefix_iff_eq_take.mp above.2.2]
  unfold declaredAt
  rw [above.1,Option.bind_assoc]
  refine Option.bind_congr fun declared _ => ?_
  rw [← projectAppend,← path]

theorem aboveRelated {other} (above : Above candidate other) (related : Related other key) : Related candidate key := by
  refine ⟨above.1.trans related.1,?_⟩
  obtain extends_ | within := related.2
  · exact List.prefix_or_prefix_of_prefix extends_ above.2.2
  · exact Or.inr (above.2.2.trans within)

theorem memAffected : candidate ∈ facts.affected flow key ↔ Related candidate key ∧ facts.Recorded flow candidate := by
  unfold affected Recorded
  rw [List.mem_dedup,List.mem_flatMap]
  constructor
  · intro found
    obtain ⟨id,inside,listed⟩ := found
    obtain ⟨stored,related⟩ := List.mem_filter.mp listed
    exact ⟨of_decide_eq_true related,id,inside,stored⟩
  · intro found
    obtain ⟨related,id,inside,stored⟩ := found
    exact ⟨id,inside,List.mem_filter.mpr ⟨stored,decide_eq_true related⟩⟩

-- Shadowing changes one frame, and there only what has a projection from the declared type.
structure Shadowed (property : TypeId → String → Option TypeId) (facts : FlowFacts) (flow : FlowNodeId) (candidates : List FlowKey)
    (after : FlowFacts) : Prop where
  declared : after.declared = facts.declared
  parents : after.parentOf = facts.parentOf
  others : ∀ id, id ≠ flow → after.frameFacts id = facts.frameFacts id
  here : ∀ key, (after.frameFacts flow).lookup key =
    if key ∈ candidates then (facts.declaredAt property key).or ((facts.frameFacts flow).lookup key) else (facts.frameFacts flow).lookup key

theorem insertFactFrame (facts : FlowFacts) {flow : FlowNodeId} (inside : flow < facts.frames.length) (key ty id) :
    (facts.insertFact flow key ty).frameFacts id = if id = flow then (facts.frameFacts flow).insert key ty else facts.frameFacts id := by
  unfold frameFacts insertFact
  rw [List.getElem?_modify]
  split
  · rename_i same
    subst same
    rw [if_pos rfl,List.getElem?_eq_getElem inside]
    rfl
  · rename_i other
    simp [Ne.symm other]

theorem insertFactParents (facts : FlowFacts) (flow key ty) :
    (facts.insertFact flow key ty).parentOf = facts.parentOf := by
  funext id
  unfold parentOf insertFact
  rw [List.getElem?_modify]
  cases facts.frames[id]? with
  | none => rfl
  | some frame =>
    split <;> rfl

theorem shadowStep (inside : flow < facts.frames.length) (candidate) :
    Shadowed property facts flow [candidate] (shadow property flow facts candidate) ∧
      (shadow property flow facts candidate).frames.length = facts.frames.length := by
  have kept : (facts.declaredAt property candidate) = none → Shadowed property facts flow [candidate] facts := fun none_ => by
    refine ⟨rfl,rfl,fun _ _ => rfl,fun key => ?_⟩
    split
    · rename_i listed
      rw [List.mem_singleton.mp listed,none_,Option.none_or]
    · rfl
  unfold shadow
  unfold declaredAt at kept
  cases root : facts.declared candidate.root with
  | none => exact ⟨kept (by rw [root]; rfl),rfl⟩
  | some declared =>
    simp only
    cases projected : project property declared candidate.path with
    | none => exact ⟨kept (by rw [root,Option.bind_some,projected]),rfl⟩
    | some baseline =>
      refine ⟨⟨rfl,insertFactParents facts flow candidate baseline,fun id other => ?_,fun key => ?_⟩,List.length_modify ..⟩
      · rw [insertFactFrame facts inside,if_neg other]
      · rw [insertFactFrame facts inside,if_pos rfl]
        by_cases same : key = candidate
        · rw [same,if_pos (List.mem_singleton_self _),AList.lookup_insert,declaredAt,root,Option.bind_some,projected,Option.some_or]
        · rw [if_neg fun listed => same (List.mem_singleton.mp listed),AList.lookup_insert_ne same]

theorem shadowAll (inside : flow < facts.frames.length) (candidates) :
    Shadowed property facts flow candidates (candidates.foldl (shadow property flow) facts) := by
  induction candidates generalizing facts with
  | nil => exact ⟨rfl,rfl,fun _ _ => rfl,fun _ => by rw [if_neg List.not_mem_nil]; rfl⟩
  | cons head tail ih =>
    have first : Shadowed property facts flow [head] (shadow property flow facts head) ∧ _ := shadowStep inside head
    obtain ⟨step,long⟩ := first
    have rest : Shadowed property (shadow property flow facts head) flow tail _ := ih (by rwa [long])
    refine ⟨rest.declared.trans step.declared,rest.parents.trans step.parents,
      fun id other => (rest.others id other).trans (step.others id other),fun key => ?_⟩
    have same : (shadow property flow facts head).declaredAt property key = facts.declaredAt property key := by
      unfold declaredAt
      rw [step.declared]
    rw [List.foldl_cons,rest.here,same,step.here]
    by_cases later : key ∈ tail
    · rw [if_pos later,if_pos (List.mem_cons_of_mem _ later)]
      split
      · rw [← Option.or_assoc,Option.or_self]
      · rfl
    · rw [if_neg later]
      simp only [List.mem_cons,later,or_false,List.not_mem_nil]

theorem refinedNone : facts.refinedTypeAt flow key = none ↔ ¬facts.Recorded flow key := by
  unfold refinedTypeAt Recorded
  rw [List.findSome?_eq_none_iff]
  simp only [AList.lookup_eq_none,not_exists,not_and]

theorem Shadowed.chain {candidates after} (shadowed : Shadowed property facts flow candidates after) :
    after.chain = facts.chain := by
  unfold FlowFacts.chain
  rw [shadowed.parents]

theorem selfInChain (facts : FlowFacts) (flow) : flow ∈ facts.chain flow := by
  rw [chainUnfold]
  exact List.mem_cons_self

theorem Shadowed.recorded {after} (shadowed : Shadowed property facts flow (facts.affected flow key) after) :
    after.Recorded flow candidate ↔ facts.Recorded flow candidate := by
  unfold Recorded
  rw [shadowed.chain]
  constructor
  · intro found
    obtain ⟨id,inside,stored⟩ := found
    by_cases same : id = flow
    · subst same
      have looked := AList.lookup_isSome.mpr stored
      rw [shadowed.here] at looked
      split at looked
      · rename_i listed
        exact (memAffected.mp listed).2
      · exact ⟨id,inside,AList.lookup_isSome.mp looked⟩
    · exact ⟨id,inside,shadowed.others id same ▸ stored⟩
  · intro found
    obtain ⟨id,inside,stored⟩ := found
    by_cases same : id = flow
    · subst same
      refine ⟨id,inside,AList.lookup_isSome.mp ?_⟩
      rw [shadowed.here]
      split
      · rw [Option.isSome_or,AList.lookup_isSome.mpr stored,Bool.or_true]
      · exact AList.lookup_isSome.mpr stored
    · exact ⟨id,inside,(shadowed.others id same).symm ▸ stored⟩

theorem Shadowed.settled {after} (shadowed : Shadowed property facts flow (facts.affected flow key) after)
    (related : Related candidate key) (recorded : facts.Recorded flow candidate) (projected : facts.declaredAt property candidate ≠ none) :
    (after.frameFacts flow).lookup candidate = facts.declaredAt property candidate := by
  rw [shadowed.here,if_pos (memAffected.mpr ⟨related,recorded⟩)]
  obtain ⟨baseline,found⟩ := Option.ne_none_iff_exists'.mp projected
  rw [found,Option.some_or]

theorem invalidateExact (inside : flow < facts.frames.length) (key : FlowKey) :
    (∀ read, Related read key → (facts.invalidate property flow key).typeAt property flow read = facts.declaredAt property read) ↔
      ∀ candidate, Related candidate key → facts.Recorded flow candidate → facts.declaredAt property candidate ≠ none := by
  have shadowed : Shadowed property facts flow (facts.affected flow key) (facts.invalidate property flow key) :=
    shadowAll inside (facts.affected flow key)
  have declared : ∀ read, (facts.invalidate property flow key).declaredAt property read = facts.declaredAt property read := fun read => by
    unfold declaredAt
    rw [shadowed.declared]
  constructor
  · intro fresh candidate related recorded none_
    have stale := fresh candidate related
    rw [none_] at stale
    have refined : (facts.invalidate property flow key).refinedTypeAt flow candidate ≠ none := fun unrefined =>
      refinedNone.mp unrefined (shadowed.recorded.mpr recorded)
    obtain ⟨ty,found⟩ := Option.ne_none_iff_exists'.mp refined
    rw [typeAt,found] at stale
    cases stale
  · intro projected read related
    by_cases recorded : facts.Recorded flow read
    · have here := shadowed.settled related recorded (projected read related recorded)
      obtain ⟨baseline,found⟩ := Option.ne_none_iff_exists'.mp (projected read related recorded)
      have refined : (facts.invalidate property flow key).refinedTypeAt flow read = some baseline := by
        unfold refinedTypeAt
        rw [chainUnfold,List.findSome?_cons_of_isSome (by rw [here,found]; rfl),here,found]
      rw [typeAt,refined,found]
    have unrefined : (facts.invalidate property flow key).refinedTypeAt flow read = none :=
      refinedNone.mpr fun still => recorded (shadowed.recorded.mp still)
    unfold typeAt
    rw [unrefined]
    simp only
    -- Either some fact above the key was recorded, and then the frame of the write has one, or none was.
    by_cases above : ∃ candidate, Above candidate read ∧ facts.Recorded flow candidate
    · obtain ⟨candidate,above,stored⟩ := above
      have fresh := shadowed.settled (aboveRelated above related) stored (projected candidate (aboveRelated above related) stored)
      have listed : candidate ∈ (facts.invalidate property flow key).frameFacts flow := by
        rw [← AList.lookup_isSome,fresh,Option.isSome_iff_ne_none]
        exact projected candidate (aboveRelated above related) stored
      cases nearest : ancestorIn ((facts.invalidate property flow key).frameFacts flow) read with
      | none => exact absurd listed (ancestorNone.mp nearest candidate above)
      | some entry =>
        obtain ⟨ty,prefixLen⟩ := entry
        obtain ⟨best,above',looked,length,_⟩ := ancestorSome nearest
        have stored' : facts.Recorded flow best := shadowed.recorded.mp ⟨flow,selfInChain _ flow,AList.lookup_isSome.mp (by rw [looked]; rfl)⟩
        have fresh' := shadowed.settled (aboveRelated above' related) stored' (projected best (aboveRelated above' related) stored')
        rw [chainUnfold,List.findSome?_cons_of_isSome (by rw [nearest]; rfl),nearest,declaredBelow above',← fresh',looked,length]
        rfl
    · have nowhere : (((facts.invalidate property flow key).chain flow).findSome? fun id =>
          ancestorIn ((facts.invalidate property flow key).frameFacts id) read) = none := by
        rw [List.findSome?_eq_none_iff]
        refine fun id inside => ancestorNone.mpr fun candidate above' stored => above ⟨candidate,above',?_⟩
        exact shadowed.recorded.mp ⟨id,inside,stored⟩
      rw [nowhere]
      exact declared read

-- `{ kind: "a" }` (id 1) narrows `{ kind: "a" | "b" }` (id 0); the kinds are ids 2 and 3.
def kinds (ty : TypeId) (name : String) : Option TypeId :=
  if name = "kind" then (if ty = ⟨0⟩ then some ⟨3⟩ else if ty = ⟨1⟩ then some ⟨2⟩ else none) else none

def narrowedKind : FlowFacts :=
  ((new.declare ⟨1⟩ ⟨0⟩).refine 0 ⟨⟨1⟩,[]⟩ ⟨1⟩).refine 0 ⟨⟨1⟩,["kind"]⟩ ⟨2⟩

theorem invalidateExactKind : (∀ read, Related read ⟨⟨1⟩,["kind"]⟩ →
    (narrowedKind.invalidate kinds 0 ⟨⟨1⟩,["kind"]⟩).typeAt kinds 0 read = narrowedKind.declaredAt kinds read) ↔
      ∀ candidate, Related candidate ⟨⟨1⟩,["kind"]⟩ → narrowedKind.Recorded 0 candidate → narrowedKind.declaredAt kinds candidate ≠ none :=
  invalidateExact (by decide) ⟨⟨1⟩,["kind"]⟩

-- `{ b: number }` (id 1) narrows `{ a: string } | { b: number }` (id 0), which supplies no `b`; `x.b` is narrowed in turn.
theorem staleKept : ¬∀ (property : TypeId → String → Option TypeId) (facts : FlowFacts) (flow : FlowNodeId) (key : FlowKey),
    flow < facts.frames.length → ∀ read, Related read key →
      (facts.invalidate property flow key).typeAt property flow read = facts.declaredAt property read := by
  intro fresh
  have same := fresh (fun ty name => if ty = ⟨1⟩ ∧ name = "b" then some ⟨2⟩ else none)
    (((new.declare ⟨1⟩ ⟨0⟩).refine 0 ⟨⟨1⟩,[]⟩ ⟨1⟩).refine 0 ⟨⟨1⟩,["b"]⟩ ⟨3⟩) 0 ⟨⟨1⟩,[]⟩ (by decide) ⟨⟨1⟩,["b"]⟩ (by decide)
  exact absurd same (by decide)

end

end FlowFacts

end Bamts.Checker
