import Bamts.CheckerEnvironment

/-! When a comparison leaves its environments as it found them. Aliases and erased parameters are taken off by count; inferred and
known parameters are taken out by name, also those that were there before. -/
set_option linter.all false
namespace Bamts.Checker

section
variable (table : TypeTable) (constraint : SymbolId → Option TypeId)

inductive Answers : Compare → Prop
  | answer (result : Bool) : Answers (.answer result)
  | reads {next : Environment → Compare} (each : ∀ environment, Answers (next environment)) : Answers (.reads next)
  | andThen {first : Compare} {next : Bool → Compare} (head : Answers first) (each : ∀ result, Answers (next result)) : Answers (first.andThen next)
  | signature {bound : TypeId → TypeId → Compare} {compare : Compare} (source target : FunctionSignature) (strictness : Strictness)
      (variance : ParameterVariance) (bounds : ∀ a b, Answers (bound a b)) (inner : Answers compare) :
      Answers (withParameterAliases table constraint bound source target strictness variance compare)

def Fresh : Manner → Environment → Prop
  | .inferred source target,environment =>
    (∀ tp ∈ source.typeParameters ++ target.typeParameters, environment.knownTypeParameters tp = false) ∧
      ∀ entry ∈ inferences table constraint source target, environment.inferredTypeArguments entry.1 = none
  | _,_ => True

structure Exact (compare : Compare) : Prop where
  fresh : ∀ state, (∀ event ∈ (compare state).nested, event.after = event.before) ↔
    ∀ event ∈ (compare state).nested, Fresh table constraint event.manner event.before
  restores : ∀ state, (∀ event ∈ (compare state).nested, event.after = event.before) → (compare state).state.environment = state.environment

end

section
variable {table : TypeTable} {constraint : SymbolId → Option TypeId} {compare first second : Compare} {source target : FunctionSignature}

theorem Exact.answer (result) : Exact table constraint (.answer result) :=
  ⟨fun _ => by simp [Compare.answer],fun _ _ => rfl⟩

theorem Exact.reads {next} (each : ∀ environment, Exact table constraint (next environment)) :
    Exact table constraint (.reads next) :=
  ⟨fun state => (each state.environment).fresh state,fun state => (each state.environment).restores state⟩

theorem Exact.andThen {next} (head : Exact table constraint first) (each : ∀ result, Exact table constraint (next result)) :
    Exact table constraint (first.andThen next) := by
  refine ⟨fun state => ?_,fun state all => ?_⟩
  · simp only [Compare.andThen,List.forall_mem_append]
    exact and_congr (head.fresh state) ((each _).fresh _)
  · simp only [Compare.andThen,List.forall_mem_append] at all
    exact ((each _).restores _ all.2).trans (head.restores state all.1)

theorem Exact.and (head : Exact table constraint first) (tail : Exact table constraint second) : Exact table constraint (first.and second) :=
  head.andThen fun result => by cases result <;> [exact Exact.answer false; exact tail]

theorem Exact.or (head : Exact table constraint first) (tail : Exact table constraint second) : Exact table constraint (first.or second) :=
  head.andThen fun result => by cases result <;> [exact tail; exact Exact.answer true]

theorem Exact.all {list} (each : ∀ compare ∈ list, Exact table constraint compare) : Exact table constraint (.all list) := by
  induction list with
  | nil => exact Exact.answer true
  | cons head tail ih =>
    obtain ⟨first,rest⟩ := List.forall_mem_cons.mp each
    exact first.and (ih rest)

theorem Exact.recorded (enter : Relations → Relations) (leave : Environment → Environment → Environment) (manner)
    (exact_ : Exact table constraint compare)
    (balanced : ∀ state, leave state.environment (enter state).environment = state.environment ↔ Fresh table constraint manner state.environment) :
    Exact table constraint (.recorded manner fun state =>
      let outcome := compare (enter state)
      { outcome with state.environment := leave state.environment outcome.state.environment }) := by
  refine ⟨fun state => ?_,fun state all => ?_⟩
  · simp only [Compare.recorded,List.forall_mem_append,List.forall_mem_singleton]
    rw [exact_.fresh]
    refine and_congr_right fun fresh => ?_
    rw [exact_.restores _ ((exact_.fresh _).mpr fresh)]
    exact balanced state
  · simp only [Compare.recorded,List.forall_mem_append,List.forall_mem_singleton] at all
    exact all.2

theorem insertedAbsent (entries : List (SymbolId × TypeId)) (inferred) {tp}
    (other : (entries.map Prod.fst).contains tp = false) : entries.foldl insertAbsent inferred tp = inferred tp := by
  induction entries generalizing inferred with
  | nil => rfl
  | cons entry rest ih =>
    simp only [List.map_cons,List.contains_cons,Bool.or_eq_false_iff,beq_eq_false_iff_ne] at other
    rw [List.foldl_cons,ih (insertAbsent inferred entry) other.2,insertAbsent,Function.update_of_ne other.1]

theorem inferredBalanced (entries : List (SymbolId × TypeId)) (inferred) :
    (fun tp => if (entries.map Prod.fst).contains tp then none else entries.foldl insertAbsent inferred tp) = inferred ↔
      ∀ entry ∈ entries, inferred entry.1 = none := by
  constructor
  · intro same entry listed
    have inside : (entries.map Prod.fst).contains entry.1 = true := List.contains_iff_mem.mpr (List.mem_map_of_mem listed)
    have at_ := congrFun same entry.1
    simp only [inside,if_true] at at_
    exact at_.symm
  · intro absent
    funext tp
    cases inside : (entries.map Prod.fst).contains tp with
    | true =>
      obtain ⟨entry,listed,same⟩ := List.mem_map.mp (List.contains_iff_mem.mp inside)
      rw [if_pos rfl,← same,absent entry listed]
    | false =>
      exact insertedAbsent entries inferred inside

theorem knownBalanced (known) (added removed : List SymbolId) (within : ∀ tp ∈ added, tp ∈ removed) :
    (fun tp => (known tp || added.contains tp) && !removed.contains tp) = known ↔ ∀ tp ∈ removed, known tp = false := by
  constructor
  · intro same tp listed
    have at_ := congrFun same tp
    simpa [listed] using at_.symm
  · intro absent
    funext tp
    by_cases listed : tp ∈ removed
    · simp [listed,absent tp listed]
    · have other : tp ∉ added := fun inside => listed (within tp inside)
      simp [listed,other]

theorem Exact.inferred (source target) (exact_ : Exact table constraint compare) :
    Exact table constraint (withInferredParameters table constraint source target compare) := by
  let known := source.typeParameters ++ if source.typeParameters.isEmpty then [] else target.typeParameters
  refine Exact.recorded (fun state => refreshContext { state with environment := { state.environment with
      inferredTypeArguments := (inferences table constraint source target).foldl insertAbsent state.environment.inferredTypeArguments,
      knownTypeParameters := fun tp => state.environment.knownTypeParameters tp || known.contains tp } })
    (fun before left => { left with
      inferredTypeArguments := fun tp =>
        if ((inferences table constraint source target).map Prod.fst).contains tp then none else left.inferredTypeArguments tp,
      knownTypeParameters := fun tp => left.knownTypeParameters tp && !(source.typeParameters ++ target.typeParameters).contains tp,
      activeContext := before.activeContext }) (.inferred source target) exact_ fun state => ?_
  have within : ∀ tp ∈ known, tp ∈ source.typeParameters ++ target.typeParameters := fun tp inside => by
    simp only [known,List.mem_append] at inside ⊢
    refine inside.imp_right fun second => ?_
    split at second
    · cases second
    · exact second
  simp only [Environment.ext_iff,refreshContext,Fresh,inferredBalanced,knownBalanced _ _ _ within,true_and,and_comm]

theorem takeBefore {Item : Type} (before added : List Item) {count} (length : added.length = count) :
    (before ++ added).take ((before ++ added).length-count) = before := by
  rw [List.length_append,length,Nat.add_sub_cancel,List.take_left]

theorem Exact.erased (source target) (exact_ : Exact table constraint compare) :
    Exact table constraint (withErasedParameters source target compare) := by
  refine Exact.recorded (fun state =>
      let entered : Relations := { state with environment.erasedParameters :=
        state.environment.erasedParameters ++ source.typeParameters ++ target.typeParameters }
      if state.environment.erasedParameters.isEmpty then refreshContext entered else entered)
    (fun before left => { left with
      erasedParameters := left.erasedParameters.take (left.erasedParameters.length-(source.typeParameters.length+target.typeParameters.length)),
      activeContext := before.activeContext }) .erased exact_ fun state => ?_
  have taken := takeBefore state.environment.erasedParameters (source.typeParameters ++ target.typeParameters) List.length_append
  rw [← List.append_assoc] at taken
  refine iff_of_true ?_ trivial
  split <;> exact Environment.ext rfl rfl taken rfl rfl rfl

theorem aliasPairsLength (same : source.typeParameters.length = target.typeParameters.length) :
    (aliasPairs source target).length = source.typeParameters.length*2 := by
  simp [aliasPairs,List.length_flatMap,same]

theorem Exact.aliases {bound} (variance)
    (same : source.typeParameters.length = target.typeParameters.length) (bounds : ∀ a b, Exact table constraint (bound a b))
    (exact_ : Exact table constraint compare) : Exact table constraint (.recorded .aliases fun state =>
      let added := source.typeParameters.length*2
      let entered : Relations := { state with environment := { state.environment with
        parameterAliases := state.environment.parameterAliases ++ aliasPairs source target,
        parameterAliasFrames := state.environment.parameterAliasFrames ++ [added] } }
      let outcome := (constraintsRelate table bound source target variance).and compare (refreshContext entered)
      let left := outcome.state.environment
      { outcome with state.environment := { left with
          parameterAliases := left.parameterAliases.take (left.parameterAliases.length-added),
          parameterAliasFrames := left.parameterAliasFrames.dropLast,
          activeContext := state.environment.activeContext } }) := by
  have inner : Exact table constraint ((constraintsRelate table bound source target variance).and compare) := by
    refine Exact.and (Exact.all fun one listed => ?_) exact_
    obtain ⟨pair,_,made⟩ := List.mem_map.mp listed
    rw [← made]
    refine (bounds _ _).or ?_
    split
    · exact bounds _ _
    · exact Exact.answer false
  refine Exact.recorded (fun state => refreshContext { state with environment := { state.environment with
      parameterAliases := state.environment.parameterAliases ++ aliasPairs source target,
      parameterAliasFrames := state.environment.parameterAliasFrames ++ [source.typeParameters.length*2] } })
    (fun before left => { left with
      parameterAliases := left.parameterAliases.take (left.parameterAliases.length-source.typeParameters.length*2),
      parameterAliasFrames := left.parameterAliasFrames.dropLast,
      activeContext := before.activeContext }) .aliases inner fun state => ?_
  have taken := takeBefore state.environment.parameterAliases (aliasPairs source target) (aliasPairsLength same)
  exact iff_of_true (Environment.ext taken List.dropLast_concat rfl rfl rfl rfl) trivial

theorem Exact.signature {bound} (source target strictness variance) (bounds : ∀ a b, Exact table constraint (bound a b)) (exact_ : Exact table constraint compare) :
    Exact table constraint (withParameterAliases table constraint bound source target strictness variance compare) := by
  unfold withParameterAliases
  split
  · exact exact_.erased source target
  split
  · exact exact_
  split
  · split
    · exact exact_.inferred source target
    · exact exact_
  · rename_i same
    exact Exact.aliases variance (not_not.mp same) bounds exact_

end

section
variable (table : TypeTable) (constraint : SymbolId → Option TypeId) (other : TypeId → TypeId → Strictness → Compare)

def leading : «Type» → Bool
  | .error | .any | .this _ _ => true
  | _ => false

end

section
variable {table : TypeTable} {constraint : SymbolId → Option TypeId} {other : TypeId → TypeId → Strictness → Compare}

end

section

def unary (typeParameters : List SymbolId) (parameter result : TypeId) : FunctionSignature :=
  ⟨typeParameters,typeParameters.map fun _ => ⟨none,none⟩,[⟨"x",parameter,false,false⟩],result,none,[],false⟩

end

end Bamts.Checker
