import Bamts.CheckerSignature
import Mathlib.Data.List.Dedup

/-! The environments of a comparison: aliases, erased, inferred and known type parameters, and the context they make. Comparing
two signatures changes them for as long as it lasts. -/
set_option linter.all false
namespace Bamts.Checker

inductive Strictness where
  | assignable | strict | strictNull | comparable
  deriving DecidableEq, Repr

inductive ParameterVariance where
  | contravariant | bivariant
  deriving DecidableEq, Repr

structure RelationContext where
  parameterAliases : List (SymbolId × SymbolId)
  alphaAliases : Nat
  erasureActive : Bool
  deriving DecidableEq, Repr

@[ext] structure Environment where
  parameterAliases : List (SymbolId × SymbolId)
  parameterAliasFrames : List Nat
  erasedParameters : List SymbolId
  inferredTypeArguments : SymbolId → Option TypeId
  knownTypeParameters : SymbolId → Bool
  activeContext : Nat

structure Relations where
  environment : Environment
  contexts : List RelationContext

inductive Manner where
  | aliases | erased
  | inferred (source target : FunctionSignature)
  deriving DecidableEq, Repr

structure Nested where
  manner : Manner
  before : Environment
  after : Environment

-- `nested` lists the comparisons of signatures in the order they returned.
structure Outcome where
  result : Bool
  state : Relations
  nested : List Nested

abbrev Compare := Relations → Outcome

namespace Compare

def answer (result : Bool) : Compare := fun state => ⟨result,state,[]⟩

def reads (next : Environment → Compare) : Compare := fun state => next state.environment state

def andThen (first : Compare) (next : Bool → Compare) : Compare := fun state =>
  let one := first state
  let two := next one.result one.state
  ⟨two.result,two.state,one.nested ++ two.nested⟩

def and (first second : Compare) : Compare := first.andThen fun result => if result then second else answer false

def or (first second : Compare) : Compare := first.andThen fun result => if result then answer true else second

def all : List Compare → Compare
  | [] => answer true
  | first :: rest => first.and (all rest)

def any : List Compare → Compare
  | [] => answer false
  | first :: rest => first.or (any rest)

def recorded (manner : Manner) (compare : Compare) : Compare := fun state =>
  let outcome := compare state
  { outcome with nested := outcome.nested ++ [⟨manner,state.environment,outcome.state.environment⟩] }

end Compare

def orderedAliases (aliases : List (SymbolId × SymbolId)) : List (SymbolId × SymbolId) :=
  (aliases.insertionSort fun a b => a.1.get < b.1.get ∨ a.1.get = b.1.get ∧ a.2.get ≤ b.2.get).dedup

def internContext (contexts : List RelationContext) (aliases : List (SymbolId × SymbolId)) (alphaAliases : Nat) (erasureActive : Bool) :
    List RelationContext × Nat :=
  if (orderedAliases aliases).isEmpty ∧ alphaAliases = 0 ∧ !erasureActive then (contexts,0)
  else
    let context : RelationContext := ⟨orderedAliases aliases,alphaAliases,erasureActive⟩
    match contexts.idxOf? context with
    | some position => (contexts,position+1)
    | none => (contexts ++ [context],contexts.length+1)

def refreshContext (state : Relations) : Relations :=
  let (contexts,context) := internContext state.contexts state.environment.parameterAliases 0 !state.environment.erasedParameters.isEmpty
  ⟨{ state.environment with activeContext := context },contexts⟩

section
variable (table : TypeTable) (constraint : SymbolId → Option TypeId)

def TupleShape.allElementTypes (shape : TupleShape) : List TypeId := shape.prefix_ ++ shape.rest.toList ++ shape.suffix

-- Types are made of older types, so the fuel bounds only how deep they are.
def inferFromType (tp : SymbolId) : Nat → TypeId → TypeId → Option TypeId
  | 0,_,_ => none
  | fuel+1,pattern,concrete =>
    if table.get pattern = .named tp then some concrete
    else match table.get pattern,table.get concrete with
      | .array element,.array concreteElement => inferFromType tp fuel element concreteElement
      | .array element,.tuple shape =>
        (shape.allElementTypes.foldlM (fun inferred item =>
          match inferFromType tp fuel element item,inferred with
          | some found,some existing => if existing = found then some inferred else none
          | some found,none => some (some found)
          | none,_ => some inferred) none).join
      | .tuple shape,.tuple concreteShape =>
        (shape.allElementTypes.zip concreteShape.allElementTypes).findSome? fun pair => inferFromType tp fuel pair.1 pair.2
      | .function signature,.function concreteSignature =>
        ((signature.parameters.zip concreteSignature.parameters).findSome? fun pair =>
          inferFromType tp fuel pair.2.typeId pair.1.typeId).or (inferFromType tp fuel signature.returnType concreteSignature.returnType)
      | .objectType object,.objectType concreteObject =>
        object.properties.findSome? fun property =>
          (concreteObject.properties.find? fun other => other.name = property.name).bind fun other =>
            inferFromType tp fuel property.typeId other.typeId
      | _,_ => none

def inferFromParameters (tp : SymbolId) (generic concrete : FunctionSignature) : Option TypeId :=
  (generic.parameters.zip concrete.parameters).findSome? fun pair =>
    inferFromType table tp (table.types.length+1) pair.1.typeId pair.2.typeId

def inferTypeArgument (tp : SymbolId) (generic concrete : FunctionSignature) : TypeId :=
  (inferFromParameters table tp generic concrete).getD ((constraint tp).getD table.unknown)

-- What is inferred for the type parameters: always for those of the source, on a match for those of the target.
def inferences (source target : FunctionSignature) : List (SymbolId × TypeId) :=
  (source.typeParameters.map fun tp => (tp,inferTypeArgument table constraint tp source target)) ++
    target.typeParameters.filterMap fun tp => (inferFromParameters table tp target source).map fun inferred => (tp,inferred)

def insertAbsent (inferred : SymbolId → Option TypeId) (entry : SymbolId × TypeId) : SymbolId → Option TypeId :=
  Function.update inferred entry.1 (some ((inferred entry.1).getD entry.2))

def withErasedParameters (source target : FunctionSignature) (compare : Compare) : Compare := .recorded .erased fun state =>
  let added := source.typeParameters.length+target.typeParameters.length
  let erased := state.environment.erasedParameters
  let entered : Relations := { state with environment.erasedParameters := erased ++ source.typeParameters ++ target.typeParameters }
  let outcome := compare (if erased.isEmpty then refreshContext entered else entered)
  let left := outcome.state.environment
  { outcome with state.environment := { left with
      erasedParameters := left.erasedParameters.take (left.erasedParameters.length-added),
      activeContext := state.environment.activeContext } }

def withInferredParameters (source target : FunctionSignature) (compare : Compare) : Compare := .recorded (.inferred source target) fun state =>
  let environment := state.environment
  let inferred := inferences table constraint source target
  let known := source.typeParameters ++ if source.typeParameters.isEmpty then [] else target.typeParameters
  let outcome := compare (refreshContext { state with environment := { environment with
    inferredTypeArguments := inferred.foldl insertAbsent environment.inferredTypeArguments,
    knownTypeParameters := fun tp => environment.knownTypeParameters tp || known.contains tp } })
  let left := outcome.state.environment
  { outcome with state.environment := { left with
      inferredTypeArguments := fun tp => if (inferred.map Prod.fst).contains tp then none else left.inferredTypeArguments tp,
      knownTypeParameters := fun tp => left.knownTypeParameters tp && !(source.typeParameters ++ target.typeParameters).contains tp,
      activeContext := environment.activeContext } }

def aliasPairs (source target : FunctionSignature) : List (SymbolId × SymbolId) :=
  (source.typeParameters.zip target.typeParameters).flatMap fun pair => [(pair.1,pair.2),(pair.2,pair.1)]

def constraintsRelate (bound : TypeId → TypeId → Compare) (source target : FunctionSignature) (variance : ParameterVariance) : Compare :=
  .all ((source.typeParameterBounds.zip target.typeParameterBounds).map fun pair =>
    let sourceConstraint := pair.1.constraint.getD table.unknown
    let targetConstraint := pair.2.constraint.getD table.unknown
    (bound targetConstraint sourceConstraint).or
      (if source.typeParameters = target.typeParameters ∧ variance = .bivariant then bound sourceConstraint targetConstraint else .answer false))

-- `bound` relates two constraints in the mode of the comparison.
def withParameterAliases (bound : TypeId → TypeId → Compare) (source target : FunctionSignature) (strictness : Strictness)
    (variance : ParameterVariance) (compare : Compare) : Compare :=
  if strictness = .comparable then withErasedParameters source target compare
  else if source.typeParameters.isEmpty && target.typeParameters.isEmpty then compare
  else if source.typeParameters.length ≠ target.typeParameters.length then
    if strictness = .assignable ∨ strictness = .strictNull then withInferredParameters table constraint source target compare else compare
  else .recorded .aliases fun state =>
    let added := source.typeParameters.length*2
    let entered : Relations := { state with environment := { state.environment with
      parameterAliases := state.environment.parameterAliases ++ aliasPairs source target,
      parameterAliasFrames := state.environment.parameterAliasFrames ++ [added] } }
    let outcome := (constraintsRelate table bound source target variance).and compare (refreshContext entered)
    let left := outcome.state.environment
    { outcome with state.environment := { left with
        parameterAliases := left.parameterAliases.take (left.parameterAliases.length-added),
        parameterAliasFrames := left.parameterAliasFrames.dropLast,
        activeContext := state.environment.activeContext } }

end

end Bamts.Checker
