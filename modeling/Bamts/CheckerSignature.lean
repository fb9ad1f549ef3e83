import Bamts.CheckerTuple

/-! Function signatures: how many arguments a call takes, what each position accepts, and the relation of two signatures without
type parameters, which compares the positions that the longer parameter list declares. -/
set_option linter.all false
namespace Bamts.Checker

namespace FunctionSignature

-- `none` for the total and the rest position is the unbounded maximum and no rest.
structure Arity where
  required : Nat
  total : Option Nat
  rest : Option Nat
  deriving DecidableEq, Repr

def countRequired : Nat → Nat → List FunctionParameter → Nat × Option Nat
  | _,required,[] => (required,none)
  | index,required,parameter :: rest =>
    if parameter.rest then (required,some index)
    else countRequired (index+1) (if parameter.optional then required else index+1) rest

def arity (signature : FunctionSignature) : Arity :=
  let (required,rest) := countRequired 0 0 signature.parameters
  ⟨required,if rest.isSome then none else some signature.parameters.length,rest⟩

def callArity (signature : FunctionSignature) (table : TypeTable) : Arity :=
  match signature.arity with
  | ⟨required,total,none⟩ => ⟨required,total,none⟩
  | ⟨required,total,some rest⟩ =>
    match signature.parameters[rest]?.map fun parameter => table.get parameter.typeId with
    | some (.tuple shape) => ⟨if shape.minArity = 0 then required else rest+shape.minArity,shape.maxArity.map (rest + ·),some rest⟩
    | _ => ⟨required,total,some rest⟩

end FunctionSignature

open FunctionSignature

section
variable (table : TypeTable) (constraint : SymbolId → Option TypeId)

-- Each turn of the loop sees a new type parameter, so the fuel bounds only how many there are.
def restTypesFrom (typeId : TypeId) (index : Nat) : Nat → TypeId → List TypeId → List TypeId
  | 0,_,_ => [typeId]
  | fuel+1,current,seen =>
    if current ∈ seen then [typeId]
    else match table.get current with
      | .array element => [element]
      | .tuple shape => shape.elementTypesAt index
      | .any | .error => [current]
      | .named symbol =>
        match constraint symbol with
        | some next => restTypesFrom typeId index fuel next (current :: seen)
        | none => [typeId]
      | _ => [typeId]

def restTypesAt (typeId : TypeId) (index : Nat) : List TypeId :=
  restTypesFrom table constraint typeId index (table.types.length+1) typeId []

def parameterTypesAt (signature : FunctionSignature) (index : Nat) : Option (List TypeId) :=
  match signature.parameters[index]? with
  | some parameter => some (if parameter.rest then restTypesAt table constraint parameter.typeId 0 else [parameter.typeId])
  | none =>
    match signature.parameters.getLast? with
    | none => none
    | some last =>
      if last.rest then some (restTypesAt table constraint last.typeId (index-(signature.parameters.length-1))) else none

variable (relates : TypeId → TypeId → Bool)

def positions (source target : FunctionSignature) : Nat := max source.parameters.length target.parameters.length

def positionRelates (bivariant : Bool) (source target : FunctionSignature) (index : Nat) : Bool :=
  match parameterTypesAt table constraint source index,parameterTypesAt table constraint target index with
  | some sourceTypes,some targetTypes => targetTypes.all fun targetType => sourceTypes.any fun sourceType =>
      relates targetType sourceType || (bivariant && relates sourceType targetType)
  | _,_ => true

def signatureRelates (bivariant : Bool) (source target : FunctionSignature) : Bool :=
  if target.arity.rest.isNone && decide (target.arity.required < source.arity.required) then false
  else if (List.range (positions source target)).all (positionRelates table constraint relates bivariant source target) then
    table.get target.returnType = .void || relates source.returnType target.returnType
  else false

end

-- A signature as it is declared: the rest comes last, and is an array or a tuple.
structure Declared (table : TypeTable) (signature : FunctionSignature) : Prop where
  plain : signature.typeParameters = []
  last : ∀ index parameter, signature.parameters[index]? = some parameter → parameter.rest = true → index+1 = signature.parameters.length
  rest : ∀ parameter ∈ signature.parameters, parameter.rest = true →
    (∃ element, table.get parameter.typeId = .array element) ∨ ∃ shape, table.get parameter.typeId = .tuple shape

def TupleRest (table : TypeTable) (signature : FunctionSignature) : Prop :=
  ∃ parameter ∈ signature.parameters, parameter.rest = true ∧ ∃ shape, table.get parameter.typeId = .tuple shape

def Allows (table : TypeTable) (signature : FunctionSignature) (count : Nat) : Prop :=
  (signature.callArity table).required ≤ count ∧ ∀ total, (signature.callArity table).total = some total → count ≤ total

section
variable {table : TypeTable} {constraint : SymbolId → Option TypeId} {relates : TypeId → TypeId → Bool} {source target signature : FunctionSignature}
  {index : Nat}

theorem countRequiredRest (parameters index required) :
    (countRequired index required parameters).2 = (parameters.findIdx? FunctionParameter.rest).map (index + ·) := by
  induction parameters generalizing index required with
  | nil => rfl
  | cons parameter rest ih =>
    unfold countRequired
    rw [List.findIdx?_cons]
    cases parameter.rest with
    | true => simp
    | false => simp [ih,Function.comp_def,Nat.add_assoc,Nat.add_comm 1]

theorem arityRest (signature : FunctionSignature) : signature.arity.rest = signature.parameters.findIdx? FunctionParameter.rest := by
  have counted := countRequiredRest signature.parameters 0 0
  simpa [FunctionSignature.arity] using counted

theorem requiredWithoutTuple (declared : ¬TupleRest table signature) : (signature.callArity table).required = signature.arity.required := by
  have counted := arityRest signature
  unfold callArity
  split
  · rename_i found
    rw [found]
  · rename_i required total rest found
    rw [found] at counted
    obtain ⟨inside,isRest,_⟩ := List.findIdx?_eq_some_iff_getElem.mp counted.symm
    split
    · rename_i shape is
      rw [List.getElem?_eq_getElem inside,Option.map_some,Option.some.injEq] at is
      exact absurd ⟨_,List.getElem_mem inside,isRest,shape,is⟩ declared
    · rw [found]

theorem allowsRequired {count} (none_ : signature.arity.rest = none) (allows : Allows table signature count) : signature.arity.required ≤ count := by
  have same : signature.callArity table = signature.arity := by
    unfold callArity
    split
    · rename_i found
      rw [found]
    · rename_i found
      rw [found] at none_
      cases none_
  exact same ▸ allows.1

theorem restTypesArray {element typeId} (is : table.get typeId = .array element) (index) :
    restTypesAt table constraint typeId index = [element] := by
  simp [restTypesAt,restTypesFrom,is]

theorem arrayRest {last element} (found : signature.parameters.getLast? = some last) (isRest : last.rest = true)
    (is : table.get last.typeId = .array element) (after : signature.parameters.length ≤ index+1) :
    parameterTypesAt table constraint signature index = some [element] := by
  unfold parameterTypesAt
  split
  · rename_i parameter there
    have inside : index < signature.parameters.length := (List.getElem?_eq_some_iff.mp there).1
    have same : index = signature.parameters.length-1 := by omega
    rw [List.getLast?_eq_getElem?,← same,there] at found
    cases found
    rw [isRest,restTypesArray is]
    rfl
  · rw [found]
    simp only
    rw [isRest,restTypesArray is]
    rfl

theorem restAt (declared : Declared table signature) (simple : ¬TupleRest table signature) (beyond : signature.parameters.length ≤ index)
    {types} (accepts : parameterTypesAt table constraint signature index = some types) :
    ∃ element, types = [element] ∧ 0 < signature.parameters.length ∧
      ∀ other, signature.parameters.length ≤ other+1 → parameterTypesAt table constraint signature other = some [element] := by
  have past : signature.parameters[index]? = none := List.getElem?_eq_none beyond
  have again := accepts
  unfold parameterTypesAt at accepts
  rw [past] at accepts
  simp only at accepts
  split at accepts
  · cases accepts
  · rename_i last found
    split at accepts
    · rename_i isRest
      have listed := List.mem_of_getLast? found
      obtain ⟨element,is⟩ := (declared.rest last listed isRest).resolve_right fun tuple => simple ⟨last,listed,isRest,tuple⟩
      have everywhere : ∀ other, signature.parameters.length ≤ other+1 → parameterTypesAt table constraint signature other = some [element] :=
        fun other after => arrayRest found isRest is after
      exact ⟨element,Option.some.inj (again.symm.trans (everywhere index (by omega))),List.length_pos_of_mem listed,everywhere⟩
    · cases accepts

theorem positionCovers (related : positionRelates table constraint relates false source target index = true) {accepted received}
    (accepts : parameterTypesAt table constraint source index = some accepted)
    (receives : parameterTypesAt table constraint target index = some received) :
    ∀ targetType ∈ received, ∃ sourceType ∈ accepted, relates targetType sourceType = true := by
  unfold positionRelates at related
  rw [accepts,receives] at related
  simpa using related

theorem signatureCovers (declared : Declared table source) (declared' : Declared table target)
    (related : signatureRelates table constraint relates false source target = true) {count : Nat} (allows : Allows table target count) :
    (target.arity.rest = none → ¬TupleRest table source → (source.callArity table).required ≤ count) ∧
    ∀ index < count, index < positions source target ∨ ¬TupleRest table source ∧ ¬TupleRest table target →
      ∀ accepted received, parameterTypesAt table constraint source index = some accepted →
        parameterTypesAt table constraint target index = some received →
        ∀ targetType ∈ received, ∃ sourceType ∈ accepted, relates targetType sourceType = true := by
  unfold signatureRelates at related
  split at related
  · cases related
  rename_i enough
  split at related
  swap
  · cases related
  rename_i all
  have compared : ∀ index < positions source target, positionRelates table constraint relates false source target index = true :=
    fun index inside => List.all_eq_true.mp all index (List.mem_range.mpr inside)
  constructor
  · intro none_ simple
    rw [requiredWithoutTuple simple]
    simp only [none_,Option.isNone_none,Bool.true_and,decide_eq_true_eq,Nat.not_lt] at enough
    exact enough.trans (allowsRequired none_ allows)
  · intro index _ near accepted received accepts receives
    obtain inside | beyond := lt_or_ge index (positions source target)
    · exact positionCovers (compared index inside) accepts receives
    obtain ⟨simple,simple'⟩ := near.resolve_left (Nat.not_lt.mpr beyond)
    have beyondSource : source.parameters.length ≤ index := (le_max_left _ _).trans beyond
    have beyondTarget : target.parameters.length ≤ index := (le_max_right _ _).trans beyond
    obtain ⟨element,isOne,some_,everywhere⟩ := restAt declared simple beyondSource accepts
    obtain ⟨element',isOne',_,everywhere'⟩ := restAt declared' simple' beyondTarget receives
    -- The last position that is compared stands for all later ones.
    have last : positions source target-1 < positions source target := by
      unfold positions
      omega
    rw [isOne,isOne']
    refine positionCovers (compared _ last) (everywhere _ ?_) (everywhere' _ ?_)
    · unfold positions
      omega
    · unfold positions
      omega

end

section

def numbers : TypeTable × TypeId := TypeTable.new.intern (.array TypeTable.new.number)

-- `(x: type) => void`, and the same with `...x`.
def taking (type : TypeId) (rest : Bool) : FunctionSignature :=
  ⟨[],[],[⟨"x",type,false,rest⟩],numbers.1.void,none,[],false⟩

theorem takingDeclared (type rest) (array : rest = true → numbers.1.get type = .array numbers.1.number) :
    Declared numbers.1 (taking type rest) := by
  refine ⟨rfl,fun index parameter found isRest => ?_,fun parameter listed isRest => Or.inl ⟨numbers.1.number,?_⟩⟩
  · have inside := (List.getElem?_eq_some_iff.mp found).1
    simp only [taking,List.length_cons,List.length_nil] at inside ⊢
    omega
  · cases List.mem_singleton.mp listed
    exact array isRest

theorem numbersAllow (count) : Allows numbers.1 (taking numbers.2 true) count := by
  have none_ : ((taking numbers.2 true).callArity numbers.1).total = none := by decide
  have least : ((taking numbers.2 true).callArity numbers.1).required = 0 := by decide
  exact ⟨least ▸ Nat.zero_le count,fun total bounded => absurd (none_.symm.trans bounded) (by simp)⟩

theorem signatureCoversNumbers : ((taking numbers.2 true).arity.rest = none → ¬TupleRest numbers.1 (taking numbers.2 true) →
      ((taking numbers.2 true).callArity numbers.1).required ≤ 3) ∧
    ∀ index < 3, index < positions (taking numbers.2 true) (taking numbers.2 true) ∨
        ¬TupleRest numbers.1 (taking numbers.2 true) ∧ ¬TupleRest numbers.1 (taking numbers.2 true) →
      ∀ accepted received, parameterTypesAt numbers.1 (fun _ => none) (taking numbers.2 true) index = some accepted →
        parameterTypesAt numbers.1 (fun _ => none) (taking numbers.2 true) index = some received →
        ∀ targetType ∈ received, ∃ sourceType ∈ accepted, decide (targetType = sourceType) = true :=
  signatureCovers (takingDeclared _ _ fun _ => by decide) (takingDeclared _ _ fun _ => by decide) (by decide)
    (numbersAllow 3)

-- `(x: number) => void` relates to `(...x: number[]) => void`, which may be called without arguments.
theorem restTargetUncounted : ¬∀ table constraint relates source target, Declared table source → Declared table target →
    signatureRelates table constraint relates false source target = true → ∀ count, Allows table target count →
    (source.callArity table).required ≤ count ∧
    ∀ index < count, ∀ accepted received, parameterTypesAt table constraint source index = some accepted → accepted ≠ [] →
      parameterTypesAt table constraint target index = some received →
      ∀ targetType ∈ received, ∃ sourceType ∈ accepted, relates targetType sourceType = true := by
  intro covers
  have counted := covers numbers.1 (fun _ => none) (fun a b => a = b) (taking numbers.1.number false) (taking numbers.2 true)
    (takingDeclared _ _ Bool.noConfusion) (takingDeclared _ _ fun _ => by decide) (by decide) 0 (numbersAllow 0)
  exact absurd counted.1 (by decide)

end

end Bamts.Checker
