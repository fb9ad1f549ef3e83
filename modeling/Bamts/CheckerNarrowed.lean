import Bamts.CheckerValue

/-! What narrowing keeps. Every guard keeps each value that can pass it, save the values of a few kinds of members. -/
set_option linter.all false
namespace Bamts.Checker
open Bamts.Bytecode (EcmaString)

inductive Guard where
  | typeof (name : TypeofName)
  | equals (literal : TypeId)
  | has (property : String)
  | truthy

section
variable {Number : Type}

def typeofValue : Value Number → TypeofName
  | .null | .array _ | .object false _ => .object
  | .undefined => .undefined
  | .boolean _ => .boolean
  | .number _ | .nan => .number
  | .bigint _ => .bigInt
  | .string _ => .string
  | .object true _ => .function

def truthy [DecidableEq Number] (zero : Number) : Value Number → Bool
  | .null | .undefined | .nan => false
  | .boolean value => value
  | .number value => value ≠ zero
  | .bigint value => value ≠ 0
  | .string value => !value.asUnits.isEmpty
  | .array _ | .object _ _ => true

def hasProperty (arrayHas : List (Value Number) → String → Bool) (property : String) : Value Number → Option Bool
  | .array elements => some (arrayHas elements property)
  | .object _ fields => some (fields.any fun field => field.1 = property)
  | _ => none

def Guard.exact : Guard → Bool
  | .has _ => true
  | _ => false

variable [DecidableEq Number] (numberValue : String → Option Number) (zero : Number) (arrayHas : List (Value Number) → String → Bool)
  (structural : TypeId → TypeId → Bool) (table : TypeTable)

def Passes (guard : Guard) (negated : Bool) (value : Value Number) : Prop :=
  match guard with
  | .typeof name => decide (typeofValue value = name) ≠ negated
  | .equals literal => HasType numberValue table false value literal ↔ negated = false
  | .has property => hasProperty arrayHas property value = some !negated
  | .truthy => truthy zero value ≠ negated

def narrow (ty : TypeId) (guard : Guard) (negated : Bool) : TypeTable × TypeId :=
  match guard with
  | .typeof name => narrowTypeof table ty name negated
  | .equals literal => narrowEquality structural table ty literal negated
  | .has property => narrowIn table ty property negated
  | .truthy => narrowTruthiness numberValue zero table ty negated

def literal : «Type» → Bool
  | .null | .undefined | .booleanLiteral _ | .numberLiteral _ | .stringLiteral _ | .bigIntLiteral _ => true
  | _ => false

def Guard.Valid (guard : Guard) : Prop := ∀ id, guard = .equals id → literal (table.get id) = true

inductive Lost : Guard → Bool → TypeId → Prop
  | callable {member : TypeId} {object : ObjectType} {name : TypeofName} {negated : Bool} (is : table.get member = .objectType object)
      (calls : object.callSignatures ≠ []) (asked : name = .function ∧ negated = false ∨ name = .object ∧ negated = true) :
      Lost (.typeof name) negated member
  | optional {member : TypeId} {object : ObjectType} {name : String} (is : table.get member = .objectType object)
      (declared : ∃ property ∈ object.properties, property.name = name)
      (optional : ∀ property ∈ object.properties, property.name = name → property.optional = true) : Lost (.has name) true member
  | nullish {member literal : TypeId} (is : table.get member = .null ∨ table.get member = .undefined) (other : member ≠ literal) :
      Lost (.equals literal) true member
  | number {member literal : TypeId} {text other : String} (is : table.get member = .numberLiteral text)
      (guard : table.get literal = .numberLiteral other) (same : numberValue text = numberValue other) (differ : text ≠ other) :
      Lost (.equals literal) false member
  | bigint {member literal : TypeId} {text other : String} (is : table.get member = .bigIntLiteral text)
      (guard : table.get literal = .bigIntLiteral other) (same : bigintValue text = bigintValue other) (differ : text ≠ other) :
      Lost (.equals literal) false member

end

section
variable {Number : Type} {numberValue : String → Option Number} {table : TypeTable} {exact : Bool} {id : TypeId} {value : Value Number}
  {members : List TypeId}

open TypeTable (Single Sound Interned Kept)

theorem interned (sound : Sound table) (valid : table.Valid id) (single : Single (table.get id)) : Interned table {id} (table,id) :=
  ⟨sound,Kept.refl table,valid,⟨single.1,single.2.1⟩,fun part => by rw [TypeTable.partsSingle single]; simp⟩

theorem internedNever (sound : Sound table) : Interned table ∅ (table,table.never) :=
  ⟨sound,Kept.refl table,sound.never.1,by simp [sound.never.2],fun part => by simp [TypeTable.parts,sound.never.2]⟩

theorem unionSingles (sound : Sound table) (plain : ∀ member ∈ members, table.Valid member ∧ (Single (table.get member) ∨ table.get member = .never)) :
    Interned table {id | id ∈ members ∧ table.get id ≠ .never} (table.union members) := by
  have open_ : table.absorbing members = none := by
    refine List.find?_eq_none.mpr fun ty inside => ?_
    obtain ⟨member,listed,same⟩ := List.mem_map.mp inside
    obtain ⟨_,single | never⟩ := plain member listed
    · simp [← same,single.1,single.2.1]
    · simp [← same,never]
  have same : table.constituents members = {id | id ∈ members ∧ table.get id ≠ .never} := by
    ext id
    constructor
    · rintro ⟨member,listed,within⟩
      obtain ⟨_,single | never⟩ := plain member listed
      · rw [TypeTable.partsSingle single,List.mem_singleton] at within
        exact within ▸ ⟨listed,single.2.2.1⟩
      · simp [TypeTable.parts,never] at within
    · rintro ⟨listed,some_⟩
      refine ⟨id,listed,?_⟩
      rw [TypeTable.partsSingle ((plain id listed).2.resolve_right some_)]
      exact List.mem_singleton_self id
  exact same ▸ TypeTable.unionNames sound (fun member listed => (plain member listed).1) open_

theorem internedHasType {set result} (made : Interned table set result) (built : ∀ part ∈ set, Built table part) :
    HasType numberValue result.1 exact value result.2 ↔ ∃ part ∈ set, HasType numberValue table exact value part := by
  rw [hasTypeParts]
  refine exists_congr fun part => ?_
  rw [made.names.same]
  exact and_congr_right fun inside => (built part inside).hasType made.kept

-- What a type is built from stands for itself, and a type of the guards is `never`, a union or one of these.
theorem Built.cases (sound : Sound table) (built : Built table id) :
    table.get id = .never ∨ (∃ members, table.get id = .union members ∧ table.Made members) ∨ Single (table.get id) := by
  have concrete : table.get id ≠ .any ∧ table.get id ≠ .unknown := by
    constructor <;> intro is <;> cases built with
    | primitive kind => simp [is,Checker.primitive] at kind
    | array found _ => cases is.symm.trans found
    | object found _ => cases is.symm.trans found
    | function found => cases is.symm.trans found
    | union found _ => cases is.symm.trans found
  obtain never | ⟨members,is⟩ | single := TypeTable.concreteCases concrete
  · exact Or.inl never
  · exact Or.inr (Or.inl ⟨members,is,sound.made id members built.valid is⟩)
  · exact Or.inr (Or.inr single)

theorem Built.parts (sound : Sound table) (built : Built table id) {part} (inside : part ∈ table.parts id) :
    Built table part ∧ Single (table.get part) := by
  obtain never | ⟨members,is,made⟩ | single := built.cases sound
  · simp [TypeTable.parts,never] at inside
  · have listed : part ∈ members := by simpa [TypeTable.parts,is] using inside
    exact ⟨built.arms is part listed,(made.plain part listed).2⟩
  · rw [TypeTable.partsSingle single,List.mem_singleton] at inside
    exact inside ▸ ⟨built,single⟩

end

section
variable {table : TypeTable} {id : TypeId} {decide : TypeTable → «Type» → Narrow}

open TypeTable (Single Sound Interned Kept)

def decided (decide : TypeTable → «Type» → Narrow) (table : TypeTable) (member part : TypeId) : Prop :=
  decide table (table.get member) = .keep ∧ part = member ∨ decide table (table.get member) = .replace part

def filterSingle (table : TypeTable) (id : TypeId) (decide : TypeTable → «Type» → Narrow) : TypeTable × TypeId :=
  match decide table (table.get id) with
  | .keep => (table,id)
  | .drop => (table,table.never)
  | .replace replacement => (table,replacement)

theorem Built.filter (built : Built table id) (single : ∀ members, table.get id ≠ .union members) :
    Checker.filter table id decide = filterSingle table id decide := by
  unfold Checker.filter filterSingle
  cases built with
  | primitive is => cases kind : table.get id <;> first | rfl | simp [kind,Checker.primitive] at is
  | array is _ => rw [is] <;> rfl
  | object is _ => rw [is] <;> rfl
  | function is => rw [is] <;> rfl
  | union is _ => exact absurd is (single _)

def choices (table : TypeTable) (decide : TypeTable → «Type» → Narrow) (member : TypeId) : List TypeId :=
  match decide table (table.get member) with
  | .keep => [member]
  | .drop => []
  | .replace replacement => [replacement]

theorem memChoices {member part} : part ∈ choices table decide member ↔ decided decide table member part := by
  unfold choices decided
  split <;> rename_i choice <;> simp [choice,eq_comm]

theorem Built.filterUnion {members} (built : Built table id) (is : table.get id = .union members) :
    Checker.filter table id decide = table.union (members.flatMap (choices table decide)) := by
  unfold Checker.filter
  rw [is,List.flatMap_eq_foldl]
  refine congrArg table.union (List.foldl_ext _ _ _ fun kept member inside => ?_)
  rw [if_neg (built.arms is member inside).known]
  unfold choices
  split <;> rename_i choice <;> simp [choice]

theorem filterInterned (sound : Sound table) (built : Built table id)
    (replaced : ∀ ty part, decide table ty = .replace part → ty ≠ .never ∧ table.Valid part ∧ Single (table.get part)) :
    Interned table {part | ∃ member ∈ table.parts id, decided decide table member part} (filter table id decide) := by
  obtain never | ⟨members,is,made⟩ | single := built.cases sound
  · have none : {part | ∃ member ∈ table.parts id, decided decide table member part} = ∅ := by simp [TypeTable.parts,never]
    rw [none,built.filter (by simp [never]),filterSingle]
    split
    · exact sound.idOfKey sound.never.1 built.valid (by rw [sound.never.2,never]) ▸ internedNever sound
    · exact internedNever sound
    · rename_i choice
      exact absurd never (replaced _ _ choice).1
  · have plain : ∀ member ∈ members.flatMap (choices table decide), table.Valid member ∧ (Single (table.get member) ∨ table.get member = .never) := by
      intro part inside
      obtain ⟨member,listed,chosen⟩ := List.mem_flatMap.mp inside
      obtain ⟨_,same⟩ | choice := memChoices.mp chosen
      · exact same ▸ (made.plain member listed).imp_right Or.inl
      · exact (replaced _ _ choice).2.imp_right Or.inl
    have kept := unionSingles sound plain
    have same : {part | part ∈ members.flatMap (choices table decide) ∧ table.get part ≠ .never} =
        {part | ∃ member ∈ table.parts id, decided decide table member part} := by
      ext part
      simp only [Set.mem_ofPred_eq,List.mem_flatMap,memChoices,TypeTable.parts,is]
      refine and_iff_left_of_imp fun whence => ?_
      obtain ⟨member,listed,⟨_,same⟩ | choice⟩ := whence
      · exact same ▸ (made.plain member listed).2.2.2.1
      · exact (replaced _ _ choice).2.2.2.2.1
    rw [built.filterUnion is,← same]
    exact kept
  · have alone : {part | ∃ member ∈ table.parts id, decided decide table member part} = {part | decided decide table id part} := by
      simp [TypeTable.partsSingle single]
    rw [alone,built.filter single.2.2.2,filterSingle]
    split <;> rename_i choice <;> simp only [decided,choice]
    · simpa using interned sound built.valid single
    · simpa using internedNever sound
    · simpa [eq_comm] using interned sound (replaced _ _ choice).2.1 (replaced _ _ choice).2.2

end

section
variable {Number : Type} {numberValue : String → Option Number} {arrayHas : List (Value Number) → String → Bool}
  {table : TypeTable} {id member : TypeId} {value : Value Number} {exact negated : Bool}

open TypeTable (Single Sound Interned Kept)

theorem filterHasType {decide} (sound : Sound table) (built : Built table id) (plain : ∀ ty part, decide table ty ≠ .replace part) :
    HasType numberValue (filter table id decide).1 exact value (filter table id decide).2 ↔
      ∃ member ∈ table.parts id, decide table (table.get member) = .keep ∧ HasType numberValue table exact value member := by
  have made := filterInterned sound built fun ty part choice => absurd choice (plain ty part)
  rw [internedHasType made fun part ⟨member,listed,chosen⟩ => (chosen.resolve_right (plain _ part)).2 ▸ (built.parts sound listed).1]
  constructor
  · rintro ⟨part,⟨member,listed,chosen⟩,typed⟩
    obtain ⟨keep,same⟩ := chosen.resolve_right (plain _ part)
    exact ⟨member,listed,keep,same ▸ typed⟩
  · rintro ⟨member,listed,keep,typed⟩
    exact ⟨member,⟨member,listed,Or.inl ⟨keep,rfl⟩⟩,typed⟩

theorem keepsFilter {guard decide} (sound : Sound table) (built : Built table id) (plain : ∀ ty part, decide table ty ≠ .replace part)
    (right : ∀ member ∈ table.parts id, HasType numberValue table exact value member →
      (decide table (table.get member) = .keep ↔ ¬Lost numberValue table guard negated member)) :
    HasType numberValue (filter table id decide).1 exact value (filter table id decide).2 ↔
      ∃ member ∈ table.parts id, ¬Lost numberValue table guard negated member ∧ HasType numberValue table exact value member := by
  rw [filterHasType sound built plain]
  exact exists_congr fun member => and_congr_right fun listed => and_congr_left fun typed => right member listed typed

theorem typeofExact {name} (fuel) (single : Single (table.get member)) (typed : HasType numberValue table exact value member)
    (plain : ∀ object, table.get member = .objectType object → object.callSignatures = []) :
    typeofMatches table fuel (table.get member) name = decide (typeofValue value = name) := by
  cases typed with
  | object is _ _ _ =>
    rw [is,plain _ is]
    cases name <;> cases fuel <;> rfl
  | union is _ _ => exact absurd is (single.2.2.2 _)
  | _ =>
    simp only [*]
    cases name <;> cases fuel <;> rfl

theorem typeofObject (fuel object name) : typeofMatches table fuel (.objectType object) name = decide (name = .object) := by
  cases name <;> cases fuel <;> rfl

theorem typeofRight {name} (single : Single (table.get member)) (typed : HasType numberValue table exact value member)
    (passes : decide (typeofValue value = name) ≠ negated) :
    typeofMatches table table.types.length (table.get member) name ≠ negated ↔ ¬Lost numberValue table (.typeof name) negated member := by
  by_cases calls : ∃ object, table.get member = .objectType object ∧ object.callSignatures ≠ []
  · obtain ⟨object,is,calls⟩ := calls
    have lost : Lost numberValue table (.typeof name) negated member ↔ (name = .function ∧ negated = false ∨ name = .object ∧ negated = true) :=
      ⟨fun lost => by cases lost; assumption,fun asked => .callable is calls asked⟩
    obtain ⟨fields,same,_,_⟩ := typed.ofObject is
    have function : typeofValue value = .function := by
      rw [same,List.isEmpty_eq_false_iff.mpr calls]
      rfl
    rw [lost,is,typeofObject]
    rw [function] at passes
    cases name <;> cases negated <;> simp at passes ⊢
  · have plain : ∀ object, table.get member = .objectType object → object.callSignatures = [] := fun object is =>
      not_not.mp fun calls' => calls ⟨object,is,calls'⟩
    rw [typeofExact _ single typed plain]
    refine iff_of_true passes fun lost => ?_
    cases lost with
    | callable is calls' _ => exact calls' (plain _ is)

theorem typeofKeeps {name} (sound : Sound table) (built : Built table id) (passes : decide (typeofValue value = name) ≠ negated) :
    HasType numberValue (narrowTypeof table id name negated).1 exact value (narrowTypeof table id name negated).2 ↔
      ∃ member ∈ table.parts id, ¬Lost numberValue table (.typeof name) negated member ∧ HasType numberValue table exact value member := by
  refine keepsFilter sound built (fun ty part => ?_) fun member listed typed => ?_
  · split
    all_goals try exact Narrow.noConfusion
    split <;> exact Narrow.noConfusion
  · have single := (built.parts sound listed).2
    rw [← typeofRight single typed passes]
    cases typed with
    | union is _ _ => exact absurd is (single.2.2.2 _)
    | _ => simp [*]

theorem hasRight {property} (typed : HasType numberValue table true value member)
    (passes : hasProperty arrayHas property value = some !negated) {object} (is : table.get member = .objectType object) :
    (object.properties.any fun member => member.name = property) ≠ negated ↔ ¬Lost numberValue table (.has property) negated member := by
  obtain ⟨fields,same,required,declared⟩ := typed.ofObject is
  have there : (fields.any fun field => field.1 = property) = !negated := by
    rw [same] at passes
    exact Option.some.inj passes
  cases negated with
  | false =>
    obtain ⟨field,inside,named⟩ := List.any_eq_true.mp there
    obtain ⟨found,listed,called⟩ := declared rfl field inside
    refine iff_of_true ?_ fun lost => nomatch lost
    rw [List.any_eq_true.mpr ⟨found,listed,by simpa [called] using named⟩]
    exact Bool.noConfusion
  | true =>
    have absent : ∀ value, (property,value) ∉ fields := fun value inside => by
      simpa using List.any_eq_false.mp there (property,value) inside
    have optional : ∀ found ∈ object.properties, found.name = property → found.optional = true := by
      intro found listed named
      by_contra required'
      obtain ⟨value,inside⟩ := required found listed (by simpa using required')
      exact absent value (named ▸ inside)
    refine not_congr ⟨fun declares => ?_,fun lost => ?_⟩
    · obtain ⟨found,listed,named⟩ := List.any_eq_true.mp declares
      exact .optional is ⟨found,listed,by simpa using named⟩ optional
    · cases lost with
      | optional found declares _ =>
        obtain ⟨property,listed,named⟩ := declares
        cases «Type».objectType.inj (found.symm.trans is)
        exact List.any_eq_true.mpr ⟨property,listed,by simpa using named⟩

theorem inKeeps {property} (sound : Sound table) (built : Built table id) (passes : hasProperty arrayHas property value = some !negated) :
    HasType numberValue (narrowIn table id property negated).1 true value (narrowIn table id property negated).2 ↔
      ∃ member ∈ table.parts id, ¬Lost numberValue table (.has property) negated member ∧ HasType numberValue table true value member := by
  refine keepsFilter sound built (fun ty part => ?_) fun member listed typed => ?_
  · split
    all_goals try exact Narrow.noConfusion
    all_goals split <;> exact Narrow.noConfusion
  · have single := (built.parts sound listed).2
    have other : (∀ object, table.get member ≠ .objectType object) → ¬Lost numberValue table (.has property) negated member := fun other lost => by
      cases lost with
      | optional is _ _ => exact other _ is
    cases typed with
    | object is required inner declared =>
      rw [← hasRight (.object is required inner declared) passes is,is]
      simp
    | union is _ _ => exact absurd is (single.2.2.2 _)
    | array is _ =>
      rw [is] at other ⊢
      exact iff_of_true rfl (other fun _ => «Type».noConfusion)
    | function is =>
      rw [is] at other ⊢
      exact iff_of_true rfl (other fun _ => «Type».noConfusion)
    -- No other value has properties to ask for.
    | _ => exact absurd passes.symm (Option.some_ne_none _)

theorem digitZero {radix value digit} (read : digitValue radix digit = some value) : value = 0 ↔ digit = '0' := by
  unfold digitValue at read
  split at read
  · rw [← Option.some.inj read]
    constructor
    · intro zero
      unfold digitNumber at zero
      split at zero
      · rename_i isDigit
        have range : 48 ≤ digit.val ∧ digit.val ≤ 57 := by simpa [Char.isDigit] using isDigit
        have above : 48 ≤ digit.toNat := UInt32.le_iff_toNat_le.mp range.1
        have low : digit.toNat = '0'.toNat := Nat.le_antisymm (Nat.sub_eq_zero_iff_le.mp zero) above
        exact Char.toNat_inj.mp low
      · split at zero <;> exact absurd zero (Nat.succ_ne_zero _)
    · intro same
      rw [same]
      rfl
  · cases read

theorem digitsZero {radix} (positive : 0 < radix) (digits) {total value} (read : digitsValue radix total digits = some value) :
    value = 0 ↔ total = 0 ∧ ∀ digit ∈ digits, digit = '0' := by
  induction digits generalizing total with
  | nil => simp [Option.some.inj read]
  | cons digit rest ih =>
    obtain ⟨first,readFirst,readRest⟩ := Option.bind_eq_some_iff.mp read
    rw [ih readRest,List.forall_mem_cons,← digitZero readFirst,← and_assoc]
    rw [Nat.add_eq_zero_iff,Nat.mul_eq_zero,or_iff_right positive.ne']

theorem bigintZero {text value} (means : bigintValue text = some value) : value = 0 ↔ bigintLiteralIsZero text = true := by
  obtain ⟨⟨radix,digits⟩,split_,read⟩ := Option.bind_eq_some_iff.mp means
  have positive : 0 < radix := by
    unfold bigintDigits at split_
    split at split_
    · have same := Option.some.inj split_
      split at same <;> cases same <;> decide
    · cases split_
  simp only at read
  split at read
  · cases read
  · rename_i some_
    rw [digitsZero positive _ read]
    simp [bigintLiteralIsZero,split_,some_,or_iff_not_imp_left]

variable [DecidableEq Number] {zero : Number}

def truthyChoice (numberValue : String → Option Number) (zero : Number) (replacement : TypeId) (negated : Bool) (candidate : «Type») : Narrow :=
  if candidate = .boolean then .replace replacement
  else if negated then (if possiblyFalsy numberValue zero candidate then .keep else .drop)
  else if definitelyFalsy numberValue zero candidate then .drop else .keep

theorem truthyRight {replacement} (single : Single (table.get member)) (typed : HasType numberValue table exact value member)
    (passes : truthy zero value ≠ negated) (other : table.get member ≠ .boolean) :
    truthyChoice numberValue zero replacement negated (table.get member) = .keep := by
  unfold truthyChoice
  cases typed with
  | union is _ _ => exact absurd is (single.2.2.2 _)
  | boolean is => exact absurd is other
  | bigIntLiteral is means =>
    have zero := bigintZero means
    cases negated <;> simp_all [possiblyFalsy,definitelyFalsy,truthy]
  | _ => cases negated <;> simp_all [possiblyFalsy,definitelyFalsy,truthy]

theorem truthyKeeps (sound : Sound table) (built : Built table id) (passes : truthy zero value ≠ negated) :
    HasType numberValue (narrowTruthiness numberValue zero table id negated).1 exact value (narrowTruthiness numberValue zero table id negated).2 ↔
      ∃ member ∈ table.parts id, ¬Lost numberValue table .truthy negated member ∧ HasType numberValue table exact value member := by
  have kept := TypeTable.internKept table (.booleanLiteral !negated)
  have sound' : Sound (table.intern (.booleanLiteral !negated)).1 := sound.intern fun _ => «Type».noConfusion
  have stored : (table.intern (.booleanLiteral !negated)).1.get (table.intern (.booleanLiteral !negated)).2 = .booleanLiteral !negated :=
    TypeTable.internGet sound.toIndexed fun _ => «Type».noConfusion
  have run : narrowTruthiness numberValue zero table id negated = filter (table.intern (.booleanLiteral !negated)).1 id fun _ candidate =>
      truthyChoice numberValue zero (table.intern (.booleanLiteral !negated)).2 negated candidate := rfl
  rw [run]
  generalize table.intern (.booleanLiteral !negated) = made at kept sound' stored ⊢
  have builtLiteral : Built made.1 made.2 := .primitive (by rw [stored]; rfl)
  have replaced : ∀ ty part, truthyChoice numberValue zero made.2 negated ty = .replace part → ty = .boolean ∧ part = made.2 := by
    intro ty part choice
    unfold truthyChoice at choice
    split at choice
    · exact ⟨‹_›,(Narrow.replace.inj choice).symm⟩
    · split at choice <;> split at choice <;> cases choice
  have single : ∀ ty part, truthyChoice numberValue zero made.2 negated ty = .replace part →
      ty ≠ .never ∧ made.1.Valid part ∧ Single (made.1.get part) := by
    intro ty part choice
    obtain ⟨isBoolean,same⟩ := replaced ty part choice
    rw [isBoolean,same]
    exact ⟨«Type».noConfusion,builtLiteral.valid,by simp [stored,Single]⟩
  have result : Interned made.1 {part | ∃ member ∈ made.1.parts id, decided (fun _ ty => truthyChoice numberValue zero made.2 negated ty) made.1 member part}
      (filter made.1 id fun _ ty => truthyChoice numberValue zero made.2 negated ty) := filterInterned sound' (built.kept kept) single
  rw [internedHasType result fun part ⟨member,listed,chosen⟩ => by
    obtain ⟨_,same⟩ | choice := chosen
    · exact same ▸ ((built.kept kept).parts sound' listed).1
    · exact (replaced _ _ choice).2 ▸ builtLiteral]
  simp only [Set.mem_ofPred_eq,kept.parts built.valid]
  constructor
  · rintro ⟨part,⟨member,listed,chosen⟩,typed⟩
    have builtMember := (built.parts sound listed).1
    refine ⟨member,listed,(fun lost => nomatch lost),?_⟩
    obtain ⟨_,same⟩ | choice := chosen
    · exact (builtMember.hasType kept).mp (same ▸ typed)
    · obtain ⟨isBoolean,same⟩ := replaced _ _ choice
      rw [same] at typed
      rw [kept.get builtMember.valid] at isBoolean
      rw [typed.ofBooleanLiteral stored]
      exact .boolean isBoolean
  · rintro ⟨member,listed,_,typed⟩
    have ⟨builtMember,single⟩ := built.parts sound listed
    by_cases isBoolean : table.get member = .boolean
    · refine ⟨made.2,⟨member,listed,Or.inr ?_⟩,?_⟩
      · simp [truthyChoice,kept.get builtMember.valid,isBoolean]
      · obtain ⟨truth,rfl⟩ := typed.ofBoolean isBoolean
        have same : truth = !negated := Bool.eq_not.mpr passes
        exact same ▸ .booleanLiteral stored
    · have typed' := (builtMember.hasType kept).mpr typed
      rw [← kept.get builtMember.valid] at single isBoolean
      exact ⟨member,⟨member,listed,Or.inl ⟨truthyRight single typed' passes isBoolean,rfl⟩⟩,typed'⟩

end

section
variable {Number : Type} {numberValue : String → Option Number} {structural : TypeId → TypeId → Bool} {table : TypeTable}
  {id member lit : TypeId} {value : Value Number} {exact : Bool} {members : List TypeId}

open TypeTable (Single Sound Interned Kept)

theorem literalPlain (isLiteral : literal (table.get lit) = true) : plain (table.get lit) = true ∧ ∀ members, table.get lit ≠ .union members := by
  cases kind : table.get lit <;> simp_all [literal,plain,simple]

theorem builtPlain (built : Built table member) (single : Single (table.get member)) : plain (table.get member) = true := by
  cases built with
  | primitive is => cases kind : table.get member <;> simp_all [Checker.primitive,plain,simple,extreme]
  | array is _ => simp [is,plain,composite]
  | object is _ => simp [is,plain,composite]
  | function is => simp [is,plain,composite]
  | union is _ => exact absurd is (single.2.2.2 _)

theorem assignableSingle {source target} (first : ∀ members, table.get source ≠ .union members)
    (second : ∀ members, table.get target ≠ .union members) : assignable structural table source target = relatesSingle structural table source target := by
  have member : relatesMember structural table source target = relatesSingle structural table source target := by
    unfold relatesMember
    split
    · exact absurd ‹_› (second _)
    · rfl
  unfold assignable
  split
  · exact absurd ‹_› (first _)
  · rw [member]
    unfold relatesSingle
    rw [← Bool.or_assoc,Bool.or_self]

theorem toLiteral (built : Built table member) (single : Single (table.get member)) (isLiteral : literal (table.get lit) = true) :
    assignable structural table member lit = true ↔ member = lit ∨ table.get member = .null ∨ table.get member = .undefined := by
  rw [assignableSingle single.2.2.2 (literalPlain isLiteral).2,relatesSingle,builtPlain built single,(literalPlain isLiteral).1]
  cases built with
  | union is _ => exact absurd is (single.2.2.2 _)
  | primitive is => cases kind : table.get lit <;> simp only [kind,literal,Bool.false_eq_true] at isLiteral <;>
      cases kind' : table.get member <;> simp_all [Checker.primitive,simple,Single]
  | _ => cases kind : table.get lit <;> simp_all [literal,simple,Single]

theorem literalValue (isLiteral : literal (table.get lit) = true) (passes : HasType numberValue table exact value lit) (callable fields) : value ≠ .object callable fields := by
  intro same
  cases passes with
  | object is _ _ _ => simp [is,literal] at isLiteral
  | function is => simp [is,literal] at isLiteral
  | union is _ _ => exact (literalPlain isLiteral).2 _ is
  | _ => cases same

theorem fitsOrLost (sound : Sound table) (single : Single (table.get member)) (isLiteral : literal (table.get lit) = true)
    (typed : HasType numberValue table exact value member) (passes : HasType numberValue table false value lit) :
    assignable structural table lit member = true ∨ Lost numberValue table (.equals lit) false member := by
  by_cases same : table.get lit = table.get member
  · have equal : lit = member := sound.idOfKey (validOfGet passes.known) (validOfGet typed.known) (congrArg _ same)
    simp [equal,assignable]
  rw [assignableSingle (literalPlain isLiteral).2 single.2.2.2,relatesSingle]
  cases typed with
  | union is _ _ => exact absurd is (single.2.2.2 _)
  | numberLiteral is means =>
    cases passes with
    | numberLiteral is' means' => exact Or.inr (.number is is' (means.trans means'.symm) fun text => same (by rw [is,is',text]))
    | _ => simp_all [literal]
  | bigIntLiteral is means =>
    generalize equal : Value.bigint _ = value at passes
    cases passes with
    | bigIntLiteral kind means' =>
      have spelled := means.trans (congrArg some (Int.ofNat.inj (Value.bigint.inj equal))) |>.trans means'.symm
      exact Or.inr (.bigint is kind spelled fun text => same (by rw [is,kind,text]))
    | bigint kind => simp [kind,literal] at isLiteral
    | union kind _ _ => exact absurd kind ((literalPlain isLiteral).2 _)
    | _ => cases equal
  | object is _ _ _ => exact absurd rfl (literalValue isLiteral passes _ _)
  | function is => exact absurd rfl (literalValue isLiteral passes _ _)
  | _ => cases passes <;> simp_all [literal,plain,simple]

theorem fitsNotLost (isLiteral : literal (table.get lit) = true) (single : Single (table.get member))
    (fits : assignable structural table lit member = true) : ¬Lost numberValue table (.equals lit) false member := by
  intro lost
  rw [assignableSingle (literalPlain isLiteral).2 single.2.2.2,relatesSingle] at fits
  cases lost with
  | number is guard _ differ =>
    have other : lit ≠ member := fun equal => differ («Type».numberLiteral.inj (is.symm.trans (equal ▸ guard)))
    simp [is,guard,other,plain,simple] at fits
  | bigint is guard _ differ =>
    have other : lit ≠ member := fun equal => differ («Type».bigIntLiteral.inj (is.symm.trans (equal ▸ guard)))
    simp [is,guard,other,plain,simple] at fits

theorem fitsHas (isLiteral : literal (table.get lit) = true) (built : Built table member) (single : Single (table.get member))
    (some_ : table.get lit ≠ .null ∧ table.get lit ≠ .undefined) (fits : assignable structural table lit member = true)
    (passes : HasType numberValue table exact value lit) : HasType numberValue table exact value member := by
  rw [assignableSingle (literalPlain isLiteral).2 single.2.2.2,relatesSingle,Bool.or_eq_true,decide_eq_true_eq] at fits
  obtain same | fits := fits
  · exact same ▸ passes
  rw [(literalPlain isLiteral).1,builtPlain built single] at fits
  cases built with
  | union is _ => exact absurd is (single.2.2.2 _)
  | primitive is =>
    cases passes with
    | booleanLiteral is' => cases kind : table.get member <;> simp_all [Checker.primitive,simple,Single]; exact .boolean kind
    | numberLiteral is' _ => cases kind : table.get member <;> simp_all [Checker.primitive,simple,Single]; exact .number kind
    | stringLiteral is' => cases kind : table.get member <;> simp_all [Checker.primitive,simple,Single]; exact .string kind
    | bigIntLiteral is' _ => cases kind : table.get member <;> simp_all [Checker.primitive,simple,Single]; exact .bigint kind
    | _ => simp_all [literal]
  | _ => cases kind : table.get lit <;> simp_all [literal,simple]

theorem nullishFits (nullish : table.get lit = .null ∨ table.get lit = .undefined) (built : Built table member) (single : Single (table.get member)) :
    relatesSingle structural table lit member = true := by
  have isPlain := builtPlain built single
  have some_ := single.2.2.1
  unfold relatesSingle
  obtain is | is := nullish <;> rw [is,isPlain] <;> cases kind : table.get member <;> simp_all [plain,simple]

theorem fitsUnion (built : Built table id) (isLiteral : literal (table.get lit) = true) (is : table.get id = .union members) (made : table.Made members) :
    assignable structural table lit id = true ↔ ∃ member ∈ members, assignable structural table lit member = true := by
  have plainLit := literalPlain isLiteral
  have singles : (∃ member ∈ members, assignable structural table lit member = true) ↔ ∃ member ∈ members, relatesSingle structural table lit member = true :=
    exists_congr fun member => and_congr_right fun listed => by rw [assignableSingle plainLit.2 (made.plain member listed).2.2.2.2]
  have different : lit ≠ id := fun equal => plainLit.2 members (equal ▸ is)
  rw [singles]
  unfold assignable
  split
  · exact absurd ‹_› (plainLit.2 _)
  · unfold relatesMember
    rw [is,decide_eq_false different,Bool.false_or]
    simp only [plainLit.1,if_true]
    by_cases nullish : table.get lit = .null ∨ table.get lit = .undefined
    · obtain ⟨first,listed⟩ := List.exists_mem_of_length_pos (lt_of_lt_of_le Nat.zero_lt_two made.several)
      have fits : relatesSingle structural table lit first = true := nullishFits nullish (built.arms is first listed) (made.plain first listed).2
      refine iff_of_true ?_ ⟨first,listed,fits⟩
      obtain kind | kind := nullish <;> rw [kind]
    · cases kind : table.get lit <;> simp_all [literal]

theorem unionFits (isLiteral : literal (table.get lit) = true) (is : table.get id = .union members) (made : table.Made members) :
    assignable structural table id lit = members.all (assignable structural table · lit) := by
  have plainLit := literalPlain isLiteral
  have different : id ≠ lit := fun equal => plainLit.2 members (equal ▸ is)
  have singles : ∀ member ∈ members, relatesMember structural table member lit = assignable structural table member lit := fun member listed => by
    rw [assignableSingle (made.plain member listed).2.2.2.2 plainLit.2,relatesMember]
    split
    · exact absurd ‹_› (plainLit.2 _)
    · rfl
  have each : members.all (relatesMember structural table · lit) = members.all (assignable structural table · lit) := by
    rw [Bool.eq_iff_iff,List.all_eq_true,List.all_eq_true]
    exact forall₂_congr fun member listed => by rw [singles member listed]
  rw [← each]
  unfold assignable
  cases kind : table.get lit <;> simp_all [literal,plain,simple]

theorem literalExcluded (isLiteral : literal (table.get lit) = true) :
    subtract structural table id lit = match table.get id with
      | .error | .intersection _ | .any | .unknown | .never => (table,id)
      | .union members => table.union (members.filter fun member => table.get member = .error || !assignable structural table member lit)
      | _ => if assignable structural table id lit then (table,table.never) else (table,id) := by
  unfold subtract
  cases kind : table.get lit <;> first | rfl | simp [kind,literal] at isLiteral

theorem subtractInterned (sound : Sound table) (built : Built table id) (isLiteral : literal (table.get lit) = true) :
    Interned table {member | member ∈ table.parts id ∧ assignable structural table member lit = false} (subtract structural table id lit) := by
  rw [literalExcluded isLiteral]
  obtain never | ⟨members,is,made⟩ | single := built.cases sound
  · have none : {member | member ∈ table.parts id ∧ assignable structural table member lit = false} = ∅ := by simp [TypeTable.parts,never]
    rw [none,never,sound.idOfKey built.valid sound.never.1 (by rw [sound.never.2,never])]
    exact internedNever sound
  · have same : {member | member ∈ table.parts id ∧ assignable structural table member lit = false} =
        {member | member ∈ members.filter (fun member => table.get member = .error || !assignable structural table member lit) ∧ table.get member ≠ .never} := by
      ext member
      simp only [TypeTable.parts,is,Set.mem_ofPred_eq,List.mem_filter,Bool.or_eq_true,decide_eq_true_eq,Bool.not_eq_true',and_assoc]
      refine and_congr_right fun listed => ?_
      simp [(built.arms is member listed).known,(made.plain member listed).2.2.2.1]
    rw [is,same]
    refine unionSingles sound fun member inside => ?_
    exact (made.plain member (List.mem_of_mem_filter inside)).imp_right Or.inl
  · have alone : {member | member ∈ table.parts id ∧ assignable structural table member lit = false} =
        {member | member = id ∧ assignable structural table id lit = false} := by
      ext member
      rw [TypeTable.partsSingle single]
      simp +contextual [and_congr_right_iff]
    have run : subtract structural table id lit = if assignable structural table id lit then (table,table.never) else (table,id) := by
      rw [literalExcluded isLiteral]
      have isPlain := builtPlain built single
      have known := built.known
      cases kind : table.get id <;> simp_all [plain,simple,composite,extreme,Single]
    rw [literalExcluded isLiteral] at run
    rw [run,alone]
    cases assignable structural table id lit with
    | true => simpa using internedNever sound
    | false => simpa using interned sound built.valid single

theorem intersectMemberLiteral (built : Built table member) (single : Single (table.get member)) (isLiteral : literal (table.get lit) = true) :
    intersectMember structural table member lit = (table,if assignable structural table lit member then lit
      else if assignable structural table member lit then member else table.never) := by
  have apart : ∀ members, table.get lit ≠ .union members := (literalPlain isLiteral).2
  have known := built.known
  unfold intersectMember
  split
  · exact absurd ‹_› known
  · exact absurd ‹_› single.1
  · exact absurd ‹_› single.2.1
  · exact absurd ‹_› single.2.2.1
  · split
    · rfl
    · split
      · rfl
      · split
        · exact absurd ‹_› (apart _)
        · rfl

theorem intersectEachLiteral (isLiteral : literal (table.get lit) = true) (plain : ∀ member ∈ members, Built table member ∧ Single (table.get member)) :
    intersectEach structural table members lit = table.union (members.map fun member => if assignable structural table lit member then lit
      else if assignable structural table member lit then member else table.never) := by
  have folded : ∀ parts, members.foldl (fun state member => ((intersectMember structural state.1 member lit).1,
      state.2 ++ [(intersectMember structural state.1 member lit).2])) (table,parts) = (table,parts ++ members.map fun member => if assignable structural table lit member then lit
        else if assignable structural table member lit then member else table.never) := by
    induction members with
    | nil => simp
    | cons member rest ih =>
      intro parts
      obtain ⟨built,single⟩ := plain member List.mem_cons_self
      rw [List.foldl_cons,intersectMemberLiteral built single isLiteral]
      rw [ih (fun other listed => plain other (List.mem_cons_of_mem _ listed)),List.map_cons,List.append_assoc,List.singleton_append]
  exact congrArg (fun state => state.1.union state.2) (folded [])

theorem intersectLiteral (sound : Sound table) (built : Built table id) (isLiteral : literal (table.get lit) = true) (some_ : table.get id ≠ .never) :
    intersect structural table id lit = if assignable structural table lit id then (table,lit)
      else if assignable structural table id lit then (table,id) else
      match table.get id with
      | .union members => table.union (members.map fun member => if assignable structural table lit member then lit
          else if assignable structural table member lit then member else table.never)
      | _ => (table,table.never) := by
  obtain never | ⟨members,is,made⟩ | single := built.cases sound
  · exact absurd never some_
  · have none : (members.any fun member => table.get member = .error) = false := by
      simpa using fun member listed => (built.arms is member listed).known
    have plain : ∀ member ∈ members, Built table member ∧ Single (table.get member) := fun member listed =>
      ⟨built.arms is member listed,(made.plain member listed).2⟩
    unfold intersect
    rw [is]
    simp only
    rw [none,intersectEachLiteral isLiteral plain]
    rfl
  · have run : intersect structural table id lit = intersectMember structural table id lit := by
      unfold intersect
      cases kind : table.get id with
      | union members => exact absurd kind (single.2.2.2 _)
      | _ => first | rfl | rw [intersectMember,kind]
    rw [run,intersectMemberLiteral built single isLiteral]
    split
    · rfl
    · split
      · rfl
      · split
        · exact absurd ‹_› (single.2.2.2 _)
        · rfl

theorem intersectApart (sound : Sound table) (built : Built table id) (isLiteral : literal (table.get lit) = true) (some_ : table.get id ≠ .never)
    (outside : ¬assignable structural table lit id = true) (beyond : ¬assignable structural table id lit = true) :
    Interned table {member | member ∈ table.parts id ∧ assignable structural table member lit = true} (intersect structural table id lit) := by
  rw [intersectLiteral sound built isLiteral some_,if_neg outside,if_neg beyond]
  obtain never | ⟨members,is,made⟩ | single := built.cases sound
  · exact absurd never some_
  · have apart : ∀ member ∈ members, ¬assignable structural table lit member = true := fun member listed fits =>
      outside ((fitsUnion built isLiteral is made).mpr ⟨member,listed,fits⟩)
    have chosen : (members.map fun member => if assignable structural table lit member then lit
        else if assignable structural table member lit then member else table.never) =
        members.map fun member => if assignable structural table member lit then member else table.never :=
      List.map_congr_left fun member listed => by rw [if_neg (apart member listed)]
    have same : {member | member ∈ table.parts id ∧ assignable structural table member lit = true} =
        {part | part ∈ (members.map fun member => if assignable structural table member lit then member else table.never) ∧ table.get part ≠ .never} := by
      ext part
      simp only [TypeTable.parts,is,Set.mem_ofPred_eq,List.mem_map]
      constructor
      · rintro ⟨listed,fits⟩
        exact ⟨⟨part,listed,if_pos fits⟩,(made.plain part listed).2.2.2.1⟩
      · rintro ⟨⟨member,listed,choice⟩,known⟩
        split at choice
        · rename_i fits
          exact choice ▸ ⟨listed,fits⟩
        · exact absurd (choice ▸ sound.never.2) known
    rw [is,same]
    simp only
    rw [chosen]
    refine unionSingles sound fun part inside => ?_
    obtain ⟨member,listed,choice⟩ := List.mem_map.mp inside
    split at choice
    · exact choice ▸ (made.plain member listed).imp_right Or.inl
    · exact choice ▸ ⟨sound.never.1,Or.inr sound.never.2⟩
  · have none : {member | member ∈ table.parts id ∧ assignable structural table member lit = true} = ∅ := by
      ext member
      rw [TypeTable.partsSingle single]
      simp +contextual [beyond]
    have never := internedNever sound
    rw [none]
    split
    · exact absurd ‹_› (single.2.2.2 _)
    · exact never

theorem unequalKeeps (sound : Sound table) (built : Built table id) (isLiteral : literal (table.get lit) = true)
    (passes : ¬HasType numberValue table exact value lit) :
    HasType numberValue (subtract structural table id lit).1 exact value (subtract structural table id lit).2 ↔
      ∃ member ∈ table.parts id, ¬Lost numberValue table (.equals lit) true member ∧ HasType numberValue table exact value member := by
  rw [internedHasType (subtractInterned sound built isLiteral) fun member inside => (built.parts sound inside.1).1]
  simp only [Set.mem_ofPred_eq,and_assoc]
  refine exists_congr fun member => and_congr_right fun listed => and_congr_left fun typed => ?_
  obtain ⟨builtMember,single⟩ := built.parts sound listed
  have other : member ≠ lit := fun equal => passes (equal ▸ typed)
  rw [← Bool.not_eq_true,toLiteral builtMember single isLiteral,or_iff_right other]
  refine not_congr ⟨fun nullish => .nullish nullish other,fun lost => ?_⟩
  cases lost with
  | nullish is _ => exact is

theorem equalKeeps (sound : Sound table) (built : Built table id) (isLiteral : literal (table.get lit) = true)
    (typed : HasType numberValue table false value id) (passes : HasType numberValue table false value lit) :
    HasType numberValue (intersect structural table id lit).1 false value (intersect structural table id lit).2 ↔
      ∃ member ∈ table.parts id, ¬Lost numberValue table (.equals lit) false member ∧ HasType numberValue table false value member := by
  obtain ⟨part,listed,typedPart⟩ := (hasTypeParts id).mp typed
  obtain ⟨builtPart,single⟩ := built.parts sound listed
  have some_ : table.get id ≠ .never := fun never => by simp [TypeTable.parts,never] at listed
  have fitsPart : assignable structural table lit id = true ↔ ∃ member ∈ table.parts id, assignable structural table lit member = true := by
    obtain never | ⟨members,is,made⟩ | single := built.cases sound
    · exact absurd never some_
    · simpa [TypeTable.parts,is] using fitsUnion built isLiteral is made
    · simp [TypeTable.partsSingle single]
  have partFits : assignable structural table id lit = true → ∀ member ∈ table.parts id, assignable structural table member lit = true := by
    intro fits
    obtain never | ⟨members,is,made⟩ | single := built.cases sound
    · exact absurd never some_
    · rw [unionFits isLiteral is made,List.all_eq_true] at fits
      simpa [TypeTable.parts,is] using fits
    · simpa [TypeTable.partsSingle single] using fits
  by_cases inside : assignable structural table lit id = true
  · rw [intersectLiteral sound built isLiteral some_,if_pos inside]
    refine iff_of_true passes ?_
    obtain ⟨member,listed',fits⟩ := fitsPart.mp inside
    obtain ⟨builtMember,single'⟩ := built.parts sound listed'
    by_cases nullish : table.get lit = .null ∨ table.get lit = .undefined
    · refine ⟨part,listed,fun lost => ?_,typedPart⟩
      cases lost with
      | number _ guard _ _ => simp [guard] at nullish
      | bigint _ guard _ _ => simp [guard] at nullish
    · exact ⟨member,listed',fitsNotLost isLiteral single' fits,fitsHas isLiteral builtMember single' (not_or.mp nullish) fits passes⟩
  by_cases within : assignable structural table id lit = true
  · rw [intersectLiteral sound built isLiteral some_,if_neg inside,if_pos within]
    refine iff_of_true typed ⟨part,listed,fun lost => ?_,typedPart⟩
    obtain same | nullish := (toLiteral builtPart single isLiteral).mp (partFits within part listed)
    · exact inside (fitsPart.mpr ⟨part,listed,by simp [same,assignable]⟩)
    · cases lost with
      | number is _ _ _ => simp [is] at nullish
      | bigint is _ _ _ => simp [is] at nullish
  · rw [internedHasType (intersectApart sound built isLiteral some_ inside within) fun member inside => (built.parts sound inside.1).1]
    have lost : ∀ member ∈ table.parts id, HasType numberValue table false value member → Lost numberValue table (.equals lit) false member := by
      intro member listed typed
      have either : assignable structural table lit member = true ∨ Lost numberValue table (.equals lit) false member :=
        fitsOrLost sound (built.parts sound listed).2 isLiteral typed passes
      obtain fits | lost := either
      · exact absurd (fitsPart.mpr ⟨member,listed,fits⟩) inside
      · exact lost
    refine iff_of_false ?_ (by rintro ⟨member,listed,notLost,typed⟩; exact notLost (lost member listed typed))
    rintro ⟨member,⟨listed,fits⟩,typed⟩
    obtain ⟨builtMember,single⟩ := built.parts sound listed
    obtain same | nullish := (toLiteral builtMember single isLiteral).mp fits
    · exact inside (fitsPart.mpr ⟨member,listed,by simp [same,assignable]⟩)
    · cases lost member listed typed with
      | number is _ _ _ => simp [is] at nullish
      | bigint is _ _ _ => simp [is] at nullish

end

section
variable {Number : Type} [DecidableEq Number] {numberValue : String → Option Number} {zero : Number} {arrayHas : List (Value Number) → String → Bool}
  {structural : TypeId → TypeId → Bool} {table : TypeTable} {id : TypeId} {guard : Guard} {negated : Bool}

theorem narrowKeeps (sound : TypeTable.Sound table) (built : Built table id) (asked : guard.Valid table) {value}
    (typed : HasType numberValue table guard.exact value id) (passes : Passes numberValue zero arrayHas table guard negated value) :
    HasType numberValue (narrow numberValue zero structural table id guard negated).1 guard.exact value (narrow numberValue zero structural table id guard negated).2 ↔
      ∃ member ∈ table.parts id, ¬Lost numberValue table guard negated member ∧ HasType numberValue table guard.exact value member := by
  cases guard with
  | typeof name => exact typeofKeeps sound built passes
  | has property => exact inKeeps sound built passes
  | truthy => exact truthyKeeps sound built passes
  | equals literal =>
    cases negated with
    | true => exact unequalKeeps sound built (asked literal rfl) fun is => Bool.noConfusion (passes.mp is)
    | false => exact equalKeeps sound built (asked literal rfl) typed (passes.mpr rfl)

theorem narrowKeepsExact (reached : TypeTable.Later TypeTable.new table) (built : Built table id) (asked : guard.Valid table) :
    (∀ value, HasType numberValue table guard.exact value id → Passes numberValue zero arrayHas table guard negated value →
      HasType numberValue (narrow numberValue zero structural table id guard negated).1 guard.exact value
        (narrow numberValue zero structural table id guard negated).2) ↔
    ∀ lost ∈ table.parts id, Lost numberValue table guard negated lost →
      ∀ value, HasType numberValue table guard.exact value lost → Passes numberValue zero arrayHas table guard negated value →
        ∃ member ∈ table.parts id, ¬Lost numberValue table guard negated member ∧ HasType numberValue table guard.exact value member := by
  have sound := (reached.sound TypeTable.newSound).1
  constructor
  · intro keeps lost listed _ value typed passes
    have whole := (hasTypeParts id).mpr ⟨lost,listed,typed⟩
    exact (narrowKeeps sound built asked whole passes).mp (keeps value whole passes)
  · intro covered value typed passes
    rw [narrowKeeps sound built asked typed passes]
    obtain ⟨member,listed,typedMember⟩ := (hasTypeParts id).mp typed
    by_cases lost : Lost numberValue table guard negated member
    · exact covered member listed lost value typedMember passes
    · exact ⟨member,listed,lost,typedMember⟩

end

section

def nullOrA : (TypeTable × TypeId) × TypeId :=
  let a := TypeTable.new.intern (.stringLiteral ⟨[97]⟩)
  (a.1.union [a.1.null,a.2],a.2)

theorem nullOrReached : TypeTable.Later TypeTable.new nullOrA.1.1 :=
  .tail (.single (.intern (.stringLiteral ⟨[97]⟩) fun _ => «Type».noConfusion)) (.union _ (by decide))

theorem nullOrBuilt : Built nullOrA.1.1 nullOrA.1.2 := by
  have is : nullOrA.1.1.get nullOrA.1.2 = .union [nullOrA.1.1.null,nullOrA.2] := by decide
  refine .union is fun member listed => ?_
  simp only [List.mem_cons,List.not_mem_nil,or_false] at listed
  obtain same | same := listed <;> rw [same] <;> exact .primitive (by decide)

theorem narrowKeepsExactNull :
    (∀ value, HasType String.toNat? nullOrA.1.1 false value nullOrA.1.2 →
      Passes String.toNat? 0 (fun _ _ => false) nullOrA.1.1 (.equals nullOrA.1.1.null) true value →
      HasType String.toNat? (narrow String.toNat? 0 (fun _ _ => false) nullOrA.1.1 nullOrA.1.2 (.equals nullOrA.1.1.null) true).1 false value
        (narrow String.toNat? 0 (fun _ _ => false) nullOrA.1.1 nullOrA.1.2 (.equals nullOrA.1.1.null) true).2) ↔
    ∀ lost ∈ nullOrA.1.1.parts nullOrA.1.2, Lost String.toNat? nullOrA.1.1 (.equals nullOrA.1.1.null) true lost →
      ∀ value, HasType String.toNat? nullOrA.1.1 false value lost →
        Passes String.toNat? 0 (fun _ _ => false) nullOrA.1.1 (.equals nullOrA.1.1.null) true value →
        ∃ member ∈ nullOrA.1.1.parts nullOrA.1.2, ¬Lost String.toNat? nullOrA.1.1 (.equals nullOrA.1.1.null) true member ∧
          HasType String.toNat? nullOrA.1.1 false value member :=
  narrowKeepsExact nullOrReached nullOrBuilt fun id same => Guard.equals.inj same ▸ by decide

-- `x !== "a"` removes `null`, which is assignable to `"a"`.
theorem narrowLosesNull : ¬∀ table, TypeTable.Later TypeTable.new table → ∀ id, Built table id → ∀ guard : Guard, guard.Valid table →
    ∀ negated value, HasType String.toNat? table guard.exact value id → Passes String.toNat? 0 (fun _ _ => false) table guard negated value →
      HasType String.toNat? (narrow String.toNat? 0 (fun _ _ => false) table id guard negated).1 guard.exact value
        (narrow String.toNat? 0 (fun _ _ => false) table id guard negated).2 := by
  intro keeps
  have listed : nullOrA.1.1.get nullOrA.1.2 = .union [nullOrA.1.1.null,nullOrA.2] := by decide
  have typed : HasType String.toNat? nullOrA.1.1 false .null nullOrA.1.2 :=
    .union listed List.mem_cons_self (.null (by decide))
  have isText : nullOrA.1.1.get nullOrA.2 = .stringLiteral ⟨[97]⟩ := by decide
  have other : ¬HasType String.toNat? nullOrA.1.1 false .null nullOrA.2 := fun typed => by
    cases typed <;> rename_i is <;> cases isText.symm.trans is
  have kept := keeps _ nullOrReached _ nullOrBuilt (.equals nullOrA.2) (fun id same => Guard.equals.inj same ▸ by decide) true .null typed
    (iff_of_false other Bool.noConfusion)
  have never : (narrow String.toNat? 0 (fun _ _ => false) nullOrA.1.1 nullOrA.1.2 (.equals nullOrA.2) true).1.get
      (narrow String.toNat? 0 (fun _ _ => false) nullOrA.1.1 nullOrA.1.2 (.equals nullOrA.2) true).2 = .never := by decide
  obtain ⟨part,listed,_⟩ := (hasTypeParts _).mp kept
  simp [TypeTable.parts,never] at listed

end

end Bamts.Checker
