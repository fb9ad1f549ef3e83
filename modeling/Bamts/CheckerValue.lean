import Bamts.CheckerNarrow

/-! The values of a type at run time, and the outcome of a guard on a value. -/
set_option linter.all false
namespace Bamts.Checker
open Bamts.Bytecode (EcmaString)

inductive Value (Number : Type) where
  | null | undefined | nan
  | boolean (value : Bool)
  | number (value : Number)
  | bigint (value : Int)
  | string (value : EcmaString)
  | array (elements : List (Value Number))
  | object (callable : Bool) (fields : List (String × Value Number))

def digitNumber (digit : Char) : Nat :=
  if digit.isDigit then digit.toNat - '0'.toNat else if digit.isLower then digit.toNat - 'a'.toNat+10 else digit.toNat - 'A'.toNat+10

def digitValue (radix : Nat) (digit : Char) : Option Nat :=
  if digit.isAlphanum ∧ digitNumber digit < radix then some (digitNumber digit) else none

def digitsValue (radix : Nat) : Nat → List Char → Option Nat
  | total,[] => some total
  | total,digit :: rest => (digitValue radix digit).bind fun value => digitsValue radix (radix*total+value) rest

def bigintValue (lexeme : String) : Option Nat :=
  (bigintDigits lexeme.toList).bind fun (radix,digits) =>
    if digits.isEmpty then none else digitsValue radix 0 (digits.filter (· ≠ '_'))

section
variable {Number : Type} (numberValue : String → Option Number)

inductive HasType (table : TypeTable) (exact : Bool) : Value Number → TypeId → Prop
  | null {id : TypeId} (is : table.get id = .null) : HasType table exact .null id
  | undefined {id : TypeId} (is : table.get id = .undefined) : HasType table exact .undefined id
  | boolean {id : TypeId} {value : Bool} (is : table.get id = .boolean) : HasType table exact (.boolean value) id
  | number {id : TypeId} {value : Number} (is : table.get id = .number) : HasType table exact (.number value) id
  | nan {id : TypeId} (is : table.get id = .number) : HasType table exact .nan id
  | bigint {id : TypeId} {value : Int} (is : table.get id = .bigInt) : HasType table exact (.bigint value) id
  | string {id : TypeId} {value : EcmaString} (is : table.get id = .string) : HasType table exact (.string value) id
  | booleanLiteral {id : TypeId} {value : Bool} (is : table.get id = .booleanLiteral value) : HasType table exact (.boolean value) id
  | numberLiteral {id : TypeId} {text : String} {value : Number} (is : table.get id = .numberLiteral text)
      (means : numberValue text = some value) : HasType table exact (.number value) id
  | stringLiteral {id : TypeId} {value : EcmaString} (is : table.get id = .stringLiteral value) : HasType table exact (.string value) id
  | bigIntLiteral {id : TypeId} {text : String} {value : Nat} (is : table.get id = .bigIntLiteral text)
      (means : bigintValue text = some value) : HasType table exact (.bigint value) id
  | array {id element : TypeId} {elements : List (Value Number)} (is : table.get id = .array element)
      (typed : ∀ value ∈ elements, HasType table exact value element) : HasType table exact (.array elements) id
  | object {id : TypeId} {object : ObjectType} {fields : List (String × Value Number)} (is : table.get id = .objectType object)
      (required : ∀ property ∈ object.properties, property.optional = false → ∃ value, (property.name,value) ∈ fields)
      (typed : ∀ property ∈ object.properties, ∀ value, (property.name,value) ∈ fields → HasType table exact value property.typeId)
      (declared : exact = true → ∀ field ∈ fields, ∃ property ∈ object.properties, property.name = field.1) :
      HasType table exact (.object (!object.callSignatures.isEmpty) fields) id
  | function {id : TypeId} {signature : FunctionSignature} {fields : List (String × Value Number)} (is : table.get id = .function signature) :
      HasType table exact (.object true fields) id
  | union {id member : TypeId} {members : List TypeId} {value : Value Number} (is : table.get id = .union members) (inside : member ∈ members)
      (typed : HasType table exact value member) : HasType table exact value id

end

def primitive : «Type» → Bool
  | .never | .null | .undefined | .boolean | .number | .bigInt | .string => true
  | .booleanLiteral _ | .numberLiteral _ | .stringLiteral _ | .bigIntLiteral _ => true
  | _ => false

inductive Built (table : TypeTable) : TypeId → Prop
  | primitive {id : TypeId} (is : primitive (table.get id) = true) : Built table id
  | array {id element : TypeId} (is : table.get id = .array element) (element : Built table element) : Built table id
  | object {id : TypeId} {object : ObjectType} (is : table.get id = .objectType object)
      (properties : ∀ property ∈ object.properties, Built table property.typeId) : Built table id
  | function {id : TypeId} {signature : FunctionSignature} (is : table.get id = .function signature) : Built table id
  | union {id : TypeId} {members : List TypeId} (is : table.get id = .union members) (arms : ∀ member ∈ members, Built table member) : Built table id

section
variable {Number : Type} {numberValue : String → Option Number} {table later : TypeTable} {exact : Bool} {id : TypeId} {value : Value Number}

theorem validOfGet (known : table.get id ≠ .error) : table.Valid id := by
  by_contra outside
  exact known (by simp [TypeTable.get,List.getElem?_eq_none (Nat.le_of_not_lt outside)])

theorem Built.known (built : Built table id) : table.get id ≠ .error := by
  intro error
  cases built with
  | primitive is =>
    rw [error] at is
    cases is
  | array is _ => cases error.symm.trans is
  | object is _ => cases error.symm.trans is
  | function is => cases error.symm.trans is
  | union is _ => cases error.symm.trans is

theorem Built.valid (built : Built table id) : table.Valid id := validOfGet built.known

theorem Built.kept (built : Built table id) (kept : TypeTable.Kept table later) : Built later id := by
  induction built with
  | primitive is =>
    have valid : table.Valid _ := Built.valid (.primitive is)
    exact .primitive (by rw [kept.get valid,is])
  | array is element ih => exact .array (by rw [kept.get (Built.valid (.array is element)),is]) ih
  | object is properties ih => exact .object (by rw [kept.get (Built.valid (.object is properties)),is]) ih
  | function is => exact .function (by rw [kept.get (Built.valid (.function is)),is])
  | union is arms ih => exact .union (by rw [kept.get (Built.valid (.union is arms)),is]) ih

theorem Built.element {element} (built : Built table id) (is : table.get id = .array element) : Built table element := by
  cases built with
  | primitive kind =>
    rw [is] at kind
    cases kind
  | array found inner => exact «Type».array.inj (found.symm.trans is) ▸ inner
  | object found _ => cases is.symm.trans found
  | function found => cases is.symm.trans found
  | union found _ => cases is.symm.trans found

theorem Built.properties {object} (built : Built table id) (is : table.get id = .objectType object) :
    ∀ property ∈ object.properties, Built table property.typeId := by
  cases built with
  | primitive kind =>
    rw [is] at kind
    cases kind
  | array found _ => cases is.symm.trans found
  | object found inner => exact «Type».objectType.inj (found.symm.trans is) ▸ inner
  | function found => cases is.symm.trans found
  | union found _ => cases is.symm.trans found

theorem Built.arms {members} (built : Built table id) (is : table.get id = .union members) : ∀ member ∈ members, Built table member := by
  cases built with
  | primitive kind =>
    rw [is] at kind
    cases kind
  | array found _ => cases is.symm.trans found
  | object found _ => cases is.symm.trans found
  | function found => cases is.symm.trans found
  | union found inner => exact «Type».union.inj (found.symm.trans is) ▸ inner

-- Tables that agree on what `id` is built from give it the same values.
theorem HasType.across {a b} (first : ∀ id, Built table id → a.get id = table.get id) (second : ∀ id, Built table id → b.get id = table.get id)
    (typed : HasType numberValue a exact value id) (built : Built table id) : HasType numberValue b exact value id := by
  have same : b.get _ = a.get _ := (second _ built).trans (first _ built).symm
  induction typed with
  | null is => exact .null (same.trans is)
  | undefined is => exact .undefined (same.trans is)
  | boolean is => exact .boolean (same.trans is)
  | number is => exact .number (same.trans is)
  | nan is => exact .nan (same.trans is)
  | bigint is => exact .bigint (same.trans is)
  | string is => exact .string (same.trans is)
  | booleanLiteral is => exact .booleanLiteral (same.trans is)
  | numberLiteral is means => exact .numberLiteral (same.trans is) means
  | stringLiteral is => exact .stringLiteral (same.trans is)
  | bigIntLiteral is means => exact .bigIntLiteral (same.trans is) means
  | array is typed ih =>
    have element := built.element ((first _ built).symm.trans is)
    exact .array (same.trans is) fun value inside => ih value inside element ((second _ element).trans (first _ element).symm)
  | object is required typed declared ih =>
    have properties := built.properties ((first _ built).symm.trans is)
    refine .object (same.trans is) required (fun property inside value field => ?_) declared
    exact ih property inside value field (properties property inside) ((second _ (properties property inside)).trans (first _ (properties property inside)).symm)
  | function is => exact .function (same.trans is)
  | union is inside typed ih =>
    have arm := built.arms ((first _ built).symm.trans is) _ inside
    exact .union (same.trans is) inside (ih arm ((second _ arm).trans (first _ arm).symm))

theorem Built.hasType (built : Built table id) (kept : TypeTable.Kept table later) :
    HasType numberValue later exact value id ↔ HasType numberValue table exact value id := by
  have same : ∀ id, Built table id → later.get id = table.get id := fun id built => kept.get built.valid
  exact ⟨fun typed => typed.across same (fun _ _ => rfl) built,fun typed => typed.across (fun _ _ => rfl) same built⟩

theorem HasType.known (typed : HasType numberValue table exact value id) : table.get id ≠ .error := by
  intro error
  cases typed <;> rename_i is <;> cases error.symm.trans is

theorem HasType.ofBoolean (typed : HasType numberValue table exact value id) (is : table.get id = .boolean) : ∃ truth, value = .boolean truth := by
  cases typed with
  | boolean _ => exact ⟨_,rfl⟩
  | _ => rename_i found; cases is.symm.trans found

theorem HasType.ofBooleanLiteral {truth} (typed : HasType numberValue table exact value id) (is : table.get id = .booleanLiteral truth) :
    value = .boolean truth := by
  cases typed with
  | booleanLiteral found => rw [«Type».booleanLiteral.inj (found.symm.trans is)]
  | _ => rename_i found; cases is.symm.trans found

theorem HasType.ofObject {object} (typed : HasType numberValue table exact value id) (is : table.get id = .objectType object) :
    ∃ fields, value = .object (!object.callSignatures.isEmpty) fields ∧
      (∀ property ∈ object.properties, property.optional = false → ∃ value, (property.name,value) ∈ fields) ∧
      (exact = true → ∀ field ∈ fields, ∃ property ∈ object.properties, property.name = field.1) := by
  cases typed with
  | object found required typed declared =>
    cases «Type».objectType.inj (found.symm.trans is)
    exact ⟨_,rfl,required,declared⟩
  | _ => rename_i found; cases is.symm.trans found

theorem hasTypeUnion {members} (is : table.get id = .union members) :
    HasType numberValue table exact value id ↔ ∃ member ∈ members, HasType numberValue table exact value member := by
  constructor
  · intro typed
    cases typed with
    | union found inside typed => exact ⟨_,«Type».union.inj (found.symm.trans is) ▸ inside,typed⟩
    | _ => rename_i found; cases is.symm.trans found
  · intro ⟨member,inside,typed⟩
    exact .union is inside typed

theorem hasTypeParts (id) :
    HasType numberValue table exact value id ↔ ∃ part ∈ table.parts id, HasType numberValue table exact value part := by
  unfold TypeTable.parts
  split
  · rename_i never
    simp only [List.not_mem_nil,false_and,exists_false,iff_false]
    intro typed
    cases typed <;> rename_i found <;> cases never.symm.trans found
  · rename_i members is
    exact hasTypeUnion is
  · simp

end

end Bamts.Checker
