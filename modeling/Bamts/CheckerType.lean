import Bamts.BytecodeModel

/-! The types of the checker. Types refer to each other through the ids of the table that interns them. -/
set_option linter.all false
namespace Bamts.Checker
open Bamts.Bytecode (EcmaString)

structure SymbolId where
  get : Nat
  deriving DecidableEq, Repr

structure TypeId where
  get : Nat
  deriving DecidableEq, Repr

inductive Accessibility where
  | public_ | protected_ | private_
  deriving DecidableEq, Repr

structure PropertyType where
  name : String
  optional : Bool
  readonly : Bool
  getterOnly : Bool
  typeId : TypeId
  access : Accessibility
  declaringClass : Option SymbolId
  declaringTypes : List SymbolId
  isMethod : Bool
  spreadable : Bool
  accessor : Bool
  deriving DecidableEq, Repr

structure IteratorProperty where
  typeId : TypeId
  optional : Bool
  access : Accessibility
  declaringClass : Option SymbolId
  declaringTypes : List SymbolId
  isMethod : Bool
  spreadable : Bool
  deriving DecidableEq, Repr

structure FunctionParameter where
  name : String
  typeId : TypeId
  optional : Bool
  rest : Bool
  deriving DecidableEq, Repr

structure TypeParameterBounds where
  constraint : Option TypeId
  default_ : Option TypeId
  deriving DecidableEq, Repr

structure FunctionSignature where
  typeParameters : List SymbolId
  typeParameterBounds : List TypeParameterBounds
  parameters : List FunctionParameter
  returnType : TypeId
  declaredReturn : Option TypeId
  declaringTypes : List SymbolId
  javascript : Bool
  deriving DecidableEq, Repr

structure ConstructEntry where
  signature : FunctionSignature
  isAbstract : Bool
  deriving DecidableEq, Repr

structure IndexSignature where
  readonly : Bool
  parameters : List FunctionParameter
  valueType : TypeId
  declaringTypes : List SymbolId
  deriving DecidableEq, Repr

structure ObjectType where
  properties : List PropertyType
  callSignatures : List FunctionSignature
  callCandidateOrder : List Nat
  constructSignatures : List ConstructEntry
  indexSignatures : List IndexSignature
  generatorReturn : Option TypeId
  iteratorProperty : Option IteratorProperty
  asyncIteratorProperty : Option IteratorProperty
  deriving DecidableEq, Repr

-- Fixed elements, of which the first `required` must be there, then a rest, then elements that must be there.
structure TupleShape where
  prefix_ : List TypeId
  required : Nat
  rest : Option TypeId
  suffix : List TypeId
  deriving DecidableEq, Repr

inductive «Type» where
  | error | any | unknown | never | void | null | undefined | boolean | number | bigInt | string | symbol | object
  | booleanLiteral (value : Bool)
  | numberLiteral (text : String)
  | stringLiteral (value : EcmaString)
  | bigIntLiteral (text : String)
  | array (element : TypeId)
  | tuple (shape : TupleShape)
  | union (members : List TypeId)
  | intersection (members : List TypeId)
  | objectType (object : ObjectType)
  | function (signature : FunctionSignature)
  | named (symbol : SymbolId)
  | appliedClass (symbol : SymbolId) (arguments : List TypeId)
  | appliedAlias (symbol : SymbolId) (arguments : List TypeId)
  | numericEnum (symbol : SymbolId)
  | enumMember (enumSymbol memberSymbol : SymbolId) (stringValue : Option EcmaString)
  | keyof (operand : TypeId)
  | indexedAccess (object index : TypeId)
  | record (key value : TypeId)
  | this (owner : SymbolId) (constraint : TypeId)
  | constructorType (symbol : SymbolId) (arguments : List TypeId) (structural : TypeId)
  deriving DecidableEq, Repr

end Bamts.Checker
