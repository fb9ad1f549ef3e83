import Mathlib.Data.List.Basic
import Mathlib.Algebra.Order.Ring.Nat

/-! The production bytecode algebra: index newtypes, persistable constants, the
closed operator sets with their wire tags, the 58 opcodes and the function and
module records. Values whose constructors are private in the source carry their
invariant as a field, so a non-canonical number or BigInt text cannot be built. -/
set_option linter.all false
namespace Bamts.Bytecode

abbrev Bytes := List UInt8

structure Register where new ::
  get : UInt32
  deriving DecidableEq, Repr

structure ConstantId where new ::
  get : UInt32
  deriving DecidableEq, Repr

structure FunctionId where new ::
  get : UInt32
  deriving DecidableEq, Repr

structure Pc where new ::
  get : UInt32
  deriving DecidableEq, Repr

def maxRegisters : UInt32 := 65536
def maxInstructions : UInt32 := 1048576
def maxHandlers : UInt32 := 65536
def maxConstants : UInt32 := 1048576
def maxFunctions : UInt32 := 1048576
def maxVerifierFactsWords : Nat := 8388608

def canonicalNanBits : UInt64 := 0x7ff8000000000000
def exponentMask : UInt64 := 0x7ff0000000000000
def fractionMask : UInt64 := 0x000fffffffffffff

def isNan (bits : UInt64) : Bool :=
  bits &&& exponentMask == exponentMask && bits &&& fractionMask != 0

def CanonicalNumber (bits : UInt64) : Prop := isNan bits = true → bits = canonicalNanBits
instance (bits) : Decidable (CanonicalNumber bits) := by unfold CanonicalNumber; infer_instance

-- Every NaN payload collapses to the one arithmetic NaN.
structure NumberBits where
  bits : UInt64
  canonical : CanonicalNumber bits
  deriving DecidableEq

def NumberBits.fromWire (bits : UInt64) : Option NumberBits :=
  if h : isNan bits && bits != canonicalNanBits then none
  else some ⟨bits,by simpa [CanonicalNumber] using h⟩

-- Rust's `is_ascii_digit`.
def isAsciiDigit (b : UInt8) : Bool := 48 ≤ b && b ≤ 57

def textBytes (text : String) : Bytes := text.toByteArray.data.toList

def isCanonicalBigint (text : String) : Bool :=
  match textBytes text with
  | [] => false
  | first :: rest =>
    let negative := first == 45
    let digits := if negative then rest else first :: rest
    if digits.isEmpty || !digits.all isAsciiDigit then false
    -- No redundant leading zero ("007", "00").
    else if digits.length > 1 && digits.head? == some 48 then false
    else !(negative && digits == [48])

structure BigIntLiteral where
  asStr : String
  canonical : isCanonicalBigint asStr = true
  deriving DecidableEq

def BigIntLiteral.new (text : String) : Option BigIntLiteral :=
  if h : isCanonicalBigint text = true then some ⟨text,h⟩ else none

structure EcmaString where fromUnits ::
  asUnits : List UInt16
  deriving DecidableEq, Repr

def EcmaString.lenUnits (s : EcmaString) : Nat := s.asUnits.length

inductive Constant where
  | number (bits : NumberBits)
  | int32 (value : Int32)
  | string (value : EcmaString)
  | boolean (value : Bool)
  | null
  | undefined
  | bigInt (value : BigIntLiteral)
  deriving DecidableEq

inductive UnaryOp where
  | void | typeOf | plus | negate | bitwiseNot | logicalNot
  deriving DecidableEq, Repr

def UnaryOp.toU8 : UnaryOp → UInt8
  | .void => 0 | .typeOf => 1 | .plus => 2 | .negate => 3 | .bitwiseNot => 4 | .logicalNot => 5

def UnaryOp.fromU8 : UInt8 → Option UnaryOp
  | 0 => some .void
  | 1 => some .typeOf
  | 2 => some .plus
  | 3 => some .negate
  | 4 => some .bitwiseNot
  | 5 => some .logicalNot
  | _ => none

inductive BinaryOp where
  | add | subtract | multiply | divide | remainder | exponent
  | bitAnd | bitOr | bitXor | shiftLeft | shiftRight | unsignedShiftRight
  | equal | notEqual | strictEqual | strictNotEqual
  | lessThan | lessThanOrEqual | greaterThan | greaterThanOrEqual | instanceOf | isIn
  deriving DecidableEq, Repr

def BinaryOp.toU8 : BinaryOp → UInt8
  | .add => 0 | .subtract => 1 | .multiply => 2 | .divide => 3 | .remainder => 4 | .exponent => 5
  | .bitAnd => 6 | .bitOr => 7 | .bitXor => 8 | .shiftLeft => 9 | .shiftRight => 10
  | .unsignedShiftRight => 11 | .equal => 12 | .notEqual => 13 | .strictEqual => 14
  | .strictNotEqual => 15 | .lessThan => 16 | .lessThanOrEqual => 17 | .greaterThan => 18
  | .greaterThanOrEqual => 19 | .instanceOf => 20 | .isIn => 21

def BinaryOp.fromU8 : UInt8 → Option BinaryOp
  | 0 => some .add
  | 1 => some .subtract
  | 2 => some .multiply
  | 3 => some .divide
  | 4 => some .remainder
  | 5 => some .exponent
  | 6 => some .bitAnd
  | 7 => some .bitOr
  | 8 => some .bitXor
  | 9 => some .shiftLeft
  | 10 => some .shiftRight
  | 11 => some .unsignedShiftRight
  | 12 => some .equal
  | 13 => some .notEqual
  | 14 => some .strictEqual
  | 15 => some .strictNotEqual
  | 16 => some .lessThan
  | 17 => some .lessThanOrEqual
  | 18 => some .greaterThan
  | 19 => some .greaterThanOrEqual
  | 20 => some .instanceOf
  | 21 => some .isIn
  | _ => none

inductive IteratorKind where | sync | async | keys
  deriving DecidableEq, Repr

def IteratorKind.toU8 : IteratorKind → UInt8
  | .sync => 0 | .async => 1 | .keys => 2

def IteratorKind.fromU8 : UInt8 → Option IteratorKind
  | 0 => some .sync
  | 1 => some .async
  | 2 => some .keys
  | _ => none

inductive IteratorCloseMode where | propagate | preserveAbrupt
  deriving DecidableEq, Repr

def IteratorCloseMode.toU8 : IteratorCloseMode → UInt8
  | .propagate => 0 | .preserveAbrupt => 1

def IteratorCloseMode.fromU8 : UInt8 → Option IteratorCloseMode
  | 0 => some .propagate
  | 1 => some .preserveAbrupt
  | _ => none

inductive DisposeHint where | sync | async
  deriving DecidableEq, Repr

def DisposeHint.toU8 : DisposeHint → UInt8
  | .sync => 0 | .async => 1

def DisposeHint.fromU8 : UInt8 → Option DisposeHint
  | 0 => some .sync
  | 1 => some .async
  | _ => none

inductive AccessorKind where | getter | setter
  deriving DecidableEq, Repr

def AccessorKind.toU8 : AccessorKind → UInt8
  | .getter => 0 | .setter => 1

def AccessorKind.fromU8 : UInt8 → Option AccessorKind
  | 0 => some .getter
  | 1 => some .setter
  | _ => none

inductive DescriptorSlot where | value | getter | setter
  deriving DecidableEq, Repr

def DescriptorSlot.toU8 : DescriptorSlot → UInt8
  | .value => 0 | .getter => 1 | .setter => 2

def DescriptorSlot.fromU8 : UInt8 → Option DescriptorSlot
  | 0 => some .value
  | 1 => some .getter
  | 2 => some .setter
  | _ => none

-- Append-only opcodes 52..=57, kept apart as in `isa.rs`.
inductive Isa.Instruction where
  | getSuper (dst home receiver key : Register)
  | setSuper (home receiver key value : Register)
  | importAttributes (dst : Register) (specifier : ConstantId) (attributes : Register)
  | importDynamicAttributes (dst specifier attributes : Register)
  | copyDataProperties (target source excluded : Register)
  | getTemplateObject (dst cooked raw : Register)
  deriving DecidableEq, Repr

inductive Instruction where
  | loadConst (dst : Register) (constant : ConstantId)
  | move (dst src : Register)
  | unary (dst : Register) (op : UnaryOp) (operand : Register)
  | binary (dst : Register) (op : BinaryOp) (left right : Register)
  | createObject (dst : Register)
  | toObject (dst src : Register)
  | loadImportMeta (dst : Register)
  | createArray (dst : Register)
  | createCell (dst : Register)
  | createClosure (dst : Register) (function : FunctionId) (captures : Register)
  | getProperty (dst object key : Register)
  | setProperty (object key value : Register)
  | deleteProperty (dst object key : Register)
  | defineAccessor (object key accessor : Register) (kind : AccessorKind)
  | defineDataProperty (object key value : Register)
  | loadOwnDescriptorSlot (dst object key : Register) (slot : DescriptorSlot)
  | defineOwnDescriptorSlot (object key src : Register) (slot : DescriptorSlot)
  | withHasBinding (dst object key : Register)
  | call (dst callee thisValue arguments : Register)
  | construct (dst callee arguments : Register)
  | constructWithNewTarget (dst callee newTarget arguments : Register)
  | loadGlobal (dst : Register) (name : ConstantId)
  | storeGlobal (name : ConstantId) (value : Register)
  | typeOfGlobal (dst : Register) (name : ConstantId)
  | loadThis (dst : Register)
  | loadArguments (dst : Register)
  | loadNewTarget (dst : Register)
  | arrayPush (array value : Register)
  | arrayExtend (array iterable : Register)
  | objectSpread (target source : Register)
  | setPrototype (object prototype : Register)
  | createPrivateName (dst : Register) (description : ConstantId)
  | createRegExp (dst : Register) (pattern flags : ConstantId)
  | getIterator (dst src : Register) (kind : IteratorKind)
  | iteratorNext (done value iterator : Register)
  | iteratorStep (dst iterator : Register)
  | iteratorResult (done value result : Register)
  | iteratorClose (result called iterator : Register) (mode : IteratorCloseMode)
  | requireCloseResult (result called : Register)
  | disposeCapture (method kind src : Register) (hint : DisposeHint)
  | suppressError (dst error suppressed : Register)
  | jump (target : Pc)
  | jumpIfTrue (condition : Register) (target : Pc)
  | jumpIfFalse (condition : Register) (target : Pc)
  | ret (value : Register)
  | throw (value : Register)
  | suspend (dst src : Register) (resume : Pc) (mode : Register)
  | await (dst src : Register) (resume : Pc)
  | import (dst : Register) (specifier : ConstantId)
  | importDynamic (dst specifier : Register)
  | export (name : ConstantId) (src : Register)
  | getSuper (dst home receiver key : Register)
  | setSuper (home receiver key value : Register)
  | importAttributes (dst : Register) (specifier : ConstantId) (attributes : Register)
  | importDynamicAttributes (dst specifier attributes : Register)
  | copyDataProperties (target source excluded : Register)
  | getTemplateObject (dst cooked raw : Register)
  | halt
  deriving DecidableEq, Repr

def Instruction.ofIsa : Isa.Instruction → Instruction
  | .getSuper dst home receiver key => .getSuper dst home receiver key
  | .setSuper home receiver key value => .setSuper home receiver key value
  | .importAttributes dst specifier attributes => .importAttributes dst specifier attributes
  | .importDynamicAttributes dst specifier attributes => .importDynamicAttributes dst specifier attributes
  | .copyDataProperties target source excluded => .copyDataProperties target source excluded
  | .getTemplateObject dst cooked raw => .getTemplateObject dst cooked raw

def Instruction.extension : Instruction → Option Isa.Instruction
  | .getSuper dst home receiver key => some (.getSuper dst home receiver key)
  | .setSuper home receiver key value => some (.setSuper home receiver key value)
  | .importAttributes dst specifier attributes => some (.importAttributes dst specifier attributes)
  | .importDynamicAttributes dst specifier attributes => some (.importDynamicAttributes dst specifier attributes)
  | .copyDataProperties target source excluded => some (.copyDataProperties target source excluded)
  | .getTemplateObject dst cooked raw => some (.getTemplateObject dst cooked raw)
  | _ => none

theorem extensionOfIsa (e) : (Instruction.ofIsa e).extension = some e := by
  cases e <;> rfl

-- Half-open protected range `[start, end)`.
structure ExceptionHandler where
  start : Pc
  stop : Pc
  handler : Pc
  catchRegister : Register
  deriving DecidableEq, Repr

structure FunctionFlags where
  isAsync : Bool
  isGenerator : Bool
  isConstructable : Bool
  deriving DecidableEq, Repr

namespace FunctionFlags

def async : UInt8 := 0b001
def generator : UInt8 := 0b010
def constructable : UInt8 := 0b100
def known : UInt8 := async ||| generator ||| constructable

def toBits (f : FunctionFlags) : UInt8 :=
  let bits : UInt8 := 0
  let bits := if f.isAsync then bits ||| async else bits
  let bits := if f.isGenerator then bits ||| generator else bits
  if f.isConstructable then bits ||| constructable else bits

def fromBits (bits : UInt8) : Option FunctionFlags :=
  if bits &&& ~~~known != 0 then none
  else some ⟨bits &&& async != 0,bits &&& generator != 0,bits &&& constructable != 0⟩

end FunctionFlags

structure Function where
  name : Option ConstantId
  captureCount : UInt32
  parameterCount : UInt32
  registerCount : UInt32
  flags : FunctionFlags
  code : List Instruction
  handlers : List ExceptionHandler
  deriving DecidableEq, Repr

-- Saturating `u32` sum of captures and parameters.
def Function.entryInitialized (f : Function) : Nat :=
  min (f.captureCount.toNat + f.parameterCount.toNat) (2^32 - 1)

structure Module where
  constants : List Constant
  functions : List Function
  entry : FunctionId
  deriving DecidableEq

end Bamts.Bytecode
