import Bamts.RuntimeProperty

/-! Reading a property through the prototypes, the mutating methods of arrays, and the array
iterator. -/
set_option linter.all false
namespace Bamts.Runtime
open Effect Bytecode Binary64 Linkage

inductive GetOutcome where
  | value (value : Value)
  | text (text : EcmaString)
  | getter (getter : Value)

def foundOutcome : Found → Except Fault GetOutcome
  | .value value =>
    if value.isUninitialized then .error (.failure (.throw (.referenceError "lexical binding is uninitialized")))
    else .ok (.value value)
  | .text text => .ok (.text text)
  | .getter getter => .ok (.getter getter)
  | .failure fault => .error fault
  | .noGetter => .ok (.value .undefined)

def resolveGetFrom (key : PropertyKey) : Nat → Nat → Exec GetOutcome
  | 0, _ => pure (.value .undefined)
  | fuel+1, node => do
    let m ← read
    match m.entry node,key.typedIndex with
    | .typedArray .., some typedIndex => match typedIndex with
      | none => pure (.value .undefined)
      | some offset => do
        let view ← lift (Machine.valueForRuntimeIndex node)
        let value ← readElement view offset
        pure (.value value)
    | entry, _ =>
      if !key.isPrivate && entry.kind = .proxy then do
        let proxy ← lift (Machine.valueForRuntimeIndex node)
        fail (.callout proxy .undefined [])
      else match m.ownGet node key with
        | some found => lift (foundOutcome found)
        | none => do
          match ← lift (m.prototypeIndex node) with
          | some next => resolveGetFrom key fuel next
          | none => pure (.value .undefined)

def Machine.getStart (m : Machine) (object : Value) : Except Fault (Option Nat) := do
  match ← m.slot object with
  | some index => match m.entry index with
    | .string _ => m.slot m.intrinsics.stringPrototype
    | .bigInt _ => do m.slot (← orPanic (m.intrinsics.builtins.slot .bigintPrototype))
    | .privateName _ => m.slot m.intrinsics.objectPrototype
    | .symbol _ => do m.slot (← orPanic (m.intrinsics.builtins.slot .symbolPrototype))
    | _ => .ok (some index)
  | none => match object.decode with
    | some (.boolean _) => m.slot m.intrinsics.booleanPrototype
    | some (.number _) | some (.int32 _) => m.slot m.intrinsics.numberPrototype
    | _ => .ok none

def resolveGet (object : Value) (key : PropertyKey) : Exec GetOutcome := do
  let m ← read
  match (← runtimeSlot object).map m.entry with
  | some (.processEnv ..) => match key with
    | .named _ => fail (.callout .undefined .undefined [])
    | _ => pure (.value .undefined)
  | entry =>
    let primitive := match entry with
      | some (.string text) => stringOwnGet text key
      | _ => none
    match primitive with
    | some found => lift (foundOutcome found)
    | none => do
      match ← lift (m.getStart object) with
      | none => pure (.value .undefined)
      | some start => resolveGetFrom key (m.heap.length+1) start

def isWhitespace (unit : UInt16) : Bool :=
  9 ≤ unit && unit ≤ 13 || 0x2000 ≤ unit && unit ≤ 0x200a ||
  [0x20,0x85,0xa0,0x1680,0x2028,0x2029,0x202f,0x205f,0x3000].contains unit

def trim (text : EcmaString) : EcmaString :=
  ⟨((text.asUnits.dropWhile isWhitespace).reverse.dropWhile isWhitespace).reverse⟩

def parseNumber (text : EcmaString) : Double :=
  if isWellFormed text = false then nan
  else
    let trimmed := trim text
    if trimmed.asUnits.isEmpty then Double.zero else (parseF64 trimmed).getD nan

def Machine.toNumber (m : Machine) : Nat → Value → Except Fault Double
  | 0, _ => .error (.panicked .unexpected)
  | fuel+1, value => match value.decode with
    | none => .error (.failure (.runtime (.invalidValue value)))
    | some (.number x) => .ok x
    | some (.int32 raw) => .ok (int32Double raw)
    | some .null => .ok .zero
    | some (.boolean b) => .ok (if b then .ofNat 1 else .zero)
    | some .undefined | some .hole | some .uninitialized => .ok nan
    | some (.heapRef _) => do
      match (← m.slot value).map m.entry with
      | none => .error (typeError "coerce host object to number")
      | some (.string text) => .ok (parseNumber text)
      | some (.bigInt _) => .error (typeError "convert bigint to number")
      | some (.proxy _) | some (.proxyRevoker ..) => .error (typeError "convert proxy to number")
      | some (.array _ [] _) => .ok .zero
      | some (.array _ [element] _) => m.toNumber fuel element
      | some (.symbol _) | some (.privateName _) => .error (typeError "convert symbol to number")
      | some _ => .ok nan

inductive IntegerOrInfinity where
  | finite (z : Int)
  | infinite (negative : Bool)

-- `f64::trunc`
def truncate (x : Double) : Int :=
  let whole := numerator x/denominator x
  if x.negative then -(whole : Int) else whole

def Machine.toIntegerOrInfinity (m : Machine) (value : Value) : Except Fault IntegerOrInfinity := do
  let x ← m.toNumber (m.heap.length+1) value
  if x.isNaN then .ok (.finite 0)
  else if x.isFinite then .ok (.finite (truncate x))
  else .ok (.infinite x.negative)

def incompatibleArray : Fault := typeError "Array method called on incompatible receiver"

def arrayElements (this : Value) : Exec (List Value) := do
  let m ← read
  match (← runtimeSlot this).map m.entry with
  | some (.array _ elements _) => pure elements
  | _ => fail incompatibleArray

def replaceArrayElements (value : Value) (elements : List Value) : Exec Unit := do
  let m ← read
  match (← runtimeSlot value).map fun index => (index,m.entry index) with
  | some (index,.array header current lengthWritable) => do
    chargeSlot index ((elements.length-current.length)*valueBytes)
    setEntry index (.array header elements lengthWritable)
    refundSlot index ((current.length-elements.length)*valueBytes)
  | _ => fail (typeError "array method called on incompatible receiver")

def lengthValue (length : Nat) : Value := numberValue (.ofNat length)

def orUndefined (value : Value) : Value := if value = .hole then .undefined else value

def plainArray (m : Machine) (elements : List Value) : HeapEntry :=
  .array ⟨.empty,some m.intrinsics.arrayPrototype,true⟩ elements true

def iteratorItem (elements : List Value) (cursor : Nat) : Option Value := elements[cursor]?.map orUndefined

end Bamts.Runtime
