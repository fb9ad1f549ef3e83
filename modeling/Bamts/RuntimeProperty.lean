import Bamts.RuntimeObject

/-! The operations that store, define, delete and freeze properties. -/
set_option linter.all false
namespace Bamts.Runtime
open Effect Bytecode

def resizeElements (elements : List Value) (length : Nat) : List Value :=
  elements.take length ++ List.replicate (length-elements.length) Value.hole

def blockedOffset (properties : PropertyMap) (length : Nat) : Option Nat :=
  (properties.entries.filterMap fun entry =>
    if entry.2.configurable then none else entry.1.index.filter (length ≤ ·)).max?

def belowLength (length : Nat) (entry : PropertyKey × Property) : Bool :=
  entry.1.index.elim true fun offset => decide (offset < length)

structure ArrayParts where
  elements : List Value
  properties : PropertyMap

def applyArrayLength (parts : ArrayParts) (length : Nat) (operation : String) : ArrayParts × Except Fault Unit :=
  if parts.elements.length ≤ length then ({ parts with elements := resizeElements parts.elements length },.ok ())
  else
    let blocked := blockedOffset parts.properties length
    let effective := blocked.elim length (·+1)
    (⟨resizeElements parts.elements effective,parts.properties.filter (belowLength effective)⟩,
      if blocked.isSome then .error (typeError operation) else .ok ())

def arraySetLength (parts : ArrayParts) (lengthWritable : Bool) (value : Value) (operation : String) :
    ArrayParts × Except Fault Unit :=
  match exactArrayLength value with
  | none => (parts,.error (rangeError operation))
  | some length =>
    if lengthWritable then applyArrayLength parts length operation else (parts,.error (typeError operation))

def defineArrayLength (parts : ArrayParts) (lengthWritable : Bool) (length : Nat) : ArrayParts × Except Fault Unit :=
  if !lengthWritable && length != parts.elements.length then
    (parts,.error (typeError "Cannot redefine non-writable array length"))
  else applyArrayLength parts length "define array length"

def Header.arrayOf (header : Header) (parts : ArrayParts) (lengthWritable : Bool) : HeapEntry :=
  .array { header with properties := parts.properties } parts.elements lengthWritable

-- What `apply_array_length` gave back of the slot's charge.
def releasedBytes (before after : ArrayParts) : Nat :=
  (before.elements.length-after.elements.length)*valueBytes+
  (before.properties.chargeBytes-after.properties.chargeBytes)

def storedValue (properties : PropertyMap) (key : PropertyKey) (value : Value) : Property :=
  match properties.get key with
  | some (.data _ writable enumerable configurable) => .data value writable enumerable configurable
  | _ => .plain value

def keyGrowth (properties : PropertyMap) (key : PropertyKey) : Nat :=
  if properties.containsKey key then 0 else key.chargeBytes

-- Whether an assignment may store under a key that exists (`virtual` counts) or is new.
def checkWritable (header : Header) (virtualExists : Bool) (key : PropertyKey) : Except Fault Unit :=
  match header.properties.get key with
  | some (.data _ true _ _) => .ok ()
  | some _ => .error (typeError "assign to read only property")
  | none =>
    if header.extensible || virtualExists then .ok () else .error (typeError "add property to non-extensible object")

def setArrayLength (index : Nat) (header : Header) (elements : List Value) (lengthWritable : Bool) (value : Value) :
    Exec Unit := do
  match exactArrayLength value with
  | none => fail (rangeError "set array length")
  | some length =>
    if lengthWritable then do
      let before : ArrayParts := ⟨elements,header.properties⟩
      chargeSlot index ((length-elements.length)*valueBytes)
      let (after,result) := applyArrayLength before length "set array length"
      setEntry index (header.arrayOf after lengthWritable)
      refundSlot index (releasedBytes before after)
      lift result
    else fail (typeError "set array length")

def setArrayElement (index : Nat) (header : Header) (elements : List Value) (lengthWritable : Bool) (offset : Nat)
    (value : Value) : Exec Unit := do
  let before : ArrayParts := ⟨elements,header.properties⟩
  chargeSlot index ((offset+1-elements.length)*valueBytes)
  let (after,result) :=
    if elements.length ≤ offset then
      arraySetLength before lengthWritable (numberValue (.ofNat (offset+1))) "set array index"
    else (before,.ok ())
  match result with
  | .error fault => do
    setEntry index (header.arrayOf after lengthWritable)
    fail fault
  | .ok () => setEntry index (header.arrayOf { after with elements := after.elements.set offset value } lengthWritable)

def setArrayData (index : Nat) (header : Header) (elements : List Value) (lengthWritable : Bool) (key : PropertyKey)
    (value : Value) : Exec Unit := do
  if key.eqAscii "length" then setArrayLength index header elements lengthWritable value
  else match key.index with
    | some offset =>
      if elements.length ≤ offset ∧ lengthWritable = false then
        fail (typeError "add index beyond non-writable array length")
      else do
        lift (checkWritable header (elements[offset]?.getD .hole != .hole) key)
        setArrayElement index header elements lengthWritable offset value
    | none => do
      lift (checkWritable header false key)
      chargeSlot index (keyGrowth header.properties key)
      setEntry index (.array
        { header with properties := header.properties.insert key (storedValue header.properties key value) }
        elements lengthWritable)

def rejectSet : HeapEntry → Fault
  | .proxy _ => typeError "set property on proxy"
  | .string _ | .bigInt _ => typeError "set property on primitive"
  | .processEnv .. => typeError "set internal process environment"
  | .moduleNamespace _ | .externalModuleNamespace _ => typeError "assign to module namespace"
  | .hashState .. => typeError "assign to hash state"
  | .vacant => .panicked .unexpected
  | _ => typeError "set property on non-object"

def setStoredData (index : Nat) (entry : HeapEntry) (key : PropertyKey) (value : Value) : Exec Unit := do
  match entry.header? with
  | none => fail (rejectSet entry)
  | some header => do
    given (entry.kind != .timeout) do lift (checkWritable header false key)
    chargeSlot index (keyGrowth header.properties key)
    setEntry index (entry.withProperties (header.properties.insert key (storedValue header.properties key value)))

def setOwnData (index : Nat) (key : PropertyKey) (value : Value) : Exec Unit := do
  let m ← read
  match m.entry index with
  | .typedArray header fields => match key.typedIndex with
    | some none => pure ()
    | some (some offset) => do
      let view ← lift (Machine.valueForRuntimeIndex index)
      let _ ← writeElement view offset value
    | none => setStoredData index (.typedArray header fields) key value
  | .array header elements lengthWritable => setArrayData index header elements lengthWritable key value
  | entry => setStoredData index entry key value

def installAccessor (existing : Option Property) (accessor : Value) (kind : AccessorKind) : Property :=
  match existing with
  | some (.accessor getter setter enumerable configurable) => match kind with
    | .getter => .accessor (some accessor) setter enumerable configurable
    | .setter => .accessor getter (some accessor) enumerable configurable
  | _ => match kind with
    | .getter => .accessor (some accessor) none true true
    | .setter => .accessor none (some accessor) true true

def accessorGrowth (existing : Option Property) (key : PropertyKey) : Nat :=
  match existing with
  | none => key.chargeBytes+valueBytes
  | some (.data ..) => valueBytes
  | some (.accessor ..) => 0

def defineAccessor (object : Value) (key : PropertyKey) (accessor : Value) (kind : AccessorKind) : Exec Unit := do
  let m ← read
  match ← runtimeSlot object with
  | none => fail (typeError "define accessor on host object")
  | some index =>
    let entry := m.entry index
    if entry.kind = .typedArray ∧ key.typedIndex.isSome then
      fail (typeError "define accessor on typed array index")
    else match entry.header? with
      | none => fail (typeError "define accessor on primitive")
      | some header =>
        let existing := header.properties.get key
        if entry.kind = .timeout then fail (typeError "define accessor on primitive")
        else if existing.elim (!header.extensible) (fun property => !property.configurable) then
          fail (typeError "define accessor on non-configurable object")
        else do
          chargeSlot index (accessorGrowth existing key)
          setEntry index (entry.withProperties (header.properties.insert key (installAccessor existing accessor kind)))

-- Deletes a stored property; `none` when there is none.
def deleteStored (index : Nat) (entry : HeapEntry) (header : Header) (key : PropertyKey) (property : Property) :
    Exec Bool := do
  if property.configurable then do
    setEntry index (entry.withProperties (header.properties.remove key))
    refundSlot index (key.chargeBytes+property.chargeBytes)
    pure true
  else pure false

def deleteArrayOffset (index : Nat) (header : Header) (elements : List Value) (lengthWritable : Bool)
    (key : PropertyKey) : Exec Bool := do
  if key.eqAscii "length" then pure false
  else do
    match key.index with
    | some offset => setEntry index (.array header (elements.set offset .hole) lengthWritable)
    | none => pure ()
    refundSlot index 0
    pure true

-- The environment of the process belongs to the host.
def deleteAt (index : Nat) (key : PropertyKey) : Exec Bool := do
  let m ← read
  match m.entry index with
  | .proxy _ => do
    refundSlot index 0
    pure true
  | .processEnv .. => match key with
    | .named _ => fail (.callout .undefined .undefined [])
    | _ => pure true
  | .moduleNamespace _ | .externalModuleNamespace _ => pure false
  | .vacant => fail (.panicked .unexpected)
  | .array header elements lengthWritable => match header.properties.get key with
    | some property => deleteStored index (.array header elements lengthWritable) header key property
    | none => deleteArrayOffset index header elements lengthWritable key
  | entry => match entry.header? with
    | none => pure true
    | some header => match header.properties.get key with
      | some property => deleteStored index entry header key property
      | none => pure true

def internalDelete (object : Value) (key : PropertyKey) : Exec Bool := do
  let m ← read
  if !key.isPrivate && m.isProxyValue object then fail (.callout object .undefined [])
  else match ← runtimeSlot object with
    | none => pure true
    | some index => match (m.entry index).kind,key.typedIndex with
      | .typedArray, some typedIndex => do
        let view ← lift (Machine.valueForRuntimeIndex index)
        let bounds ← lift (m.typedArrayBounds view)
        pure (typedIndex.elim true fun offset => bounds.outOfBounds || decide (bounds.elementLength ≤ offset))
      | _, _ => deleteAt index key

def arrayPush (array value : Value) : Exec Unit := do
  let m ← read
  match (← runtimeSlot array).map fun index => (index,m.entry index) with
  | some (index,.array header elements lengthWritable) =>
    if lengthWritable = false then fail (typeError "push beyond non-writable array length")
    else if header.extensible = false then fail (typeError "add property to non-extensible object")
    else if 2^32-1 < elements.length+1 then fail (rangeError "push beyond maximum array length")
    else do
      chargeSlot index valueBytes
      setEntry index (.array header (elements ++ [value]) lengthWritable)
  | _ => fail (typeError "push on non-array")

structure PropertyDescriptor where
  value : Option Value
  writable : Option Bool
  getter : Option Value
  setter : Option Value
  enumerable : Option Bool
  configurable : Option Bool
  deriving DecidableEq

namespace PropertyDescriptor

def default : PropertyDescriptor := ⟨none,none,none,none,none,none⟩

def isAccessor (d : PropertyDescriptor) : Bool := d.getter.isSome || d.setter.isSome
def isData (d : PropertyDescriptor) : Bool := d.value.isSome || d.writable.isSome
def isEmpty (d : PropertyDescriptor) : Bool := d == default

def half (given current : Option Value) : Option Value :=
  match given with
  | some value => if value = .undefined then none else some value
  | none => current

def intoProperty (d : PropertyDescriptor) (current : Option Property) : Property :=
  let enumerable := d.enumerable.getD (current.elim false (·.enumerable))
  let configurable := d.configurable.getD (current.elim false (·.configurable))
  if d.isAccessor then
    match current with
    | some (.accessor getter setter _ _) => .accessor (half d.getter getter) (half d.setter setter) enumerable configurable
    | _ => .accessor (half d.getter none) (half d.setter none) enumerable configurable
  else if d.isData then
    match current with
    | some (.data value writable _ _) => .data (d.value.getD value) (d.writable.getD writable) enumerable configurable
    | _ => .data (d.value.getD .undefined) (d.writable.getD false) enumerable configurable
  else
    match current with
    | some (.accessor getter setter _ _) => .accessor getter setter enumerable configurable
    | some (.data value writable _ _) => .data value writable enumerable configurable
    | none => .data .undefined false enumerable configurable

def fromProperty : Property → PropertyDescriptor
  | .data value writable enumerable configurable =>
    ⟨some value,some writable,none,none,some enumerable,some configurable⟩
  | .accessor getter setter enumerable configurable =>
    ⟨none,none,some (getter.getD .undefined),some (setter.getD .undefined),some enumerable,some configurable⟩

def complete (d : PropertyDescriptor) : PropertyDescriptor :=
  let d := if d.isAccessor then
      { d with getter := some (d.getter.getD .undefined),setter := some (d.setter.getD .undefined) }
    else { d with value := some (d.value.getD .undefined),writable := some (d.writable.getD false) }
  { d with enumerable := some (d.enumerable.getD false),configurable := some (d.configurable.getD false) }

end PropertyDescriptor

-- The `same_value` of the descriptor operations.
def Machine.sameDescriptorValue (m : Machine) (left right : Value) : Bool :=
  match left.decode,right.decode with
  | some (.number a), some (.number b) =>
    a.isNaN && b.isNaN || a.eq b && (!a.isZero || a.negative == b.negative)
  | some (.number a), some (.int32 b) => a.eq (int32Double b) && (!a.isZero || !a.negative)
  | some (.int32 b), some (.number a) => a.eq (int32Double b) && (!a.isZero || !a.negative)
  | some (.int32 a), some (.int32 b) => a == b
  | _, _ => m.strictEqual left right

def Machine.isCompatible (m : Machine) (extensible : Bool) (d : PropertyDescriptor) (current : Option PropertyDescriptor) :
    Bool :=
  match current with
  | none => extensible
  | some current =>
    if d.isEmpty then true
    else if current.configurable.getD false then true
    else if d.configurable = some true ∨ d.enumerable.any (· != current.enumerable.getD false) then false
    else if (d.isAccessor || d.isData) && d.isAccessor != current.isAccessor then false
    else if current.isAccessor then
      d.getter.all (fun candidate => m.sameDescriptorValue candidate (current.getter.getD .undefined)) &&
      d.setter.all fun candidate => m.sameDescriptorValue candidate (current.setter.getD .undefined)
    else if current.writable = some true then true
    else if d.writable = some true then false
    else d.value.all fun candidate => m.sameDescriptorValue candidate (current.value.getD .undefined)

def Machine.validateRedefinition (m : Machine) (current : Option Property) (next : Property) : Except Fault Unit :=
  let reject text : Except Fault Unit := .error (typeError ("Cannot redefine property: " ++ text))
  match current with
  | none => .ok ()
  | some current =>
    if current.configurable then .ok ()
    else if next.configurable then reject "non-configurable property cannot be made configurable"
    else if next.enumerable != current.enumerable then
      reject "cannot change enumerability of non-configurable property"
    else match current,next with
      | .data value writable _ _, .data nextValue nextWritable _ _ =>
        if writable then .ok ()
        else if nextWritable then reject "cannot make non-writable property writable"
        else if m.sameValue nextValue value then .ok ()
        else reject "cannot change value of non-writable property"
      | .data .., .accessor .. => reject "cannot convert non-configurable data property to accessor"
      | .accessor .., .data .. => reject "cannot convert non-configurable accessor property to data"
      | .accessor getter setter _ _, .accessor nextGetter nextSetter _ _ =>
        if m.sameValue (nextGetter.getD .undefined) (getter.getD .undefined) = false then
          reject "cannot change getter of non-configurable accessor property"
        else if m.sameValue (nextSetter.getD .undefined) (setter.getD .undefined) = false then
          reject "cannot change setter of non-configurable accessor property"
        else .ok ()

def definitionCharges (properties : PropertyMap) (key : PropertyKey) (descriptor : Property) : Nat × Nat :=
  match properties.get key with
  | none => (key.chargeBytes+descriptor.chargeBytes,0)
  | some existing =>
    if existing.chargeBytes ≤ descriptor.chargeBytes then (descriptor.chargeBytes-existing.chargeBytes,0)
    else (0,existing.chargeBytes-descriptor.chargeBytes)

def defineLength (index : Nat) (header : Header) (elements : List Value) (lengthWritable : Bool) (descriptor : Property) :
    Exec Unit := do
  match descriptor with
  | .data value writable false false => match exactArrayLength value with
    | none => fail (rangeError "define array length")
    | some length =>
      if writable && !lengthWritable then fail (typeError "Cannot make array length writable")
      else do
        let before : ArrayParts := ⟨elements,header.properties⟩
        let growth := (length-elements.length)*valueBytes
        chargeSlot index growth
        let (after,result) := defineArrayLength before lengthWritable length
        setEntry index (header.arrayOf after (lengthWritable && writable))
        refundSlot index (releasedBytes before after + match result with
          | .ok () => 0
          | .error _ => growth)
        lift result
  | _ => fail (typeError "Cannot redefine array length")

def defineIndex (index : Nat) (header : Header) (elements : List Value) (lengthWritable : Bool) (offset : Nat)
    (key : PropertyKey) (descriptor : Property) (refund : Nat) : Exec Unit := do
  let before : ArrayParts := ⟨elements,header.properties⟩
  let (after,result) :=
    if elements.length ≤ offset then
      arraySetLength before lengthWritable (numberValue (.ofNat (offset+1))) "define array index"
    else (before,.ok ())
  match result with
  | .error fault => do
    setEntry index (header.arrayOf after lengthWritable)
    fail fault
  | .ok () => do
    setEntry index
      (header.arrayOf ⟨after.elements.set offset .hole,after.properties.insert key descriptor⟩ lengthWritable)
    refundSlot index refund

def definableKinds : List Kind :=
  [.object,.function,.script,.nativeFunction,.regExp,.date,.builtinIterator,.collection,.typedArray,.arrayBuffer,
   .sharedArrayBuffer,.dataView,.weakRef,.finalizationRegistry,.disposableStack,.timeout]

def notExtensible : Fault := typeError "Cannot define property, object is not extensible"

def defineOnArray (object : Value) (index : Nat) (header : Header) (elements : List Value) (lengthWritable : Bool)
    (key : PropertyKey) (descriptor : Property) : Exec Unit := do
  let exists_ := header.properties.containsKey key ||
    key.index.elim false fun offset => elements[offset]?.getD .hole != .hole
  let (growth,refund) := definitionCharges header.properties key descriptor
  if !header.extensible && !exists_ then fail notExtensible
  else if key.index.any (fun offset => elements.length ≤ offset) ∧ lengthWritable = false then
    fail (typeError "Cannot define index beyond non-writable array length")
  else do
    let current ← ownDescriptor object key
    let m ← read
    lift (m.validateRedefinition current descriptor)
    chargeSlot index (growth + key.index.elim 0 fun offset => (offset+1-elements.length)*valueBytes)
    match key.index with
    | some offset => defineIndex index header elements lengthWritable offset key descriptor refund
    | none => do
      setEntry index (.array { header with properties := header.properties.insert key descriptor } elements lengthWritable)
      refundSlot index refund

def defineOnObject (object : Value) (index : Nat) (entry : HeapEntry) (header : Header) (key : PropertyKey)
    (descriptor : Property) : Exec Unit := do
  let (growth,refund) := definitionCharges header.properties key descriptor
  if !header.extensible && !header.properties.containsKey key then fail notExtensible
  else do
    let current ← ownDescriptor object key
    let m ← read
    lift (m.validateRedefinition current descriptor)
    chargeSlot index growth
    setEntry index (entry.withProperties (header.properties.insert key descriptor))
    refundSlot index refund

-- Stores through `[[Set]]`, as an element of a typed array has to be.
def defineTypedElement (index offset : Nat) (descriptor : Property) : Exec Unit := do
  let m ← read
  let view ← lift (Machine.valueForRuntimeIndex index)
  let bounds ← lift (m.typedArrayBounds view)
  if bounds.outOfBounds ∨ bounds.elementLength ≤ offset then fail (typeError "Invalid typed array index descriptor")
  else match descriptor with
    | .data value true true true => do
      let _ ← writeElement view offset value
    | _ => fail (typeError "Invalid typed array index descriptor")

def defineDescriptor (object : Value) (key : PropertyKey) (descriptor : Property) : Exec Unit := do
  let m ← read
  match ← runtimeSlot object with
  | none => fail (typeError "Object.defineProperty called on non-object")
  | some index => match m.entry index with
    | .typedArray header fields => match key.typedIndex with
      | some none => fail (typeError "Invalid typed array index descriptor")
      | some (some offset) => defineTypedElement index offset descriptor
      | none => defineOnObject object index (.typedArray header fields) header key descriptor
    | .array header elements lengthWritable =>
      if key.eqAscii "length" then defineLength index header elements lengthWritable descriptor
      else defineOnArray object index header elements lengthWritable key descriptor
    | entry => match entry.header? with
      | some header =>
        if entry.kind ∈ definableKinds then defineOnObject object index entry header key descriptor
        else fail (typeError "Object.defineProperty called on non-object")
      | none => fail (typeError "Object.defineProperty called on non-object")

def Machine.isExtensible (m : Machine) (object : Value) : Except Fault Bool := do
  match (← m.slot object).map m.entry with
  | none => .ok false
  | some (.processEnv _ extensible) => .ok extensible
  | some entry => .ok (entry.kind != .asyncFromSync && entry.header?.elim false (·.extensible))

def internalIsExtensible (object : Value) : Exec Bool := do
  let m ← read
  if m.isProxyValue object then fail (.callout object .undefined []) else lift (m.isExtensible object)

def internalGetOwnProperty (object : Value) (key : PropertyKey) : Exec (Option PropertyDescriptor) := do
  let m ← read
  if !key.isPrivate && m.isProxyValue object then fail (.callout object .undefined [])
  else do
    let property ← ownDescriptor object key
    pure (property.map .fromProperty)

def validateAndApply (object : Value) (key : PropertyKey) (extensible : Bool) (d : PropertyDescriptor)
    (current : Option Property) : Exec Bool := do
  let m ← read
  let d := if current.isNone then d.complete else d
  if m.isCompatible extensible d (current.map .fromProperty) = false then pure false
  else if current.isSome && d.isEmpty then pure true
  else do
    defineDescriptor object key (d.intoProperty current)
    pure true

def internalDefineOwnProperty (object : Value) (key : PropertyKey) (d : PropertyDescriptor) : Exec Bool := do
  let m ← read
  if !key.isPrivate && m.isProxyValue object then fail (.callout object .undefined [])
  else do
    let current ← ownDescriptor object key
    let m ← read
    let extensible ← lift (m.isExtensible object)
    validateAndApply object key extensible d current

-- The array length seam of `Object.defineProperty`; whether it took the definition.
def defineArrayLengthDescriptor (object : Value) (key : PropertyKey) (d : PropertyDescriptor) : Exec Bool := do
  let m ← read
  match (← runtimeSlot object).map fun index => (index,m.entry index) with
  | some (index,.array header elements lengthWritable) =>
    if key.eqAscii "length" = false then pure false
    else if d.isAccessor then fail (typeError "Invalid property descriptor")
    else if d.enumerable = some true ∨ d.configurable = some true then fail (typeError "Cannot redefine array length")
    else match d.value.map exactArrayLength with
      | some none => fail (rangeError "define array length")
      | length =>
        if d.writable = some true ∧ lengthWritable = false then fail (typeError "Cannot make array length writable")
        else do
          let before : ArrayParts := ⟨elements,header.properties⟩
          let (after,result) := match length.join with
            | some length => defineArrayLength before lengthWritable length
            | none => (before,.ok ())
          setEntry index (header.arrayOf after (lengthWritable && d.writable != some false))
          lift result
          pure true
  | _ => pure false

def applyPropertyDescriptor (target : Value) (key : PropertyKey) (d : PropertyDescriptor) : Exec Unit := do
  if ← defineArrayLengthDescriptor target key d then pure ()
  else do
    let current ← ownDescriptor target key
    let m ← read
    let extensible ← lift (m.isExtensible target)
    if ← validateAndApply target key extensible d current then pure ()
    else fail (typeError "Cannot redefine property")

-- `Object.defineProperty` on a descriptor already read; `Object.defineProperties` is a row of these.
def defineProperty (target : Value) (key : PropertyKey) (d : PropertyDescriptor) : Exec Unit := do
  let m ← read
  if m.isObject target then applyPropertyDescriptor target key d
  else fail (typeError "Object.defineProperty called on non-object")

def ordinarySetReceiver (receiver : Value) (key : PropertyKey) (value : Value) : Exec Bool := do
  let m ← read
  if m.isObject receiver = false then pure false
  else do
    let existing ← internalGetOwnProperty receiver key
    let m ← read
    match existing with
    | none =>
      if ← internalIsExtensible receiver then
        if m.isProxyValue receiver then fail (.callout receiver .undefined [value])
        else match ← runtimeSlot receiver with
          | none => fail (typeError "set property on primitive")
          | some index => do
            setOwnData index key value
            pure true
      else pure false
    | some existing =>
      if existing.isAccessor || existing.writable = some false then pure false
      else if m.isProxyValue receiver then fail (.callout receiver .undefined [value])
      else match ← runtimeSlot receiver with
        | none => fail (typeError "set property on primitive")
        | some index => do
          setOwnData index key value
          pure true

-- The walk along the prototypes; `fuel` is the guard of the source.
def resolveSetFrom (key : PropertyKey) (value receiver : Value) : Nat → Nat → Exec Bool
  | 0, _ => ordinarySetReceiver receiver key value
  | fuel+1, index => do
    let m ← read
    let node ← lift (Machine.valueForRuntimeIndex index)
    if !key.isPrivate && (m.entry index).kind = .proxy then fail (.callout node .undefined [value])
    else do
      match ← ownDescriptor node key with
      | some (.accessor _ (some setter) _ _) => fail (.callout setter receiver [value])
      | some (.accessor _ none _ _) => pure false
      | some (.data _ true _ _) => ordinarySetReceiver receiver key value
      | some (.data _ false _ _) => pure false
      | none => do
        let m ← read
        match ← lift (m.prototypeIndex index) with
        | some next => resolveSetFrom key value receiver fuel next
        | none => ordinarySetReceiver receiver key value

def resolveSet (object : Value) (key : PropertyKey) (value receiver : Value) : Exec Bool := do
  let m ← read
  match ← runtimeSlot object with
  | none => fail (typeError "set property on primitive")
  | some index => match m.entry index with
    | .moduleNamespace _ => fail (typeError "assign to module namespace")
    | .processEnv .. => match key with
      | .named _ => fail (.callout .undefined .undefined [value])
      | _ => pure true
    | entry =>
      if entry.kind = .typedArray ∧ key.typedIndex.isSome then do
        setOwnData index key value
        pure true
      else resolveSetFrom key value receiver (m.heap.length+2) index

def internalSet (object : Value) (key : PropertyKey) (value receiver : Value) : Exec Bool := do
  let m ← read
  if !key.isPrivate && m.isProxyValue object then fail (.callout object receiver [value])
  else resolveSet object key value receiver

end Bamts.Runtime
