import Bamts.RuntimeLedger
import Bamts.RuntimeNumber

/-! What the entries of the heap have in common as objects, and the three views of their own
properties: a plain read, the stored descriptor and the list of keys. -/
set_option linter.all false
namespace Bamts.Runtime
open Effect Bytecode Linkage Binary64

inductive Kind where
  | vacant | string | bigInt | object | array | function | script | moduleNamespace | externalModuleNamespace
  | hashState | symbol | privateName | regExp | date | collection | typedArray | dataView | arrayBuffer
  | sharedArrayBuffer | weakRef | finalizationRegistry | builtinIterator | iterator | generator | asyncGenerator
  | asyncFromSync | disposableStack | processEnv | promise | timeout | promiseResolver | promiseAll
  | promiseAllElement | asyncActivation | nativeFunction | proxy | proxyRevoker
  deriving DecidableEq

namespace HeapEntry

def kind : HeapEntry → Kind
  | .vacant => .vacant | .string .. => .string | .bigInt .. => .bigInt | .object .. => .object | .array .. => .array
  | .function .. => .function | .script .. => .script | .moduleNamespace .. => .moduleNamespace
  | .externalModuleNamespace .. => .externalModuleNamespace | .hashState .. => .hashState | .symbol .. => .symbol
  | .privateName .. => .privateName | .regExp .. => .regExp | .date .. => .date | .collection .. => .collection
  | .typedArray .. => .typedArray | .dataView .. => .dataView | .arrayBuffer .. => .arrayBuffer
  | .sharedArrayBuffer .. => .sharedArrayBuffer | .weakRef .. => .weakRef
  | .finalizationRegistry .. => .finalizationRegistry | .builtinIterator .. => .builtinIterator
  | .iterator .. => .iterator | .generator .. => .generator | .asyncGenerator .. => .asyncGenerator
  | .asyncFromSync .. => .asyncFromSync | .disposableStack .. => .disposableStack | .processEnv .. => .processEnv
  | .promise .. => .promise | .timeout .. => .timeout | .promiseResolver .. => .promiseResolver
  | .promiseAll .. => .promiseAll | .promiseAllElement .. => .promiseAllElement
  | .asyncActivation .. => .asyncActivation | .nativeFunction .. => .nativeFunction | .proxy .. => .proxy
  | .proxyRevoker .. => .proxyRevoker

def header? : HeapEntry → Option Header
  | .object h .. | .array h .. | .function h .. | .script h .. | .regExp h .. | .date h .. | .collection h ..
  | .typedArray h .. | .dataView h .. | .arrayBuffer h .. | .sharedArrayBuffer h .. | .weakRef h ..
  | .finalizationRegistry h .. | .builtinIterator h .. | .generator h .. | .asyncGenerator h .. | .asyncFromSync h ..
  | .disposableStack h .. | .promise h .. | .timeout h .. | .nativeFunction h .. => some h
  | .proxyRevoker _ properties extensible => some ⟨properties,none,extensible⟩
  | _ => none

def withHeader (f : Header → Header) : HeapEntry → HeapEntry
  | .object h boxedPrimitive => .object (f h) boxedPrimitive
  | .array h elements lengthWritable => .array (f h) elements lengthWritable
  | .function h module id captures context => .function (f h) module id captures context
  | .script h entry => .script (f h) entry
  | .regExp h pattern flags => .regExp (f h) pattern flags
  | .date h time => .date (f h) time
  | .collection h brand entries index size nextOrder => .collection (f h) brand entries index size nextOrder
  | .typedArray h fields => .typedArray (f h) fields
  | .dataView h buffer byteOffset byteLength => .dataView (f h) buffer byteOffset byteLength
  | .arrayBuffer h data => .arrayBuffer (f h) data
  | .sharedArrayBuffer h block => .sharedArrayBuffer (f h) block
  | .weakRef h target => .weakRef (f h) target
  | .finalizationRegistry h cleanupCallback cells pendingHoldings cleanupScheduled =>
    .finalizationRegistry (f h) cleanupCallback cells pendingHoldings cleanupScheduled
  | .builtinIterator h source mode position => .builtinIterator (f h) source mode position
  | .generator h state => .generator (f h) state
  | .asyncGenerator h state queue => .asyncGenerator (f h) state queue
  | .asyncFromSync h source next => .asyncFromSync (f h) source next
  | .disposableStack h state hint => .disposableStack (f h) state hint
  | .promise h state => .promise (f h) state
  | .timeout h id generation => .timeout (f h) id generation
  | .nativeFunction h callable => .nativeFunction (f h) callable
  | .proxyRevoker record properties extensible =>
    let h := f ⟨properties,none,extensible⟩
    .proxyRevoker record h.properties h.extensible
  | entry => entry

def withProperties (properties : PropertyMap) : HeapEntry → HeapEntry :=
  withHeader fun header => { header with properties := properties }

-- Kinds whose stored properties `own_descriptor` reports.
def describedKinds : List Kind :=
  [.object,.function,.script,.nativeFunction,.regExp,.date,.builtinIterator,.collection,.weakRef,
   .finalizationRegistry,.disposableStack,.timeout,.typedArray]

end HeapEntry

def typeError (operation : String) : Fault := .failure (.throw (.typeError operation))
def rangeError (operation : String) : Fault := .failure (.throw (.rangeError operation))

-- `runtime_slot(value).ok().flatten()`
def Machine.slotOk (m : Machine) (value : Value) : Option Nat :=
  match m.slot value with
  | .ok slot => slot
  | .error _ => none

def Machine.stringValue (m : Machine) (value : Value) : Option EcmaString :=
  match (m.slotOk value).map m.entry with
  | some (.string text) => some text
  | _ => none

def Machine.isProxyValue (m : Machine) (value : Value) : Bool :=
  match (m.slotOk value).map m.entry with
  | some (.proxy _) => true
  | _ => false

def Machine.isObject (m : Machine) (value : Value) : Bool :=
  match m.slot value with
  | .ok (some index) =>
    (m.entry index).kind ∉ [Kind.string,.bigInt,.promiseResolver,.promiseAll,.asyncActivation,.promiseAllElement]
  | .ok none => match value.decode with
    | some (.heapRef _) => true
    | _ => false
  | .error _ => false

def Machine.strictEqual (m : Machine) (left right : Value) : Bool :=
  match left.decode,right.decode with
  | some (.number a), some (.number b) => a.eq b
  | some (.number a), some (.int32 b) => a.eq (int32Double b)
  | some (.int32 b), some (.number a) => a.eq (int32Double b)
  | some (.int32 a), some (.int32 b) => a == b
  | some (.heapRef _), some (.heapRef _) =>
    match (m.slotOk left).map m.entry,(m.slotOk right).map m.entry with
    | some (.string a), some (.string b) => a == b
    | some (.bigInt a), some (.bigInt b) => a == b
    | _, _ => left == right
  | _, _ => left == right

def Machine.sameValueZero (m : Machine) (left right : Value) : Bool :=
  match left.decode,right.decode with
  | some (.number a), some (.number b) => a.eq b || a.isNaN && b.isNaN
  | some (.number a), some (.int32 b) => a.eq (int32Double b)
  | some (.int32 b), some (.number a) => a.eq (int32Double b)
  | _, _ => m.strictEqual left right

-- The `same_value` of the machine.
def Machine.sameValue (m : Machine) (left right : Value) : Bool :=
  match left.decode,right.decode with
  | some (.number a), some (.number b) =>
    if a.isNaN && b.isNaN then true
    else if a.isZero && b.isZero then a.negative == b.negative
    else a.eq b
  | some (.number a), some (.int32 b) => if a.isZero && (int32Double b).isZero then !a.negative else a.eq (int32Double b)
  | some (.int32 b), some (.number a) => if a.isZero && (int32Double b).isZero then !a.negative else a.eq (int32Double b)
  | _, _ => m.sameValueZero left right

inductive Found where
  | value (value : Value)
  | text (text : EcmaString)
  | getter (getter : Value)
  | failure (fault : Fault)
  | noGetter

def propertyLookup (properties : PropertyMap) (key : PropertyKey) : Option Found :=
  (properties.get key).map fun
    | .data value .. => .value value
    | .accessor (some getter) .. => .getter getter
    | .accessor none .. => .noGetter

def stringOwnGet (text : EcmaString) : PropertyKey → Option Found
  | .named name =>
    if eqAscii name "length" then some (.value (numberValue (.ofNat text.lenUnits)))
    else do
      let offset ← arrayIndex name
      let unit ← text.asUnits[offset]?
      some (.text ⟨[unit]⟩)
  | _ => none

def Machine.programModule (m : Machine) (module : ModuleId) : Option ProgramModule :=
  if m.dynamicBase ≤ module.get.toNat then (m.dynamic[module.get.toNat-m.dynamicBase]?).bind (·.modules[0]?)
  else m.program.bind (·.module module)

def Machine.moduleCode (m : Machine) (module : ModuleId) : Option Module :=
  if m.dynamicBase ≤ module.get.toNat then (m.programModule module).map (·.code)
  else match m.program with
    | some program => (program.module module).map (·.code)
    | none => some m.module

def Machine.constantText (m : Machine) (module : ModuleId) (id : ConstantId) : Option EcmaString :=
  (m.moduleCode module).bind fun code => string code id

def Machine.externalModule (m : Machine) (specifier : EcmaString) : Option ExternalModuleInstance :=
  m.registry.external.lookup specifier

def orPanic {α : Type} : Option α → Except Fault α
  | some a => .ok a
  | none => .error (.panicked .unexpected)

def Machine.cell (m : Machine) (cell : Nat) : Except Fault Value := orPanic m.registry.cells[cell]?

def Machine.externalExport (m : Machine) (module : ModuleId) (edge : EdgeId) (name : ConstantId) : Except Fault Value := do
  let unavailable : Fault := .failure (.runtime (.externalModuleUnavailable module edge))
  let source ← orPanic (m.programModule module)
  let dependency ← orPanic source.edges[edge.get.toNat]?
  let specifier ← orPanic (m.constantText module dependency.specifier)
  match m.externalModule specifier with
  | none => .error unavailable
  | some external =>
    let name ← orPanic (m.constantText module name)
    match (external.exports.lookup name).bind (·.cell) with
    | none => .error unavailable
    | some cell => m.cell cell

def Machine.localExport (m : Machine) (module : ModuleId) (binding : BindingId) : Except Fault Value := do
  let source ← orPanic m.registry.modules[module.get.toNat]?
  let linked ← orPanic source.bindingCells[binding.get.toNat]?
  let cell ← orPanic linked
  let value ← m.cell cell
  if value.isUninitialized then .error (.failure (.runtime (.temporalDeadZone module binding))) else .ok value

def Machine.namespaceExport (m : Machine) (module : ModuleId) (name : EcmaString) : Except Fault (Option Value) :=
  if m.dynamicBase ≤ module.get.toNat then .ok none
  else do
    let program ← orPanic m.program
    match resolveExport program module name with
    | some (.local module binding) => (m.localExport module binding).map some
    | some (.external module edge name) => (m.externalExport module edge name).map some
    | none => .ok none

structure ViewBounds where
  elementLength : Nat
  byteLength : Nat
  detached : Bool
  outOfBounds : Bool

def ViewBounds.inaccessible (detached : Bool) : ViewBounds := ⟨0,0,detached,true⟩

inductive ViewBuffer where
  | array (index : Nat) (bytes : Option (List UInt8))
  | shared (block : Nat) (bytes : List UInt8)

def ViewBuffer.fromValue (m : Machine) (value : Value) : Except Fault ViewBuffer := do
  match ← m.slot value with
  | none => .error (typeError "TypedArray buffer is not an ArrayBuffer")
  | some index => match m.entry index with
    | .arrayBuffer _ data => .ok (.array index data.bytes)
    | .sharedArrayBuffer _ block => .ok (.shared block (m.sharedBlocks[block]?.elim [] (·.bytes)))
    | _ => .error (typeError "TypedArray buffer is not an ArrayBuffer")

def ViewBuffer.bytes? : ViewBuffer → Option (List UInt8)
  | .array _ bytes => bytes
  | .shared _ bytes => some bytes

def Machine.viewFields (m : Machine) (view : Value) : Except Fault ViewFields := do
  match (← m.slot view).map m.entry with
  | some (.typedArray _ fields) => .ok fields
  | _ => .error (typeError "TypedArray method called on incompatible receiver")

def ViewFields.boundsIn (fields : ViewFields) (bufferLength : Nat) : ViewBounds :=
  if bufferLength < fields.byteOffset then .inaccessible false
  else
    let remaining := bufferLength-fields.byteOffset
    let size := fields.kind.elementSize
    let fit := match fields.byteLength with
      | .auto => some (remaining/size*size)
      | .fixed length => if length ≤ remaining then some length else none
    match fit with
    | none => .inaccessible false
    | some byteLength => match fields.arrayLength with
      | .auto => ⟨byteLength/size,byteLength,false,false⟩
      | .fixed length => if length*size ≤ byteLength then ⟨length,byteLength,false,false⟩ else .inaccessible false

def Machine.typedArrayBoundsFor (m : Machine) (fields : ViewFields) : Except Fault ViewBounds := do
  match (← ViewBuffer.fromValue m fields.buffer).bytes? with
  | none => .ok (.inaccessible true)
  | some bytes => .ok (fields.boundsIn bytes.length)

def Machine.typedArrayBounds (m : Machine) (view : Value) : Except Fault ViewBounds := do
  m.typedArrayBoundsFor (← m.viewFields view)

def littleEndian (bytes : List UInt8) : Nat := bytes.foldr (fun byte rest => byte.toNat+256*rest) 0

def widen (exponentBits fractionBits bits : Nat) : Double :=
  let fraction := bits%2^fractionBits
  let exponent := bits/2^fractionBits%2^exponentBits
  let bias := 2^(exponentBits-1)-1
  let magnitude :=
    if exponent = 2^exponentBits-1 then if fraction = 0 then Double.infinity else nan
    else if exponent = 0 then if fraction = 0 then Double.zero else Double.nearest fraction (2^(bias+fractionBits-1))
    else Double.nearest ((2^fractionBits+fraction)*2^exponent) (2^(bias+fractionBits))
  if bits/2^(exponentBits+fractionBits)%2 = 1 then magnitude.negate else magnitude

def signed (bits width : Nat) : Int := if 2^(width-1) ≤ bits then (bits : Int)-2^width else bits

def valueFromStorage (kind : ElementKind) (bytes : List UInt8) : Exec Value :=
  let bits := littleEndian bytes
  match kind with
  | .int8 => pure (.int32 (Int32.ofInt (signed bits 8)).toUInt32)
  | .uint8 | .uint8Clamped | .uint16 => pure (.int32 (UInt32.ofNat bits))
  | .int16 => pure (.int32 (Int32.ofInt (signed bits 16)).toUInt32)
  | .int32 => pure (.int32 (UInt32.ofNat bits))
  | .uint32 => pure (numberValue (.ofNat bits))
  | .float16 => pure (.number (widen 5 10 bits))
  | .float32 => pure (.number (widen 8 23 bits))
  | .float64 => pure (.number ⟨UInt64.ofNat bits⟩)
  | .bigInt64 => allocate (.bigInt (toString (signed bits 64)))
  | .bigUint64 => allocate (.bigInt (toString bits))

def readElement (view : Value) (elementIndex : Nat) : Exec Value := do
  let m ← read
  let fields ← lift (m.viewFields view)
  let bounds ← lift (m.typedArrayBoundsFor fields)
  if bounds.outOfBounds ∨ bounds.elementLength ≤ elementIndex then pure .undefined
  else
    let start := fields.byteOffset+elementIndex*fields.kind.elementSize
    let buffer ← lift (ViewBuffer.fromValue m fields.buffer)
    match buffer.bytes? with
    | none => fail (typeError "Cannot access a detached ArrayBuffer")
    | some bytes =>
      if bytes.length < start+fields.kind.elementSize then fail (.panicked .unexpected)
      else valueFromStorage fields.kind ((bytes.drop start).take fields.kind.elementSize)

def overwrite (bytes storage : List UInt8) (start : Nat) : List UInt8 :=
  bytes.take start ++ storage ++ bytes.drop (start+storage.length)

def storeBytes : ViewBuffer → List UInt8 → Exec Unit
  | .array index _, bytes => update fun m => { m with heap := m.heap.modify index fun
      | .arrayBuffer header data => .arrayBuffer header { data with bytes := some bytes }
      | entry => entry }
  | .shared block _, bytes => update fun m =>
      { m with sharedBlocks := m.sharedBlocks.modify block fun shared => { shared with bytes := bytes } }

def writeElement (view : Value) (elementIndex : Nat) (value : Value) : Exec Bool := do
  let m ← read
  let fields ← lift (m.viewFields view)
  match m.platform.elementStorage m.heap fields.kind value with
  | none => fail (.callout value .undefined [])
  | some storage =>
    let bounds ← lift (m.typedArrayBoundsFor fields)
    if bounds.outOfBounds ∨ bounds.elementLength ≤ elementIndex then pure false
    else
      let start := fields.byteOffset+elementIndex*fields.kind.elementSize
      let buffer ← lift (ViewBuffer.fromValue m fields.buffer)
      match buffer.bytes? with
      | none => fail (typeError "Cannot access a detached ArrayBuffer")
      | some bytes =>
        if bytes.length < start+fields.kind.elementSize then fail (.panicked .unexpected)
        else do
          storeBytes buffer (overwrite bytes (storage.take fields.kind.elementSize) start)
          pure true

def Machine.valueForRuntimeIndex (index : Nat) : Except Fault Value :=
  match valueForHeapIndex index with
  | some value => .ok value
  | none => .error (rangeError "runtime heap slot exceeds u32")

def Machine.typedArrayLengthAt (m : Machine) (index : Nat) : Option Nat :=
  match (Machine.valueForRuntimeIndex index).bind m.typedArrayBounds with
  | .ok bounds => if bounds.outOfBounds then none else some bounds.elementLength
  | .error _ => none

-- The position a key names in a typed array: `some none` for a number that is no index.
def PropertyKey.typedIndex : PropertyKey → Option (Option Nat)
  | .named name => typedArrayIndex name
  | _ => none

def escapeSource : List UInt16 → Bool → Bool → List UInt16
  | [], _, _ => []
  | unit :: rest, previousWasEscape, inCharacterClass =>
    let escape := unit == 0x5c && !previousWasEscape
    if unit == 0x5b && !previousWasEscape then unit :: escapeSource rest escape true
    else if unit == 0x5d && !previousWasEscape then unit :: escapeSource rest escape false
    else
      (if unit == 0x2f && !previousWasEscape && !inCharacterClass then [0x5c,0x2f]
        else if unit == 0x0a then (ascii "\\n").asUnits
        else if unit == 0x0d then (ascii "\\r").asUnits
        else if unit == 0x2028 then (ascii "\\u2028").asUnits
        else if unit == 0x2029 then (ascii "\\u2029").asUnits
        else [unit]) ++ escapeSource rest escape inCharacterClass

def canonicalSource (pattern : EcmaString) : EcmaString :=
  if pattern.asUnits.isEmpty then ascii "(?:)" else ⟨escapeSource pattern.asUnits false false⟩

def Machine.functionOwnGet (m : Machine) (module : ModuleId) (function : FunctionId) (name : EcmaString) : Option Found :=
  let code := m.moduleCode module
  match code.bind (·.functions[function.get.toNat]?) with
  | none => some (.failure (.panicked .unexpected))
  | some metadata =>
    if eqAscii name "length" then some (.value (numberValue (.ofNat metadata.parameterCount.toNat)))
    else if eqAscii name "name" then some (.text (metadata.name.elim ⟨[]⟩ fun id => (m.constantText module id).getD ⟨[]⟩))
    else none

def regExpFlags : List (String × UInt16) :=
  [("global",103),("ignoreCase",105),("multiline",109),("sticky",121),("unicode",117),("dotAll",115)]

def regExpOwnGet (pattern flags name : EcmaString) : Option Found :=
  if eqAscii name "source" then some (.text (canonicalSource pattern))
  else if eqAscii name "flags" then some (.text flags)
  else match regExpFlags.find? fun flag => eqAscii name flag.1 with
    | some flag => some (.value (.boolean (flags.asUnits.contains flag.2)))
    | none => if eqAscii name "lastIndex" then some (.value (.int32 0)) else none

def Machine.ownGetEntry (m : Machine) (index : Nat) (key : PropertyKey) : HeapEntry → Option Found
  | .object header boxedPrimitive =>
    (propertyLookup header.properties key).or
      ((boxedPrimitive.bind m.stringValue).bind fun text => stringOwnGet text key)
  | .array header elements _ =>
    if key.eqAscii "length" then some (.value (numberValue (.ofNat elements.length)))
    else match key.index.bind (elements[·]?) with
      | some element => if element = .hole then propertyLookup header.properties key else some (.value element)
      | none => propertyLookup header.properties key
  | .typedArray header _ =>
    match key.typedIndex with
    | some typedIndex =>
      match typedIndex,m.typedArrayLengthAt index with
      | some offset, some length => if offset < length then some (.value .undefined) else none
      | _, _ => none
    | none => propertyLookup header.properties key
  | .function header module function _ _ =>
    (propertyLookup header.properties key).or (key.asString.bind (m.functionOwnGet module function))
  | .moduleNamespace module =>
    match key.asString.map (m.namespaceExport module) with
    | some (.ok (some value)) => some (.value value)
    | some (.error fault) => some (.failure fault)
    | some (.ok none) | none => none
  | .externalModuleNamespace specifier =>
    key.asString.bind fun name =>
      match m.externalModule specifier with
      | none => some (.failure (.panicked .unexpected))
      | some external => (external.exports.lookup name).map fun exported =>
        match exported.cell with
        | none => .value exported.value
        | some cell => match m.cell cell with
          | .ok value => .value value
          | .error fault => .failure fault
  | .regExp header pattern flags =>
    (propertyLookup header.properties key).or (key.asString.bind (regExpOwnGet pattern flags))
  | .hashState _ _ _ update digest =>
    if key.eqAscii "update" then some (.value update) else if key.eqAscii "digest" then some (.value digest) else none
  | .string text => stringOwnGet text key
  | .vacant => some (.failure (.panicked .unexpected))
  | entry => entry.header?.bind fun header => propertyLookup header.properties key

def Machine.ownGet (m : Machine) (index : Nat) (key : PropertyKey) : Option Found :=
  if m.slotOk m.intrinsics.objectPrototype = some index ∧ key.eqAscii "toString" then
    match m.intrinsics.builtins.slot .objectToString with
    | some value => some (.value value)
    | none => some (.failure (.panicked .unexpected))
  else m.ownGetEntry index key (m.entry index)

def arrayDescriptor (header : Header) (elements : List Value) (lengthWritable : Bool) (key : PropertyKey) : Option Property :=
  if key.eqAscii "length" then some (.data (numberValue (.ofNat elements.length)) lengthWritable false false)
  else (header.properties.get key).or
    ((key.index.bind (elements[·]?)).bind fun element => if element = .hole then none else some (.plain element))

def ownDescriptor (object : Value) (key : PropertyKey) : Exec (Option Property) := do
  let m ← read
  match ← runtimeSlot object with
  | none => pure none
  | some index => match m.entry index with
    | .moduleNamespace module => match key.asString with
      | none => pure none
      | some name => do
        let value ← lift (m.namespaceExport module name)
        pure (value.map fun value => .data value true true false)
    | .array header elements lengthWritable => pure (arrayDescriptor header elements lengthWritable key)
    | .typedArray header _ => match key.typedIndex with
      | none => pure (header.properties.get key)
      | some typedIndex => do
        let view ← lift (Machine.valueForRuntimeIndex index)
        let bounds ← lift (m.typedArrayBounds view)
        match typedIndex with
        | none => pure none
        | some offset =>
          if bounds.outOfBounds ∨ bounds.elementLength ≤ offset then pure none
          else do
            let value ← readElement view offset
            pure (some (.plain value))
    | entry =>
      if entry.kind ∈ HeapEntry.describedKinds then pure (entry.header?.bind fun header => header.properties.get key)
      else pure none

def sortByIndex (keys : List (Nat × PropertyKey)) : List (Nat × PropertyKey) :=
  keys.mergeSort fun left right => decide (left.1 ≤ right.1)

def indexed (key : PropertyKey) : Option (Nat × PropertyKey) := key.index.map (·,key)

def plainNames (keys : List PropertyKey) : List PropertyKey :=
  keys.filter fun key => key.asString.isSome && key.index.isNone

def symbols (keys : List PropertyKey) : List PropertyKey :=
  keys.filter fun
    | .symbol _ => true
    | _ => false

def orderedPropertyKeys (properties : PropertyMap) : List PropertyKey :=
  (sortByIndex (properties.keys.filterMap indexed)).map Prod.snd ++ plainNames properties.keys ++ symbols properties.keys

def presentOffsets (elements : List Value) : List (Nat × PropertyKey) :=
  (elements.zipIdx.filter fun element => element.1 != .hole).map fun element => (element.2,.named (decimal element.2))

def arrayPropertyKeys (elements : List Value) (properties : PropertyMap) : List PropertyKey :=
  let stored := orderedPropertyKeys properties
  let extra := (stored.filterMap indexed).filter fun entry => elements[entry.1]?.getD .hole == .hole
  (sortByIndex (presentOffsets elements ++ extra)).map Prod.snd ++ stored.filter fun key => key.index.isNone

def Machine.namespaceKeys (m : Machine) (module : ModuleId) : Except Fault (List PropertyKey) := do
  let source ← orPanic (m.programModule module)
  let names ← source.exports.mapM fun exported => orPanic (m.constantText module exported.name)
  -- `EcmaString` compares its units lexicographically.
  .ok ((names.mergeSort fun left right => !decide (List.Lex (· < ·) right.asUnits left.asUnits)).map .named)

def Machine.ownPropertyKeysAt (m : Machine) (index : Nat) : Except Fault (List PropertyKey) :=
  match m.entry index with
  | .typedArray header _ =>
    let length := (m.typedArrayLengthAt index).getD 0
    .ok ((List.range length).map (fun offset => .named (decimal offset)) ++
      (orderedPropertyKeys header.properties).filter fun key => key.typedIndex.isNone)
  | .array header elements _ => .ok (arrayPropertyKeys elements header.properties)
  | .string text => .ok ((List.range text.lenUnits).map fun offset => .named (decimal offset))
  | .moduleNamespace module => m.namespaceKeys module
  | .externalModuleNamespace specifier => do
    let external ← orPanic (m.externalModule specifier)
    .ok (external.exports.map fun exported => .named exported.1)
  | .vacant => .error (.panicked .unexpected)
  | entry => .ok (entry.header?.elim [] fun header => orderedPropertyKeys header.properties)

def Machine.ownPropertyKeys (m : Machine) (src : Value) : Except Fault (List PropertyKey) := do
  match ← m.slot src with
  | none => .ok []
  | some index => m.ownPropertyKeysAt index

def Machine.unboxPrimitiveOrSelf (m : Machine) (value : Value) : Except Fault Value := do
  match (← m.slot value).map m.entry with
  | some (.object _ (some primitive)) => .ok primitive
  | _ => .ok value

-- Insertion into a `BTreeMap`.
def insertOrdered {α : Type} (key : Nat) (value : α) : List (Nat × α) → List (Nat × α)
  | [] => [(key,value)]
  | entry :: rest =>
    if key < entry.1 then (key,value) :: entry :: rest
    else if key = entry.1 then (key,value) :: rest
    else entry :: insertOrdered key value rest

def stringOffsets (text : EcmaString) : List (Nat × PropertyKey) :=
  (List.range text.lenUnits).foldl (fun indices offset => insertOrdered (offset%2^32) (.named (decimal offset)) indices) []

def mergeStringKeys (text : EcmaString) (stored : List PropertyKey) : List PropertyKey :=
  let indices := (stored.filterMap indexed).foldl (fun indices entry => insertOrdered entry.1 entry.2 indices)
    (stringOffsets text)
  indices.map Prod.snd ++ [PropertyKey.named (ascii "length")] ++
  (plainNames stored).filter (fun key => !key.eqAscii "length") ++ symbols stored

def Machine.ownKeys (m : Machine) (object : Value) : Except Fault (List PropertyKey) := do
  let stored ← m.ownPropertyKeys object
  let primitive ← m.unboxPrimitiveOrSelf object
  match (← m.slot primitive).map m.entry with
  | some (.string text) => .ok (mergeStringKeys text stored)
  | _ => .ok stored

def internalOwnPropertyKeys (object : Value) : Exec (List PropertyKey) := do
  let m ← read
  if m.isProxyValue object then fail (.callout object .undefined [])
  else lift (m.ownKeys object)

def Machine.prototypeIndex (m : Machine) (index : Nat) : Except Fault (Option Nat) :=
  let entry := m.entry index
  let prototype := match entry with
    | .proxyRevoker .. => some m.intrinsics.functionPrototype
    | .nativeFunction header _ => header.prototype.or (some m.intrinsics.functionPrototype)
    | .processEnv prototype _ => prototype
    | entry => entry.header?.bind (·.prototype)
  match prototype with
  | some value => m.slot value
  | none => .ok none

end Bamts.Runtime
