import Bamts.RuntimeValue

/-! The heap of the runtime and everything of the machine that can hold a reference into it. -/
set_option linter.all false
namespace Bamts.Runtime
open Bytecode Linkage Binary64

-- `std::mem::size_of::<Value>()`
def valueBytes : Nat := 8

inductive PropertyKey where
  | named (text : EcmaString)
  | symbol (index : UInt32)
  | «private» (index : UInt32)
  deriving DecidableEq

namespace PropertyKey

def asString : PropertyKey → Option EcmaString
  | named text => some text
  | symbol _ | «private» _ => none

def isPrivate : PropertyKey → Bool
  | «private» _ => true
  | _ => false

def eqAscii (key : PropertyKey) (text : String) : Bool := key == named (ascii text)

def index (key : PropertyKey) : Option Nat := key.asString.bind arrayIndex

def chargeBytes : PropertyKey → Nat
  | named text => text.lenUnits*2+8
  | symbol _ | «private» _ => 16

end PropertyKey

inductive Property where
  | data (value : Value) (writable enumerable configurable : Bool)
  | accessor (getter setter : Option Value) (enumerable configurable : Bool)
  deriving DecidableEq

namespace Property

def enumerable : Property → Bool
  | data _ _ e _ | accessor _ _ e _ => e

def configurable : Property → Bool
  | data _ _ _ c | accessor _ _ _ c => c

def chargeBytes : Property → Nat
  | data .. => 0
  | accessor .. => valueBytes

def plain (value : Value) : Property := data value true true true

end Property

structure PropertyMap where
  entries : List (PropertyKey × Property)
  distinct : (entries.map Prod.fst).Nodup
  deriving DecidableEq

namespace PropertyMap

def empty : PropertyMap := ⟨[],List.nodup_nil⟩

def get (map : PropertyMap) (key : PropertyKey) : Option Property :=
  (map.entries.find? fun entry => entry.1 = key).map Prod.snd

def containsKey (map : PropertyMap) (key : PropertyKey) : Bool := (map.get key).isSome

def keys (map : PropertyMap) : List PropertyKey := map.entries.map Prod.fst

theorem getNone {map : PropertyMap} {key} : map.get key = none ↔ key ∉ map.keys := by
  simp only [get,keys,Option.map_eq_none_iff,List.find?_eq_none,List.mem_map,decide_eq_true_eq,not_exists,not_and]

def replace (entries : List (PropertyKey × Property)) (key : PropertyKey) (property : Property) :
    List (PropertyKey × Property) := entries.map fun entry => if entry.1 = key then (key,property) else entry

theorem replaceKeys (entries key property) :
    (replace entries key property).map Prod.fst = entries.map Prod.fst := by
  rw [replace,List.map_map]
  apply List.map_congr_left
  intro entry _
  by_cases same : entry.1 = key
  · simp [same]
  · simp [same]

def insert (map : PropertyMap) (key : PropertyKey) (property : Property) : PropertyMap :=
  if found : key ∈ map.keys then ⟨replace map.entries key property,by rw [replaceKeys]; exact map.distinct⟩
  else ⟨map.entries ++ [(key,property)],by
    rw [List.map_append,List.nodup_append]
    refine ⟨map.distinct,by simp,?_⟩
    intro a inside b single
    simp only [List.map_cons,List.map_nil,List.mem_singleton] at single
    subst single
    exact fun same => found (same ▸ inside)⟩

def filter (map : PropertyMap) (keep : PropertyKey × Property → Bool) : PropertyMap :=
  ⟨map.entries.filter keep,map.distinct.sublist (List.filter_sublist.map _)⟩

def remove (map : PropertyMap) (key : PropertyKey) : PropertyMap := map.filter fun entry => entry.1 != key

def chargeBytes (map : PropertyMap) : Nat :=
  (map.entries.map fun entry => entry.1.chargeBytes + entry.2.chargeBytes).sum

end PropertyMap

structure Header where
  properties : PropertyMap
  prototype : Option Value
  extensible : Bool
  deriving DecidableEq

inductive ThrowOrigin where
  | bytecode
  | typeError (operation : String)
  | rangeError (operation : String)
  | referenceError (operation : String)
  | uriError (operation : String)
  deriving DecidableEq

inductive RuntimeErrorKind where
  | uncaughtThrow (value : Value) (origin : ThrowOrigin) (constructorName : Option EcmaString)
  | fuelExhausted (limit : Nat)
  | callDepthExceeded (limit : Nat)
  | registerLimitExceeded (limit : Nat)
  | argumentLimitExceeded (limit requested : UInt32)
  | heapSlotLimitExceeded (limit : Nat)
  | heapByteLimitExceeded (limit : Nat)
  | moduleCellLimitExceeded (limit : Nat)
  | dynamicModuleLimitExceeded (limit : Nat)
  | microtaskQueueLimitExceeded (limit : Nat)
  | microtaskDrainReentry
  | timerProviderFailure (message : String)
  | timerCapacityExceeded (limit : Nat)
  | timerCheckpointReentry
  | invalidDynamicScript (reason : String)
  | temporalDeadZone (module : ModuleId) (binding : BindingId)
  | externalModuleUnavailable (module : ModuleId) (edge : EdgeId)
  | dynamicImportEdgeMissing (module : ModuleId) (specifier : ConstantId)
  | invalidVerifiedProgram (module : ModuleId) (instruction : Instruction)
  | invalidValue (value : Value)
  | invalidRuntimeHeapReference (slot : UInt32)
  | moduleEvaluationStalled (module : ModuleId)
  | regexpStepBudgetExceeded (limit : Nat)
  | cancelled

structure RuntimeError where
  kind : RuntimeErrorKind
  function : FunctionId
  pc : Pc

structure Execution where
  value : Value
  link : Value
  entryRegisters : List Value

structure RuntimeFunction where
  module : ModuleId
  function : FunctionId

structure GeneratorStart where
  target : RuntimeFunction
  captures : List Value
  thisValue : Value
  newTarget : Value
  args : List Value
  context : Option Value

structure SuspendedActivation where
  target : RuntimeFunction
  registers : List Value
  thisValue : Value
  newTarget : Value
  args : List Value
  argumentsObject : Option Value
  resumeToken : UInt32
  context : Option Value

inductive GeneratorState where
  | suspendedStart (start : GeneratorStart)
  | executing
  | suspended (activation : SuspendedActivation)
  | completed

inductive GeneratorResume where
  | yield (value : Value) (activation : SuspendedActivation)
  | «return» (value : Value)
  | throw (value : Value) (origin : ThrowOrigin)

inductive GeneratorCompletion where
  | normal (value : Value)
  | «return» (value : Value)
  | throw (value : Value) (origin : ThrowOrigin)

structure AsyncGeneratorRequest where
  completion : GeneratorCompletion
  capability : Value

inductive AsyncGeneratorState where
  | suspendedStart (start : GeneratorStart)
  | suspendedYield (activation : SuspendedActivation)
  | executing
  | awaitingOperand (activation : SuspendedActivation)
  | awaitingYield (activation : SuspendedActivation)
  | awaitingResumption (activation : SuspendedActivation)
  | awaitingReturn
  | completed

inductive PromiseReaction where
  | fulfilled (handler derived : Value) (context : Option Value)
  | rejected (handler derived : Value) (context : Option Value)
  | asyncFulfill (activation : Value) (context : Option Value)
  | asyncReject (activation : Value) (context : Option Value)
  | asyncGeneratorFulfill (generator : Value) (context : Option Value)
  | asyncGeneratorReject (generator : Value) (context : Option Value)
  | moduleDepFulfill (parent : ModuleId) (context : Option Value)
  | moduleDepReject (parent : ModuleId) (context : Option Value)
  | asyncFromSyncFulfill (derived : Value) (done : Bool) (context : Option Value)
  | asyncFromSyncReject (derived syncIterator : Value) (context : Option Value)
  | asyncDisposeStep (stack : Value) (pendingError : Option Value) (capability : Value) (rejected : Bool)
      (context : Option Value)
  | dynamicImportFulfill (promise : Value) (target : ModuleId) (context : Option Value)
  | dynamicImportReject (promise : Value) (context : Option Value)

def PromiseReaction.context : PromiseReaction → Option Value
  | fulfilled _ _ c | rejected _ _ c | asyncFulfill _ c | asyncReject _ c | asyncGeneratorFulfill _ c
  | asyncGeneratorReject _ c | moduleDepFulfill _ c | moduleDepReject _ c | asyncFromSyncFulfill _ _ c
  | asyncFromSyncReject _ _ c | asyncDisposeStep _ _ _ _ c | dynamicImportFulfill _ _ c
  | dynamicImportReject _ c => c

inductive PromiseState where
  | pending (fulfillReactions rejectReactions : List PromiseReaction)
  | fulfilled (value : Value)
  | rejected (reason : Value) (origin : ThrowOrigin)

inductive MicrotaskJob where
  | reaction (reaction : PromiseReaction) (value : Value) (origin : ThrowOrigin)
  | thenable (promise thenable then_ : Value) (context : Option Value)
  | callback (callback : Value) (context : Option Value)
  | finalizationCleanup (registry : Value) (context : Option Value)

structure QueuedMicrotask where
  job : MicrotaskJob
  retainedBytes : Nat

inductive CollectionKind where
  | map | set | weakMap | weakSet
  deriving DecidableEq

structure CollectionEntry where
  order : Nat
  key : Value
  value : Value
  live : Bool
  deriving DecidableEq

def CollectionEntry.bytes : Nat := 32

structure CollectionIndex where
  buckets : List (UInt64 × List Nat)
  deriving DecidableEq

namespace CollectionIndex

def entryBytes : Nat := 8

def empty : CollectionIndex := ⟨[]⟩

def bucket (index : CollectionIndex) (hash : UInt64) : List Nat := (index.buckets.lookup hash).getD []

def insert (index : CollectionIndex) (hash : UInt64) (position : Nat) : CollectionIndex :=
  ⟨(hash,index.bucket hash ++ [position]) :: index.buckets.filter fun bucket => bucket.1 != hash⟩

end CollectionIndex

inductive IterationKind where
  | key | value | entry
  deriving DecidableEq

structure ForInIteratorState where
  current : Option Value
  objectWasVisited : Bool
  remaining : List EcmaString
  visitedNames : List EcmaString
  visitedObjects : List Nat

inductive IteratorState where
  | keys (forIn : ForInIteratorState)
  | protocol (iterator next : Value)

inductive ElementKind where
  | int8 | uint8 | uint8Clamped | int16 | uint16 | int32 | uint32 | float16 | float32 | float64 | bigInt64 | bigUint64
  deriving DecidableEq

def ElementKind.elementSize : ElementKind → Nat
  | .int8 | .uint8 | .uint8Clamped => 1
  | .int16 | .uint16 | .float16 => 2
  | .int32 | .uint32 | .float32 => 4
  | .float64 | .bigInt64 | .bigUint64 => 8

inductive LengthSlot where
  | fixed (length : Nat)
  | auto
  deriving DecidableEq

structure ViewFields where
  kind : ElementKind
  buffer : Value
  byteOffset : Nat
  byteLength : LengthSlot
  arrayLength : LengthSlot
  deriving DecidableEq

-- `bytes` is absent once the buffer is detached.
structure ArrayBufferData where
  bytes : Option (List UInt8)
  maxByteLength : Option Nat
  detachKey : Value
  deriving DecidableEq

structure FinalizationCell where
  target : Value
  heldValue : Value
  unregisterToken : Option Value
  deriving DecidableEq

def FinalizationCell.bytes : Nat := 32

structure DisposableResource where
  value : Value
  method : Value
  kind : UInt8
  hint : DisposeHint

structure DisposalStackState where
  resources : List DisposableResource
  disposed : Bool

structure BoundCallable where
  target : Value
  thisValue : Value
  arguments : List Value
  deriving DecidableEq

inductive NativeCallable where
  | builtin (id : Nat)
  | bound (bound : BoundCallable)
  deriving DecidableEq

inductive ProxyState where
  | live (target handler : Value)
  | revoked
  deriving DecidableEq

structure ProxyRecord where
  state : ProxyState
  callable : Bool
  constructable : Bool
  deriving DecidableEq

structure ProxyRevokerRecord where
  proxy : Option Value
  deriving DecidableEq

inductive HeapEntry where
  | vacant
  | string (text : EcmaString)
  | bigInt (text : String)
  | object (header : Header) (boxedPrimitive : Option Value)
  | array (header : Header) (elements : List Value) (lengthWritable : Bool)
  | function (header : Header) (module : ModuleId) (function : FunctionId) (captures : List Value)
      (context : Option Value)
  | script (header : Header) (entry : Value)
  | moduleNamespace (module : ModuleId)
  | externalModuleNamespace (specifier : EcmaString)
  | hashState (algorithm : String) (data : List UInt8) (digested : Bool) (update digest : Value)
  | symbol (description : EcmaString)
  | privateName (description : EcmaString)
  | regExp (header : Header) (pattern flags : EcmaString)
  | date (header : Header) (time : Double)
  | collection (header : Header) (kind : CollectionKind) (entries : List CollectionEntry) (index : CollectionIndex)
      (size nextOrder : Nat)
  | typedArray (header : Header) (fields : ViewFields)
  | dataView (header : Header) (buffer : Value) (byteOffset : Nat) (byteLength : LengthSlot)
  | arrayBuffer (header : Header) (data : ArrayBufferData)
  | sharedArrayBuffer (header : Header) (block : Nat)
  | weakRef (header : Header) (target : Option Value)
  | finalizationRegistry (header : Header) (cleanupCallback : Value) (cells : List FinalizationCell)
      (pendingHoldings : List Value) (cleanupScheduled : Bool)
  | builtinIterator (header : Header) (source : Value) (kind : IterationKind) (position : Option Nat)
  | iterator (state : IteratorState)
  | generator (header : Header) (state : GeneratorState)
  | asyncGenerator (header : Header) (state : AsyncGeneratorState) (queue : List AsyncGeneratorRequest)
  | asyncFromSync (header : Header) (iterator next : Value)
  | disposableStack (header : Header) (state : DisposalStackState) (hint : DisposeHint)
  | processEnv (prototype : Option Value) (extensible : Bool)
  | promise (header : Header) (state : PromiseState)
  | timeout (header : Header) (id generation : Nat)
  | promiseResolver (promise : Value) (used : Bool)
  | promiseAll (resolve reject : Value) (values : List Value) (remaining : Nat) (settled : Bool)
  | promiseAllElement (aggregate : Value) (index : Nat) (called : Bool)
  | asyncActivation (activation : Option SuspendedActivation) (promise : Value) (module : Option ModuleId)
      (completion : Option (Except RuntimeError Execution))
  | nativeFunction (header : Header) (callable : NativeCallable)
  | proxy (record : ProxyRecord)
  | proxyRevoker (record : ProxyRevokerRecord) (properties : PropertyMap) (extensible : Bool)

def HeapEntry.isVacant : HeapEntry → Bool
  | .vacant => true
  | _ => false

structure ReturnTo where
  destination : Option Nat
  callPc : Nat
  constructed : Option Value

structure Frame where
  registers : List Value
  returnTo : Option ReturnTo
  context : Option Value
  outerContext : Option Value
  thisValue : Value
  newTarget : Value
  args : List Value
  argumentsObject : Option Value

structure TimerRecord where
  callback : Value
  arguments : List Value
  handle : Value
  context : Option Value

inductive ModuleState where
  | unevaluated
  | evaluating
  | evaluatingAsync (record promise : Value) (pendingDeps : Nat)
  | evaluated (result : Except RuntimeError Unit)

structure ModuleInstance where
  bindingCells : List (Option Nat)
  namespace_ : Option Value
  state : ModuleState
  importMeta : Option Value

structure ExternalExport where
  value : Value
  cell : Option Nat

-- The maps of the registry are `BTreeMap`s: lists in the order of their keys.
structure ExternalModuleInstance where
  namespace_ : Value
  exports : List (EcmaString × ExternalExport)
  internals : List (String × Value)

structure ModuleRegistry where
  modules : List ModuleInstance
  cells : List Value
  external : List (EcmaString × ExternalModuleInstance)

inductive BuiltinSlot where
  | symbolIterator | symbolAsyncIterator | symbolToStringTag | symbolMatch | symbolReplace | symbolSpecies
  | symbolDispose | symbolAsyncDispose | symbolUnscopables | symbolPrototype | bigintConstructor | bigintPrototype
  | objectToString | regexpPrototype | iteratorPrototype | asyncIteratorPrototype | generatorPrototype
  | asyncGeneratorPrototype | asyncFromSyncIteratorPrototype | promiseAllTarget | promisePrototype
  | typedarrayConstructor | typedarrayPrototype | arraybufferConstructor | arraybufferPrototype | dataviewPrototype
  | sharedarraybufferPrototype | disposableStackPrototype | asyncDisposableStackPrototype | datePrototype
  | weakRefPrototype | finalizationRegistryPrototype | mapPrototype | setPrototype | weakMapPrototype
  | weakSetPrototype | promiseCapabilityExecutor | promiseFinallyValue | promiseFinallyThrow | promiseFinallyReturn
  | promiseFinallyRethrow | promiseThenFulfill | promiseThenReject
  deriving DecidableEq

def BuiltinSlot.all : List BuiltinSlot :=
  [.symbolIterator,.symbolAsyncIterator,.symbolToStringTag,.symbolMatch,.symbolReplace,.symbolSpecies,.symbolDispose,
   .symbolAsyncDispose,.symbolUnscopables,.symbolPrototype,.bigintConstructor,.bigintPrototype,.objectToString,
   .regexpPrototype,.iteratorPrototype,.asyncIteratorPrototype,.generatorPrototype,.asyncGeneratorPrototype,
   .asyncFromSyncIteratorPrototype,.promiseAllTarget,.promisePrototype,.typedarrayConstructor,.typedarrayPrototype,
   .arraybufferConstructor,.arraybufferPrototype,.dataviewPrototype,.sharedarraybufferPrototype,
   .disposableStackPrototype,.asyncDisposableStackPrototype,.datePrototype,.weakRefPrototype,
   .finalizationRegistryPrototype,.mapPrototype,.setPrototype,.weakMapPrototype,.weakSetPrototype,
   .promiseCapabilityExecutor,.promiseFinallyValue,.promiseFinallyThrow,.promiseFinallyReturn,.promiseFinallyRethrow,
   .promiseThenFulfill,.promiseThenReject]

structure BuiltinTable where
  objectPrototype : Value
  functionPrototype : Value
  arrayPrototype : Value
  stringPrototype : Value
  numberPrototype : Value
  booleanPrototype : Value
  errorPrototypes : List (Nat × Value)
  slot : BuiltinSlot → Option Value
  typedarrayConstructors : List (Option Value)
  typedarrayPrototypes : List (Option Value)
  promiseResolverTargets : Option (Value × Value)

structure Intrinsics where
  globals : List (EcmaString × Value)
  symbolRegistry : List (EcmaString × Value)
  objectPrototype : Value
  functionPrototype : Value
  arrayPrototype : Value
  stringPrototype : Value
  numberPrototype : Value
  booleanPrototype : Value
  builtins : BuiltinTable

structure Limits where
  maxHeapSlots : Nat
  maxHeapBytes : Nat

inductive KeyDigest where
  | number (bits : UInt64)
  | text (text : EcmaString)
  | bigInt (text : String)
  | reference (bits : UInt64)
  | other (bits : UInt64)
  deriving DecidableEq

-- What the machine takes from outside the modelled part: the unspecified hash of the
-- standard library, the layout of a request record, and the bytes an element of a typed
-- array is stored as when its conversion runs no code of the program.
structure Platform where
  hash : KeyDigest → UInt64
  asyncGeneratorRequestBytes : Nat
  elementStorage : List HeapEntry → ElementKind → Value → Option (List UInt8)

structure GcState where
  marks : List Bool
  work : List Nat
  weakCollections : List Nat
  pending : Bool
  byteWatermark : Nat
  slotWatermark : Nat

structure SharedBlock where
  bytes : List UInt8
  maxByteLength : Option Nat

structure Machine where
  program : Option Program
  module : Module
  limits : Limits
  platform : Platform
  gc : GcState
  nativeRoots : List (List Value)
  keptAlive : List Value
  frames : List Frame
  heap : List HeapEntry
  slotBytes : List Nat
  intrinsicSlotCredits : List Nat
  machineBytes : Nat
  intrinsicSlots : Nat
  vacantCount : Nat
  heapBytes : Nat
  globalObject : Value
  contextGlobal : Option Value
  lastCompletion : Option Value
  pendingGeneratorResume : Option GeneratorResume
  pendingAsyncSuspend : Option (Value × SuspendedActivation)
  microtasks : List QueuedMicrotask
  finalizationCleanupQueue : List Value
  timers : List (Nat × TimerRecord)
  intrinsics : Intrinsics
  currentNewTarget : Value
  registry : ModuleRegistry
  dynamicBase : Nat
  dynamic : List Program
  sharedBlocks : List SharedBlock

end Bamts.Runtime
