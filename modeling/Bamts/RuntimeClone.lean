import Bamts.RuntimeSpread
import Bamts.RuntimeCollection

/-! Structured clone: the plan read from the source, the targets made from it, and the buffers that are transferred. -/
set_option linter.all false
namespace Bamts.Runtime
open Effect Bytecode Linkage Binary64

inductive DataCloneError where
  | callable | symbol | weakReference | hostObject | detachedArrayBuffer | duplicateTransfer | nonTransferable
  | arrayBufferDetachKey | unsupportedBinaryView
  deriving DecidableEq

-- The fuel bounds the objects a getter can bring up; it is no failure of the source.
inductive CloneFailure where
  | dataClone (error : DataCloneError)
  | evaluation (fault : Fault)
  | outOfFuel

inductive EncodedValue where
  | immediate (value : Value)
  | node (id : Nat)

structure PlannedProperty where
  key : PropertyKey
  value : EncodedValue
  writable : Bool
  enumerable : Bool
  configurable : Bool

inductive PlannedNode where
  | pending (source : Value)
  | string (text : EcmaString)
  | bigInt (text : String)
  | object (prototype : Option Value) (boxedPrimitive : Option EncodedValue) (properties : List PlannedProperty)
  | array (length : Nat) (elements : List (Nat × EncodedValue)) (properties : List PlannedProperty)
  | date (time : Double) (properties : List PlannedProperty)
  | regExp (pattern flags : EcmaString) (source canonicalFlags : EncodedValue) (properties : List PlannedProperty)
  | map (entries : List (EncodedValue × EncodedValue)) (properties : List PlannedProperty) (prototype : Option Value)
  | set (values : List EncodedValue) (properties : List PlannedProperty) (prototype : Option Value)
  | arrayBuffer (bytes : List UInt8) (maxByteLength : Option Nat) (properties : List PlannedProperty)
  | sharedArrayBuffer (block : Nat) (properties : List PlannedProperty) (prototype : Option Value)

structure ClonePlan where
  root : EncodedValue
  nodes : List PlannedNode
  sourceToNode : List (Nat × Nat)
  pending : List Nat
  transfers : List Value

def ClonePlan.new (transfers : List Value) : ClonePlan := ⟨.immediate .undefined,[],[],[],transfers⟩

structure Planner where
  machine : Machine
  plan : ClonePlan

abbrev Clone := EStateM CloneFailure Machine
abbrev Planning := EStateM CloneFailure Planner

def evaluate {α : Type} (p : Exec α) : Clone α := fun m =>
  match p m with
  | .ok a t => .ok a t
  | .error fault t => .error (.evaluation fault) t

def inPlanner {α : Type} (p : Clone α) : Planning α := zoom Planner.machine (fun s m => { s with machine := m }) p

-- `ArrayBufferHandle::same_value`
def Machine.detachKeySame (m : Machine) (left right : Value) : Bool :=
  let numeric (value : Value) : Option Double :=
    match value.decode with
    | some (.int32 raw) => some (int32Double raw)
    | some (.number x) => some x
    | _ => none
  match numeric left,numeric right with
  | some a, some b => if a.isNaN && b.isNaN then true else if a.isZero && b.isZero then a.negative == b.negative else a.eq b
  | _, _ => m.strictEqual left right

def incompatibleBuffer : Fault := typeError "ArrayBuffer operation called on incompatible receiver"

def bufferSlot (buffer : Value) : Exec (Nat × Header × ArrayBufferData) := do
  let m ← read
  match ← runtimeSlot buffer with
  | none => fail incompatibleBuffer
  | some index => match m.entry index with
    | .arrayBuffer header data => pure (index,header,data)
    | _ => fail incompatibleBuffer

def detachBuffer (buffer key : Value) : Exec (List UInt8) := do
  let (index,header,data) ← bufferSlot buffer
  match data.bytes with
  | none => fail (typeError "Cannot detach an already detached ArrayBuffer")
  | some bytes => do
    let m ← read
    if m.detachKeySame data.detachKey key then do
      setEntry index (.arrayBuffer header { data with bytes := none })
      refundSlot index bytes.length
      pure bytes
    else fail (typeError "ArrayBuffer detach key mismatch")

def validateTransfers : List Nat → List Value → Clone (List Value)
  | _, [] => pure []
  | slots, value :: rest => do
    let m ← read
    match ← evaluate (runtimeSlot value) with
    | none => fail (.dataClone .nonTransferable)
    | some slot =>
      if slot ∈ slots then fail (.dataClone .duplicateTransfer)
      else match m.entry slot with
        | .arrayBuffer _ data =>
          if data.bytes.isNone then fail (.dataClone .detachedArrayBuffer)
          else if data.detachKey ≠ .undefined then fail (.dataClone .arrayBufferDetachKey)
          else do
            let handles ← validateTransfers (slot :: slots) rest
            return value :: handles
        | _ => fail (.dataClone .nonTransferable)

def encode (value : Value) : Planning EncodedValue := do
  match value.decode with
  | some (.heapRef _) => do
    match ← inPlanner (evaluate (runtimeSlot value)) with
    | none => fail (.dataClone .hostObject)
    | some sourceSlot => do
      let plan := (← read).plan
      match plan.sourceToNode.lookup sourceSlot with
      | some node => return .node node
      | none => do
        let node := plan.nodes.length
        update fun s => { s with plan := { plan with
          sourceToNode := (sourceSlot,node) :: plan.sourceToNode,nodes := plan.nodes ++ [.pending value],pending := plan.pending ++ [node] } }
        return .node node
  | _ => return .immediate value

section Scripts

-- What the code of the program does when a getter or a proxy trap is called.
variable (script : Value → Value → List Value → Exec Value)

def readProperty (object : Value) (key : PropertyKey) : Exec Value :=
  tryCatch (getPropertyKey (fun getter receiver => fail (.callout getter receiver [])) object key) fun fault =>
    match fault with
    | .callout callee this args => script callee this args
    | fault => fail fault

def plannedProperties (source : Value) (excluded : List String) : List PropertyKey → Planning (List PlannedProperty)
  | [] => return []
  | key :: rest =>
    if key.asString.isNone || excluded.any key.eqAscii then plannedProperties source excluded rest
    else do
      let m := (← read).machine
      if ← inPlanner (evaluate (lift (m.ownPropertyIsEnumerable source key))) then do
        let value ← inPlanner (evaluate (readProperty script source key))
        let encoded ← encode value
        let properties ← plannedProperties source excluded rest
        return ⟨key,encoded,true,true,true⟩ :: properties
      else plannedProperties source excluded rest

def enumerableProperties (source : Value) (excluded : List String) : Planning (List PlannedProperty) := do
  let m := (← read).machine
  let keys ← inPlanner (evaluate (lift (m.ownPropertyKeys source)))
  plannedProperties script source excluded keys

def errorStateNames : List String := ["name","message","cause","errors","error","suppressed","stack"]

def appendErrorState (source : Value) (sourceProperties : PropertyMap) : List String → List PlannedProperty → Planning (List PlannedProperty)
  | [], properties => return properties
  | name :: rest, properties =>
    let key := PropertyKey.named (ascii name)
    if properties.any (fun property => property.key = key) || !sourceProperties.containsKey key then
      appendErrorState source sourceProperties rest properties
    else do
      let value ← inPlanner (evaluate (readProperty script source key))
      let encoded ← encode value
      appendErrorState source sourceProperties rest (properties ++ [⟨key,encoded,true,false,true⟩])

def regexpProperty (properties : PropertyMap) (name : String) : Planning Value :=
  match properties.get (.named (ascii name)) with
  | some (.data value _ _ _) => return value
  | _ => fail (.evaluation (typeError "invalid RegExp internal state"))

def encodePairs : List CollectionEntry → Planning (List (EncodedValue × EncodedValue))
  | [] => return []
  | entry :: rest => do
    let key ← encode entry.key
    let value ← encode entry.value
    let entries ← encodePairs rest
    return (key,value) :: entries

def encodeKeys : List CollectionEntry → Planning (List EncodedValue)
  | [] => return []
  | entry :: rest => do
    let key ← encode entry.key
    let values ← encodeKeys rest
    return key :: values

def arrayElementsOf (properties : List PlannedProperty) : List (Nat × EncodedValue) :=
  properties.filterMap fun property => property.key.index.map (·,property.value)

def arrayNamedOf (properties : List PlannedProperty) : List PlannedProperty :=
  properties.filter fun property => property.key.asString.isSome && property.key.index.isNone && !property.key.eqAscii "length"

def builtin (m : Machine) (slot : BuiltinSlot) : Clone Value := evaluate (lift (orPanic (m.intrinsics.builtins.slot slot)))

def planObject (source : Value) (header : Header) (boxedPrimitive : Option Value) : Planning PlannedNode := do
  let m := (← read).machine
  let errorPrototype := header.prototype.filter fun candidate => m.intrinsics.builtins.errorPrototypes.any fun entry => entry.2 = candidate
  let planned ← enumerableProperties script source []
  let planned ← if errorPrototype.isSome then appendErrorState script source header.properties errorStateNames planned else pure planned
  let prototype := errorPrototype.or ((if boxedPrimitive.isSome then header.prototype else none).or (some m.intrinsics.objectPrototype))
  let boxed ← match boxedPrimitive with
    | some value => some <$> encode value
    | none => pure none
  return .object prototype boxed planned

def planRegExp (source : Value) (header : Header) (pattern flags : EcmaString) : Planning PlannedNode := do
  let sourceValue ← regexpProperty header.properties "source"
  let canonicalFlags ← regexpProperty header.properties "flags"
  let sourceValue ← encode sourceValue
  let canonicalFlags ← encode canonicalFlags
  let properties ← enumerableProperties script source ["source","flags","lastIndex"]
  return .regExp pattern flags sourceValue canonicalFlags properties

def planBuffer (source : Value) (data : ArrayBufferData) : Planning PlannedNode :=
  match data.bytes with
  | none => fail (.dataClone .detachedArrayBuffer)
  | some bytes => do
    let properties ← enumerableProperties script source []
    return .arrayBuffer bytes data.maxByteLength properties

def planCollection (source : Value) (header : Header) (kind : CollectionKind) (entries : List CollectionEntry) : Planning PlannedNode :=
  match kind with
  | .map => do
    let entries ← encodePairs (entries.filter (·.live))
    let properties ← enumerableProperties script source []
    return .map entries properties header.prototype
  | .set => do
    let values ← encodeKeys (entries.filter (·.live))
    let properties ← enumerableProperties script source []
    let m := (← read).machine
    let prototype ← inPlanner (builtin m .setPrototype)
    return .set values properties (some prototype)
  | .weakMap | .weakSet => fail (.dataClone .weakReference)

def planNode (source : Value) : HeapEntry → Planning PlannedNode
  | .string text => return .string text
  | .bigInt text => return .bigInt text
  | .object header boxedPrimitive => planObject script source header boxedPrimitive
  | .array _ elements _ => do
    let properties ← enumerableProperties script source []
    return .array elements.length (arrayElementsOf properties) (arrayNamedOf properties)
  | .date _ time => return .date time []
  | .regExp header pattern flags => planRegExp script source header pattern flags
  | .collection header kind entries _ _ _ => planCollection script source header kind entries
  | .arrayBuffer _ data => planBuffer script source data
  | .sharedArrayBuffer header block => do
    let properties ← enumerableProperties script source []
    return .sharedArrayBuffer block properties header.prototype
  | .typedArray .. | .dataView .. => fail (.dataClone .unsupportedBinaryView)
  | .function .. | .nativeFunction .. | .proxy _ | .proxyRevoker .. => fail (.dataClone .callable)
  | .symbol _ | .privateName _ => fail (.dataClone .symbol)
  | .weakRef .. | .finalizationRegistry .. => fail (.dataClone .weakReference)
  | .vacant => fail (.evaluation (.panicked .unexpected))
  | _ => fail (.dataClone .hostObject)

def buildPlan : Nat → Planning Unit
  | 0 => fail .outOfFuel
  | fuel+1 => do
    let plan := (← read).plan
    match plan.pending with
    | [] => return ()
    | id :: pending => do
      update fun s => { s with plan := { plan with pending } }
      match plan.nodes[id]? with
      | some (.pending source) => do
        match ← inPlanner (evaluate (runtimeSlot source)) with
        | none => fail (.evaluation (.panicked .unexpected))
        | some slot => do
          let m := (← read).machine
          let node ← planNode script source (m.entry slot)
          update fun s => { s with plan := { s.plan with nodes := s.plan.nodes.set id node } }
          buildPlan fuel
      | _ => fail (.evaluation (.panicked .unexpected))

def planRoot (fuel : Nat) (value : Value) : Planning Unit := do
  let root ← encode value
  update fun s => { s with plan := { s.plan with root } }
  buildPlan script fuel

def readPlan (fuel : Nat) (value : Value) (transfers : List Value) : Clone ClonePlan := fun m =>
  match planRoot script fuel value ⟨m,.new transfers⟩ with
  | .ok _ s => .ok s.plan s.machine
  | .error failure s => .error failure s.machine

-- Everything before the targets: the transfers are checked and the source is read.
def readSource (fuel : Nat) (value : Value) (transfer : List Value) : Clone ClonePlan := do
  let transfers ← validateTransfers [] transfer
  readPlan script fuel value transfers

end Scripts

def allocateBuffer (byteLength : Nat) (maxByteLength : Option Nat) : Exec Value := do
  if maxByteLength.any (· < byteLength) then fail (rangeError "ArrayBuffer byteLength exceeds maxByteLength")
  else do
    let m ← read
    let failed : Fault → Exec Unit := fun _ => fail (rangeError "ArrayBuffer allocation failed")
    tryCatch (ensureAllocationCapacity 1 (maxByteLength.getD byteLength+1)) failed
    let prototype ← lift (orPanic (m.intrinsics.builtins.slot .arraybufferPrototype))
    tryCatch (allocate (.arrayBuffer ⟨.empty,some prototype,true⟩ ⟨some (List.replicate byteLength 0),maxByteLength,.undefined⟩))
      fun _ => fail (rangeError "ArrayBuffer allocation failed")

def copyBytes (buffer : Value) (bytes : List UInt8) : Exec Unit := do
  let (index,header,data) ← bufferSlot buffer
  match data.bytes with
  | none => fail (typeError "Cannot access a detached ArrayBuffer")
  | some target =>
    if target.length = bytes.length then setEntry index (.arrayBuffer header { data with bytes := some bytes })
    else fail (.panicked .unexpected)

def allocateTarget (node : PlannedNode) : Exec Value := do
  let m ← read
  match node with
  | .pending _ => fail (.panicked .unexpected)
  | .string text => allocate (.string text)
  | .bigInt text => allocate (.bigInt text)
  | .object prototype _ _ => allocate (.object ⟨.empty,prototype,true⟩ none)
  | .array length _ _ => allocate (.array ⟨.empty,some m.intrinsics.arrayPrototype,true⟩ (List.replicate length .hole) true)
  | .date time _ => do
    let prototype ← lift (orPanic (m.intrinsics.builtins.slot .datePrototype))
    allocate (.date ⟨.empty,some prototype,true⟩ time)
  | .regExp pattern flags _ _ _ => do
    let prototype ← lift (orPanic (m.intrinsics.builtins.slot .regexpPrototype))
    allocate (.regExp ⟨.empty,some prototype,true⟩ pattern flags)
  | .map _ _ prototype => allocate (.collection ⟨.empty,prototype,true⟩ .map [] .empty 0 0)
  | .set _ _ prototype => allocate (.collection ⟨.empty,prototype,true⟩ .set [] .empty 0 0)
  | .arrayBuffer bytes maxByteLength _ => do
    let buffer ← allocateBuffer bytes.length maxByteLength
    copyBytes buffer bytes
    return buffer
  | .sharedArrayBuffer block _ prototype => allocate (.sharedArrayBuffer ⟨.empty,prototype,true⟩ block)

def allocateTargets : List PlannedNode → Exec (List Value)
  | [] => return []
  | node :: rest => do
    let target ← allocateTarget node
    let targets ← allocateTargets rest
    return target :: targets

def resolve (targets : List Value) : EncodedValue → Exec Value
  | .immediate value => return value
  | .node id => lift (orPanic targets[id]?)

def defineProperties (targets : List Value) (target : Value) : List PlannedProperty → Exec Unit
  | [] => return ()
  | property :: rest => do
    let value ← resolve targets property.value
    defineDescriptor target property.key (.data value property.writable property.enumerable property.configurable)
    defineProperties targets target rest

def targetSlot (target : Value) : Exec Nat := do
  match ← runtimeSlot target with
  | some index => return index
  | none => fail (.panicked .unexpected)

def setBoxed (targets : List Value) (target : Value) (boxed : EncodedValue) : Exec Unit := do
  let index ← targetSlot target
  let m ← read
  match m.entry index with
  | .object header _ => do
    let value ← resolve targets boxed
    setEntry index (.object header (some value))
  | _ => fail (.panicked .unexpected)

def placeElements (targets : List Value) : List (Nat × EncodedValue) → List Value → Exec (List Value)
  | [], values => return values
  | (index,encoded) :: rest, values => do
    if index < values.length then do
      let value ← resolve targets encoded
      placeElements targets rest (values.set index value)
    else placeElements targets rest values

def appendTo (slot : Nat) (key value : Value) : Exec Unit := do
  let m ← read
  match (m.entry slot).collection? with
  | some data => appendCollectionEntry slot data key value
  | none => fail (.panicked .unexpected)

def appendPairs (targets : List Value) (slot : Nat) : List (EncodedValue × EncodedValue) → Exec Unit
  | [] => return ()
  | (key,value) :: rest => do
    let key ← resolve targets key
    let value ← resolve targets value
    appendTo slot key value
    appendPairs targets slot rest

def fillTarget (targets : List Value) (target : Value) : PlannedNode → Exec Unit
  | .object _ boxedPrimitive properties => do
    match boxedPrimitive with
    | some boxed => setBoxed targets target boxed
    | none => pure ()
    defineProperties targets target properties
  | .array length elements properties => do
    let values ← placeElements targets elements (List.replicate length .hole)
    replaceArrayElements target values
    defineProperties targets target properties
  | .date _ properties | .arrayBuffer _ _ properties | .sharedArrayBuffer _ properties _ => defineProperties targets target properties
  | .regExp _ _ source canonicalFlags properties => do
    let source ← resolve targets source
    let flags ← resolve targets canonicalFlags
    defineDescriptor target (.named (ascii "source")) (.data source false false false)
    defineDescriptor target (.named (ascii "flags")) (.data flags false false false)
    defineDescriptor target (.named (ascii "lastIndex")) (.data (.int32 0) true false false)
    defineProperties targets target properties
  | .map entries properties _ => do
    let slot ← targetSlot target
    appendPairs targets slot entries
    defineProperties targets target properties
  | .set values properties _ => do
    let slot ← targetSlot target
    appendPairs targets slot (values.map fun value => (value,value))
    defineProperties targets target properties
  | .pending _ | .string _ | .bigInt _ => return ()

def fillTargets (targets : List Value) : List (Value × PlannedNode) → Exec Unit
  | [] => return ()
  | (target,node) :: rest => do
    fillTarget targets target node
    fillTargets targets rest

def materialize (plan : ClonePlan) : Exec Value := do
  let targets ← allocateTargets plan.nodes
  fillTargets targets (targets.zip plan.nodes)
  resolve targets plan.root

def detachAll : List Value → Exec Unit
  | [] => return ()
  | transfer :: rest => do
    let _ ← detachBuffer transfer .undefined
    detachAll rest

-- `HeapCheckpoint::rollback`
def rollback (checkpoint m : Machine) : Machine :=
  { m with
    heap := m.heap.take checkpoint.heap.length
    slotBytes := m.slotBytes.take checkpoint.slotBytes.length
    heapBytes := checkpoint.heapBytes
    vacantCount := checkpoint.vacantCount }

-- A panic unwinds past the rollback.
def commit (plan : ClonePlan) : Exec Value := fun checkpoint =>
  match materialize plan checkpoint with
  | .ok result m => (do
      detachAll plan.transfers
      return result : Exec Value) m
  | .error (.panicked site) m => .error (.panicked site) m
  | .error fault m => .error fault (rollback checkpoint m)

def cloneValueWithTransfer (script : Value → Value → List Value → Exec Value) (fuel : Nat) (value : Value) (transfer : List Value) : Clone Value := do
  let plan ← readSource script fuel value transfer
  evaluate (commit plan)

end Bamts.Runtime
