import Bamts.RuntimeLength
import Bamts.RuntimeSpread

/-! The internal methods of a proxy that an assignment can come to, and what `[[Set]]` reports. -/
set_option linter.all false
namespace Bamts.Runtime
open Effect Bytecode HopChain Linkage
open Relation (ReflTransGen)

-- `truthy`
def Machine.toBoolean (m : Machine) (value : Value) : Bool :=
  match value.decode with
  | some (.number x) => !x.isZero && !x.isNaN
  | some (.int32 raw) => raw != 0
  | some (.boolean b) => b
  | some (.heapRef _) => match m.slot value with
    | .ok (some index) => match m.entry index with
      | .string text => !text.asUnits.isEmpty
      | .bigInt text => text != "0"
      | _ => true
    | .ok none => true
    | .error _ => false
  | _ => false

def Machine.isCallable (m : Machine) (value : Value) : Except Fault Bool := do
  match (← m.slot value).map m.entry with
  | some (.proxy record) => return record.callable
  | some entry => return entry.kind ∈ [Kind.function,.nativeFunction,.proxyRevoker]
  | none => return false

def Machine.liveProxy (m : Machine) (proxy : Value) : Except Fault (Value × Value) := do
  match (← m.slot proxy).map m.entry with
  | some (.proxy record) => match record.state with
    | .live target handler => return (target,handler)
    | .revoked => .error (typeError "operation on revoked Proxy")
  | _ => .error (typeError "Proxy internal method receiver is not a Proxy")

def keyValue : PropertyKey → Exec Value
  | .named name => allocate (.string name)
  | .symbol index | .private index => lift (orPanic (valueForHeapIndex index.toNat))

def reifyFields (object : Value) : List (String × Option Value) → Exec Unit
  | [] => pure ()
  | (name,some value) :: rest => do
    defineDescriptor object (.named (ascii name)) (.plain value)
    reifyFields object rest
  | (_,none) :: rest => reifyFields object rest

def fromPropertyDescriptor (d : PropertyDescriptor) : Exec Value := do
  let m ← read
  let object ← allocate (.object ⟨.empty,some m.intrinsics.objectPrototype,true⟩ none)
  reifyFields object [("value",d.value),("writable",d.writable.map .boolean),("get",d.getter),("set",d.setter),
    ("enumerable",d.enumerable.map .boolean),("configurable",d.configurable.map .boolean)]
  pure object

-- What hands control to code of the program: a call, a read and a look for a property, a conversion to text.
structure Scripts where
  call : Value → Value → List Value → Exec Value
  get : Value → PropertyKey → Exec Value
  has : Value → PropertyKey → Exec Bool
  toText : Value → Exec EcmaString

namespace Scripts

variable (scripts : Scripts)

def getMethod (handler : Value) (name : String) : Exec (Option Value) := do
  let method ← scripts.get handler (.named (ascii name))
  if method.decode = some .undefined ∨ method.decode = some .null then pure none
  else do
    let m ← read
    let callable ← lift (m.isCallable method)
    if callable then pure (some method) else fail (typeError "Proxy handler trap is not callable")

def descriptorField (descriptor : Value) (name : String) : Exec (Option Value) := do
  let present ← scripts.has descriptor (.named (ascii name))
  if present then do
    let value ← scripts.get descriptor (.named (ascii name))
    pure (some value)
  else pure none

def descriptorFlag (descriptor : Value) (name : String) : Exec (Option Bool) := do
  let value ← scripts.descriptorField descriptor name
  let m ← read
  pure (value.map m.toBoolean)

def descriptorHalf (descriptor : Value) (name text : String) : Exec (Option Value) := do
  let half ← scripts.descriptorField descriptor name
  let m ← read
  match half with
  | none => pure none
  | some half =>
    if half = .undefined then pure (some half)
    else do
      let callable ← lift (m.isCallable half)
      if callable then pure (some half) else fail (typeError text)

def toPropertyDescriptor (descriptor : Value) : Exec PropertyDescriptor := do
  let m ← read
  if m.isObject descriptor = false then fail (typeError "Property description must be an object")
  else do
    let enumerable ← scripts.descriptorFlag descriptor "enumerable"
    let configurable ← scripts.descriptorFlag descriptor "configurable"
    let value ← scripts.descriptorField descriptor "value"
    let writable ← scripts.descriptorFlag descriptor "writable"
    let getter ← scripts.descriptorHalf descriptor "get" "Getter must be callable or undefined"
    let setter ← scripts.descriptorHalf descriptor "set" "Setter must be callable or undefined"
    if (getter.isSome || setter.isSome) && (value.isSome || writable.isSome) then
      fail (typeError "Property descriptor cannot be both a data and an accessor descriptor")
    else pure ⟨value,writable,getter,setter,enumerable,configurable⟩

end Scripts

structure Traps where
  getOwnProperty : Value → PropertyKey → Exec (Option PropertyDescriptor)
  defineOwnProperty : Value → PropertyKey → PropertyDescriptor → Exec Bool
  isExtensible : Value → Exec Bool
  set : Value → PropertyKey → Value → Value → Exec Bool

namespace Traps

variable (scripts : Scripts) (traps : Traps)

def internalGetOwnProperty (object : Value) (key : PropertyKey) : Exec (Option PropertyDescriptor) := do
  let m ← read
  if !key.isPrivate && m.isProxyValue object then traps.getOwnProperty object key
  else do
    let property ← ownDescriptor object key
    pure (property.map .fromProperty)

def internalDefineOwnProperty (object : Value) (key : PropertyKey) (d : PropertyDescriptor) : Exec Bool := do
  let m ← read
  if !key.isPrivate && m.isProxyValue object then traps.defineOwnProperty object key d
  else do
    let current ← ownDescriptor object key
    let m ← read
    let extensible ← lift (m.isExtensible object)
    validateAndApply object key extensible d current

def internalIsExtensible (object : Value) : Exec Bool := do
  let m ← read
  if m.isProxyValue object then traps.isExtensible object else lift (m.isExtensible object)

def storeReceiver (receiver : Value) (key : PropertyKey) (value : Value) (d : PropertyDescriptor) : Exec Bool := do
  let m ← read
  if m.isProxyValue receiver then do
    let _ ← traps.internalDefineOwnProperty receiver key d
    pure true
  else match ← runtimeSlot receiver with
    | none => fail (typeError "set property on primitive")
    | some index => do
      setOwnData index key value
      pure true

def ordinarySetReceiver (receiver : Value) (key : PropertyKey) (value : Value) : Exec Bool := do
  let m ← read
  if m.isObject receiver = false then pure false
  else do
    let existing ← traps.internalGetOwnProperty receiver key
    match existing with
    | none => do
      let extensible ← traps.internalIsExtensible receiver
      if extensible then traps.storeReceiver receiver key value (plainDescriptor value) else pure false
    | some existing =>
      if existing.isAccessor || existing.writable = some false then pure false
      else
        traps.storeReceiver receiver key value
          ⟨some value,some true,none,none,some (existing.enumerable = some true),some (existing.configurable = some true)⟩

-- The walk along the prototypes; `fuel` is the guard of the source.
def resolveSetFrom (key : PropertyKey) (value receiver : Value) : Nat → Nat → Exec Bool
  | 0, _ => traps.ordinarySetReceiver receiver key value
  | fuel+1, index => do
    let m ← read
    let node ← lift (Machine.valueForRuntimeIndex index)
    if !key.isPrivate && (m.entry index).kind = .proxy then traps.set node key value receiver
    else do
      match ← ownDescriptor node key with
      | some (.accessor _ (some setter) _ _) => do
        let _ ← scripts.call setter receiver [value]
        pure true
      | some (.accessor _ none _ _) => pure false
      | some (.data _ true _ _) => traps.ordinarySetReceiver receiver key value
      | some (.data _ false _ _) => pure false
      | none => do
        let m ← read
        match ← lift (m.prototypeIndex index) with
        | some next => resolveSetFrom key value receiver fuel next
        | none => traps.ordinarySetReceiver receiver key value

-- The variables of the process are the host's.
def setEnvironment (key : PropertyKey) (value : Value) : Exec Bool :=
  match key with
  | .named name =>
    if isWellFormed name then do
      let _ ← scripts.toText value
      pure true
    else pure true
  | _ => pure true

def resolveSet (object : Value) (key : PropertyKey) (value receiver : Value) : Exec Bool := do
  let m ← read
  match ← runtimeSlot object with
  | none => fail (typeError "set property on primitive")
  | some index => match (m.entry index).kind with
    | .moduleNamespace => fail (typeError "assign to module namespace")
    | .processEnv => setEnvironment scripts key value
    | kind =>
      if kind = .typedArray ∧ key.typedIndex.isSome then do
        setOwnData index key value
        pure true
      else traps.resolveSetFrom scripts key value receiver (m.heap.length+2) index

def internalSet (object : Value) (key : PropertyKey) (value receiver : Value) : Exec Bool := do
  let m ← read
  if !key.isPrivate && m.isProxyValue object then traps.set object key value receiver
  else traps.resolveSet scripts object key value receiver

end Traps

-- The traps of a proxy, which fall back on the internal methods of its target.
namespace Proxy

variable (scripts : Scripts) (inner : Traps)

def isExtensible (proxy : Value) : Exec Bool := do
  let m ← read
  let (target,handler) ← lift (m.liveProxy proxy)
  match ← scripts.getMethod handler "isExtensible" with
  | none => inner.internalIsExtensible target
  | some trap => do
    let answer ← scripts.call trap handler [target]
    let m ← read
    let extensible ← inner.internalIsExtensible target
    if m.toBoolean answer = extensible then pure extensible else fail (typeError "Proxy isExtensible contradicted target")

def hideProperty (target : Value) : Option PropertyDescriptor → Exec (Option PropertyDescriptor)
  | none => pure none
  | some current => do
    let fixed ← if current.configurable = some false then pure true else do
      let extensible ← inner.internalIsExtensible target
      pure !extensible
    if fixed then fail (typeError "Proxy getOwnPropertyDescriptor hid a fixed property") else pure none

def checkReported (d : PropertyDescriptor) (current : Option PropertyDescriptor) : Except Fault Unit :=
  if d.configurable = some false then match current with
    | none => .error (typeError "Proxy reported a new non-configurable property")
    | some current =>
      if current.configurable = some true then .error (typeError "Proxy reported a new non-configurable property")
      else if d.writable = some false ∧ current.writable = some true then
        .error (typeError "Proxy reported non-writable for writable non-configurable property")
      else .ok ()
  else .ok ()

def reportProperty (target answer : Value) (current : Option PropertyDescriptor) : Exec (Option PropertyDescriptor) := do
  let extensible ← inner.internalIsExtensible target
  let d ← scripts.toPropertyDescriptor answer
  let m ← read
  if m.isCompatible extensible d.complete current then do
    lift (checkReported d.complete current)
    pure (some d.complete)
  else fail (typeError "Proxy getOwnPropertyDescriptor returned incompatible descriptor")

def getOwnProperty (proxy : Value) (key : PropertyKey) : Exec (Option PropertyDescriptor) := do
  let m ← read
  let (target,handler) ← lift (m.liveProxy proxy)
  match ← scripts.getMethod handler "getOwnPropertyDescriptor" with
  | none => inner.internalGetOwnProperty target key
  | some trap => do
    let named ← keyValue key
    let answer ← scripts.call trap handler [target,named]
    let m ← read
    if answer ≠ .undefined ∧ m.isObject answer = false then
      fail (typeError "Proxy getOwnPropertyDescriptor trap returned invalid value")
    else do
      let current ← inner.internalGetOwnProperty target key
      if answer = .undefined then hideProperty inner target current else reportProperty scripts inner target answer current

def checkDefined (m : Machine) (extensible : Bool) (d : PropertyDescriptor) : Option PropertyDescriptor → Except Fault Unit
  | none =>
    if extensible = false then .error (typeError "Proxy defineProperty added property to fixed target")
    else if d.configurable = some false then .error (typeError "Proxy defineProperty invented non-configurable property")
    else .ok ()
  | some current =>
    if m.isCompatible extensible d (some current) = false then
      .error (typeError "Proxy defineProperty accepted incompatible descriptor")
    else if d.configurable = some false ∧ current.configurable = some true then
      .error (typeError "Proxy defineProperty fixed configurable target property")
    else if current.configurable = some false ∧ current.writable = some true ∧ d.writable = some false then
      .error (typeError "Proxy defineProperty reported writable property as non-writable")
    else .ok ()

def defineOwnProperty (proxy : Value) (key : PropertyKey) (d : PropertyDescriptor) : Exec Bool := do
  let m ← read
  let (target,handler) ← lift (m.liveProxy proxy)
  match ← scripts.getMethod handler "defineProperty" with
  | none => inner.internalDefineOwnProperty target key d
  | some trap => do
    let named ← keyValue key
    let object ← fromPropertyDescriptor d
    let answer ← scripts.call trap handler [target,named,object]
    let m ← read
    if m.toBoolean answer then do
      let current ← inner.internalGetOwnProperty target key
      let extensible ← inner.internalIsExtensible target
      let m ← read
      lift (checkDefined m extensible d current)
      pure true
    else pure false

def checkSet (m : Machine) (value : Value) : Option PropertyDescriptor → Except Fault Unit
  | none => .ok ()
  | some current =>
    if current.configurable ≠ some false then .ok ()
    else if current.writable = some false ∧
        m.isCompatible true { PropertyDescriptor.default with value := some value } (some current) = false then
      .error (typeError "Proxy set trap changed frozen data property value")
    else if current.isAccessor ∧ current.setter = some .undefined then
      .error (typeError "Proxy set trap accepted setterless property")
    else .ok ()

def set (proxy : Value) (key : PropertyKey) (value receiver : Value) : Exec Bool := do
  let m ← read
  let (target,handler) ← lift (m.liveProxy proxy)
  match ← scripts.getMethod handler "set" with
  | none => inner.internalSet scripts target key value receiver
  | some trap => do
    let named ← keyValue key
    let answer ← scripts.call trap handler [target,named,value,receiver]
    let m ← read
    if m.toBoolean answer then do
      let current ← inner.internalGetOwnProperty target key
      let m ← read
      lift (checkSet m value current)
      pure true
    else pure false

end Proxy

-- `with_proxy_dispatch`: every step into a proxy takes one of the calls that are left.
def dispatch (scripts : Scripts) (maxCallDepth : Nat) : Nat → Traps
  | 0 =>
    let exceeded := runtimeFault (.callDepthExceeded maxCallDepth)
    ⟨fun _ _ => fail exceeded,fun _ _ _ => fail exceeded,fun _ => fail exceeded,fun _ _ _ _ => fail exceeded⟩
  | depth+1 =>
    let inner := dispatch scripts maxCallDepth depth
    ⟨Proxy.getOwnProperty scripts inner,Proxy.defineOwnProperty scripts inner,Proxy.isExtensible scripts inner,
      Proxy.set scripts inner⟩

/- Where a written value is found: the element of an array, its length, or a property of the entry. An
element of a typed array is not among them, for the value is converted and may be dropped. -/
def Holds (key : PropertyKey) (value : Value) : HeapEntry → Prop
  | .array header elements _ =>
    if key.eqAscii "length" then exactArrayLength value = some elements.length
    else match key.index with
      | some offset => elements[offset]? = some value
      | none => ∃ writable enumerable configurable, header.properties.get key = some (.data value writable enumerable configurable)
  | entry => ∃ header writable enumerable configurable, entry.header? = some header ∧
      header.properties.get key = some (.data value writable enumerable configurable)

section Held

variable {m t : Machine} {i : Nat} {key : PropertyKey} {value : Value}

theorem storedShape (properties key value) :
    ∃ writable enumerable configurable, storedValue properties key value = .data value writable enumerable configurable := by
  unfold storedValue
  split
  · exact ⟨_,_,_,rfl⟩
  · exact ⟨true,true,true,rfl⟩

theorem insertedHeld (header : Header) (key value) :
    ∃ writable enumerable configurable, (header.properties.insert key (storedValue header.properties key value)).get key =
      some (.data value writable enumerable configurable) := by
  obtain ⟨writable,enumerable,configurable,stored⟩ := storedShape header.properties key value
  exact ⟨writable,enumerable,configurable,by rw [PropertyMap.getInsert,if_pos rfl,stored]⟩

theorem applyLength {parts length operation} (done : (applyArrayLength parts length operation).2 = .ok ()) :
    (applyArrayLength parts length operation).1.elements.length = length := by
  unfold applyArrayLength at done ⊢
  by_cases grows : parts.elements.length ≤ length
  · rw [if_pos grows]
    exact resizeLength _ _
  · rw [if_neg grows] at done ⊢
    cases blocked : blockedOffset parts.properties length with
    | some offset =>
      rw [blocked] at done
      cases done
    | none => exact resizeLength _ _

theorem lengthHeld {header elements lengthWritable} (done : setArrayLength i header elements lengthWritable value m = .ok () t) :
    ∃ header after, t.entry i = .array header after lengthWritable ∧ exactArrayLength value = some after.length := by
  unfold setArrayLength at done
  cases exact_ : exactArrayLength value with
  | none =>
    rw [exact_] at done
    cases done
  | some length =>
    rw [exact_] at done
    dsimp only at done
    split at done
    · obtain ⟨_,c,charged,done⟩ := bindDone done
      obtain ⟨_,s,stored,done⟩ := bindDone done
      obtain ⟨_,u,refunded,done⟩ := bindDone done
      have entry : s.entry i = header.arrayOf (applyArrayLength ⟨elements,header.properties⟩ length "set array length").1 lengthWritable :=
        chargedEntry.ok ((doneBind charged).trans stored)
      cases result : (applyArrayLength ⟨elements,header.properties⟩ length "set array length").2 with
      | error fault =>
        rw [result] at done
        cases done
      | ok _ =>
        rw [result] at done
        cases done
        have kept : t.entry i = s.entry i := by rw [Machine.entry,((refundFrame s i _).ok refunded).heap,Machine.entry]
        exact ⟨_,_,kept.trans entry,congrArg some (applyLength result).symm⟩
    · cases done

theorem elementHeld {header elements lengthWritable offset} (at_ : key.index = some offset)
    (room : elements.length ≤ offset → lengthWritable = true) (done : setArrayElement i header elements lengthWritable offset value m = .ok () t) :
    ∃ header after, t.entry i = .array header after lengthWritable ∧ after[offset]? = some value := by
  unfold setArrayElement at done
  simp only [reachIndex at_ room] at done
  refine ⟨header,(extended elements offset).set offset value,chargedEntry.ok done,List.getElem?_set_self ?_⟩
  rw [extendedLength]
  omega

theorem arrayHeld {header elements lengthWritable}
    (done : setArrayData i header elements lengthWritable key value m = .ok () t) : Holds key value (t.entry i) := by
  unfold setArrayData at done
  by_cases named : key.eqAscii "length" = true
  · rw [if_pos named] at done
    obtain ⟨header,after,entry,length⟩ := lengthHeld done
    rw [entry,Holds,if_pos named]
    exact length
  · rw [if_neg named] at done
    cases at_ : key.index with
    | some offset =>
      rw [at_] at done
      dsimp only at done
      split at done
      · cases done
      · rename_i room
        obtain ⟨_,s,checked,done⟩ := bindDone done
        obtain ⟨header,after,entry,held⟩ := elementHeld at_ (fun past => by simpa [past] using room) done
        rw [entry,Holds,if_neg named,at_]
        exact held
    | none =>
      rw [at_] at done
      obtain ⟨_,s,checked,done⟩ := bindDone done
      rw [chargedEntry.ok done,Holds,if_neg named,at_]
      exact insertedHeld header key value

theorem holdsOther {e} (other : e.kind ≠ .array) :
    Holds key value e ↔ ∃ header writable enumerable configurable, e.header? = some header ∧
      header.properties.get key = some (.data value writable enumerable configurable) := by
  cases e with
  | array => exact absurd rfl other
  | _ => exact Iff.rfl

theorem propertyHeld {e} (other : e.kind ≠ .array) (done : setStoredData i e key value m = .ok () t) :
    Holds key value (t.entry i) := by
  unfold setStoredData at done
  cases found : e.header? with
  | none =>
    rw [found] at done
    cases done
  | some header =>
    rw [found] at done
    obtain ⟨_,s,checked,done⟩ := bindDone done
    rw [chargedEntry.ok done]
    obtain ⟨writable,enumerable,configurable,held⟩ := insertedHeld header key value
    have headed := HeapEntry.withPropertiesHeader (header.properties.insert key (storedValue header.properties key value)) e
    rw [found] at headed
    exact (holdsOther (by rw [HeapEntry.withPropertiesKind]; exact other)).mpr ⟨_,writable,enumerable,configurable,headed,held⟩

theorem writtenHeld (other : ¬((m.entry i).kind = .typedArray ∧ key.typedIndex.isSome = true)) (done : setOwnData i key value m = .ok () t) :
    Holds key value (t.entry i) := by
  unfold setOwnData at done
  rw [doneBind (p := Effect.read) rfl] at done
  cases entry : m.entry i with
  | typedArray header fields =>
    rw [entry] at done other
    cases typed : key.typedIndex with
    | some typedIndex => exact absurd ⟨rfl,by rw [typed]; rfl⟩ other
    | none =>
      rw [typed] at done
      exact propertyHeld (by rintro ⟨⟩) done
  | array header elements lengthWritable =>
    rw [entry] at done
    exact arrayHeld done
  | _ =>
    rw [entry] at done
    exact propertyHeld (by rintro ⟨⟩) done

end Held

section Reports

variable (scripts : Scripts) (maxCallDepth : Nat) (key : PropertyKey) (value receiver : Value)

-- What a write that came to the receiver in the state `s` did there, when it answered true.
inductive Received (s t : Machine) : Prop where
  | stored {i : Nat} (takes : s.isProxyValue receiver = false → ∀ depth u, (dispatch scripts maxCallDepth depth).internalDefineOwnProperty receiver key
        { PropertyDescriptor.default with value := some value } s ≠ .ok false u)
      (there : t.slot receiver = .ok (some i)) (holds : Holds key value (t.entry i)) : Received s t
  | element {i : Nat} {u : Machine} (there : u.slot receiver = .ok (some i))
      (typed : (u.entry i).kind = .typedArray ∧ key.typedIndex.isSome = true) (written : setOwnData i key value u = .ok () t) : Received s t
  | defined {depth : Nat} {d : PropertyDescriptor} {u : Machine} {b : Bool} (proxy : u.isProxyValue receiver = true)
      (given : d.value = some value)
      (asked : (dispatch scripts maxCallDepth depth).internalDefineOwnProperty receiver key d u = .ok b t) : Received s t

-- What a `[[Set]]` on an object did, when it answered true.
inductive SetTrace : Value → Machine → Machine → Prop where
  | trap {object target handler trap named answer m s u v t} (live : m.liveProxy object = .ok (target,handler))
      (method : scripts.getMethod handler "set" m = .ok (some trap) s) (names : keyValue key s = .ok named u)
      (called : scripts.call trap handler [target,named,value,receiver] u = .ok answer v) (accepted : v.toBoolean answer = true) :
      SetTrace object m t
  | forwarded {object target handler m s t} (live : m.liveProxy object = .ok (target,handler))
      (method : scripts.getMethod handler "set" m = .ok none s) (rest : SetTrace target s t) : SetTrace object m t
  | inherited {object node i j m t} (there : m.slot object = .ok (some i)) (path : ReflTransGen (Hops m.prototypeIndex) i j)
      (proxy : (m.entry j).kind = .proxy) (at_ : Machine.valueForRuntimeIndex j = .ok node) (rest : SetTrace node m t) : SetTrace object m t
  | setter {object node i j getter setter enumerable configurable answer m s t} (there : m.slot object = .ok (some i))
      (path : ReflTransGen (Hops m.prototypeIndex) i j) (at_ : Machine.valueForRuntimeIndex j = .ok node)
      (found : ownDescriptor node key m = .ok (some (.accessor getter (some setter) enumerable configurable)) s)
      (called : scripts.call setter receiver [value] s = .ok answer t) : SetTrace object m t
  | environment {object i m t} (there : m.slot object = .ok (some i)) (environment : (m.entry i).kind = .processEnv) : SetTrace object m t
  | element {object i m t} (there : m.slot object = .ok (some i)) (typed : (m.entry i).kind = .typedArray ∧ key.typedIndex.isSome = true)
      (written : setOwnData i key value m = .ok () t) : SetTrace object m t
  | inherits {object i j m t} (there : m.slot object = .ok (some i)) (path : ReflTransGen (Hops m.prototypeIndex) i j)
      (tail : Received scripts maxCallDepth key value receiver m t) : SetTrace object m t
  | writable {object node i j old enumerable configurable m s t} (there : m.slot object = .ok (some i))
      (path : ReflTransGen (Hops m.prototypeIndex) i j) (at_ : Machine.valueForRuntimeIndex j = .ok node)
      (found : ownDescriptor node key m = .ok (some (.data old true enumerable configurable)) s)
      (tail : Received scripts maxCallDepth key value receiver s t) : SetTrace object m t

end Reports

section Tail

variable {m s t u : Machine} {traps : Traps} {key : PropertyKey} {value receiver : Value}

theorem validateTrue {object extensible d} {current : Option Property} {b}
    (compatible : m.isCompatible extensible (if current.isNone then d.complete else d) (current.map .fromProperty) = true)
    (done : validateAndApply object key extensible d current m = .ok b t) : b = true := by
  unfold validateAndApply at done
  rw [doneBind (p := Effect.read) rfl,compatible,if_neg Bool.true_eq_false.mp] at done
  by_cases nothing : (current.isSome && (if current.isNone then d.complete else d).isEmpty) = true
  · rw [if_pos nothing] at done
    cases done
    rfl
  · rw [if_neg nothing] at done
    obtain ⟨_,_,_,done⟩ := bindDone done
    cases done
    rfl

theorem compatibleValue (m : Machine) (value) {p} (extensible)
    (open_ : ((PropertyDescriptor.fromProperty p).isAccessor || (PropertyDescriptor.fromProperty p).writable = some false) = false) :
    m.isCompatible extensible { PropertyDescriptor.default with value := some value } (some (.fromProperty p)) = true := by
  cases p with
  | accessor getter setter enumerable configurable => simp [PropertyDescriptor.fromProperty,PropertyDescriptor.isAccessor] at open_
  | data old writable enumerable configurable =>
    cases writable with
    | false => simp [PropertyDescriptor.fromProperty] at open_
    | true =>
      cases configurable with
      | true => rfl
      | false => rfl

theorem refusedFalse {b} {others : Traps} (plain : s.isProxyValue receiver = false)
    (refused : traps.internalDefineOwnProperty receiver key { PropertyDescriptor.default with value := some value } s = .ok false u)
    (done : others.ordinarySetReceiver receiver key value s = .ok b t) : b = false := by
  unfold Traps.internalDefineOwnProperty at refused
  unfold Traps.ordinarySetReceiver at done
  rw [doneBind (p := Effect.read) rfl,plain,Bool.and_false,if_neg Bool.false_ne_true] at refused
  rw [doneBind (p := Effect.read) rfl] at done
  split at done
  · cases done
    rfl
  · obtain ⟨current,s',described,refused⟩ := bindDone refused
    have existing : others.internalGetOwnProperty receiver key s = .ok (current.map .fromProperty) s' := by
      unfold Traps.internalGetOwnProperty
      rw [doneBind (p := Effect.read) rfl,plain,Bool.and_false,if_neg Bool.false_ne_true,doneBind described]
      rfl
    rw [doneBind existing] at done
    rw [doneBind (p := Effect.read) rfl] at refused
    obtain ⟨extensible,_,asked,refused⟩ := bindDone refused
    cases current with
    | none =>
      cases (descriptorMissing receiver key).ok described rfl
      have same : others.internalIsExtensible receiver s = lift (s.isExtensible receiver) s := by
        unfold Traps.internalIsExtensible
        rw [doneBind (p := Effect.read) rfl,plain,if_neg Bool.false_ne_true]
      cases known : s.isExtensible receiver with
      | error fault =>
        rw [known] at asked
        cases asked
      | ok open_ =>
        rw [known] at asked same
        cases asked
        cases extensible with
        | true => cases validateTrue rfl refused
        | false =>
          rw [Option.map_none] at done
          dsimp only at done
          rw [doneBind same] at done
          cases done
          rfl
    | some p =>
      rw [Option.map_some] at done
      dsimp only at done
      split at done
      · cases done
        rfl
      · rename_i taken
        cases validateTrue (compatibleValue _ value extensible (Bool.eq_false_iff.mpr taken)) refused

theorem heldFull {e} (holds : Holds key value e) : e ≠ .vacant := by
  rintro rfl
  obtain ⟨header,_,_,_,headed,_⟩ := holds
  cases headed

theorem storeReceived {scripts maxCallDepth depth d b} (given : d.value = some value)
    (takes : s.isProxyValue receiver = false → ∀ depth u, (dispatch scripts maxCallDepth depth).internalDefineOwnProperty receiver key
      { PropertyDescriptor.default with value := some value } s ≠ .ok false u)
    (done : (dispatch scripts maxCallDepth depth).storeReceiver receiver key value d u = .ok b t) :
    Received scripts maxCallDepth key value receiver s t := by
  unfold Traps.storeReceiver at done
  rw [doneBind (p := Effect.read) rfl] at done
  by_cases proxy : u.isProxyValue receiver = true
  · rw [if_pos proxy] at done
    obtain ⟨answer,t',asked,done⟩ := bindDone done
    cases done
    exact .defined proxy given asked
  · rw [if_neg proxy] at done
    obtain ⟨slot,w,asked,done⟩ := bindDone done
    obtain ⟨rfl,there⟩ := slotDone asked
    cases slot with
    | none => cases done
    | some i =>
      obtain ⟨_,v,written,done⟩ := bindDone done
      cases done
      by_cases typed : (w.entry i).kind = .typedArray ∧ key.typedIndex.isSome = true
      · exact .element there typed written
      · have holds := writtenHeld typed written
        exact .stored takes (slotStays there (entryFound rfl (heldFull holds)) (heldFull holds)) holds

theorem tailReceived {scripts maxCallDepth depth}
    (done : (dispatch scripts maxCallDepth depth).ordinarySetReceiver receiver key value s = .ok true t) :
    Received scripts maxCallDepth key value receiver s t := by
  have takes : s.isProxyValue receiver = false → ∀ depth u, (dispatch scripts maxCallDepth depth).internalDefineOwnProperty receiver key
      { PropertyDescriptor.default with value := some value } s ≠ .ok false u :=
    fun plain depth u refused => Bool.noConfusion (refusedFalse plain refused done)
  unfold Traps.ordinarySetReceiver at done
  rw [doneBind (p := Effect.read) rfl] at done
  split at done
  · cases done
  · obtain ⟨existing,u,_,done⟩ := bindDone done
    cases existing with
    | none =>
      obtain ⟨extensible,v,_,done⟩ := bindDone done
      cases extensible with
      | false => cases done
      | true => exact storeReceived rfl takes done
    | some existing =>
      dsimp only at done
      split at done
      · cases done
      · exact storeReceived rfl takes done

end Tail

section Walk

variable {scripts : Scripts} {maxCallDepth depth : Nat} {key : PropertyKey} {value receiver object : Value} {m t : Machine} {i : Nat}

theorem liftDone {α} {x : Except Fault α} {a} (done : lift x m = .ok a t) : t = m ∧ x = .ok a := by
  cases x with
  | error fault => cases done
  | ok b =>
    cases done
    exact ⟨rfl,rfl⟩

theorem walkTrace (traps : ∀ proxy m t, (dispatch scripts maxCallDepth depth).set proxy key value receiver m = .ok true t →
      SetTrace scripts maxCallDepth key value receiver proxy m t) (there : m.slot object = .ok (some i)) {fuel j}
    (path : ReflTransGen (Hops m.prototypeIndex) i j)
    (done : (dispatch scripts maxCallDepth depth).resolveSetFrom scripts key value receiver fuel j m = .ok true t) :
    SetTrace scripts maxCallDepth key value receiver object m t := by
  induction fuel generalizing j with
  | zero => exact .inherits there path (tailReceived done)
  | succ fuel ih =>
    unfold Traps.resolveSetFrom at done
    rw [doneBind (p := Effect.read) rfl] at done
    obtain ⟨node,m',named,done⟩ := bindDone done
    obtain ⟨rfl,at_⟩ := liftDone named
    split at done
    · rename_i proxy
      rw [Bool.and_eq_true,decide_eq_true_eq] at proxy
      exact .inherited there path proxy.2 at_ (traps node _ t done)
    · obtain ⟨found,s,described,done⟩ := bindDone done
      cases found with
      | none =>
        cases (descriptorMissing node key).ok described rfl
        dsimp only at done
        rw [doneBind (p := Effect.read) rfl] at done
        obtain ⟨next,m',asked,done⟩ := bindDone done
        obtain ⟨rfl,hop⟩ := liftDone asked
        cases next with
        | none => exact .inherits there path (tailReceived done)
        | some next => exact ih (path.tail hop) done
      | some p =>
        cases p with
        | accessor getter setter enumerable configurable =>
          cases setter with
          | none => cases done
          | some setter =>
            obtain ⟨answer,u,called,done⟩ := bindDone done
            cases done
            exact .setter there path at_ described called
        | data old writable enumerable configurable =>
          cases writable with
          | false => cases done
          | true => exact .writable there path at_ described (tailReceived done)

theorem objectTrace (traps : ∀ proxy m t, (dispatch scripts maxCallDepth depth).set proxy key value receiver m = .ok true t →
      SetTrace scripts maxCallDepth key value receiver proxy m t)
    (done : (dispatch scripts maxCallDepth depth).internalSet scripts object key value receiver m = .ok true t) :
    SetTrace scripts maxCallDepth key value receiver object m t := by
  unfold Traps.internalSet at done
  rw [doneBind (p := Effect.read) rfl] at done
  split at done
  · exact traps object m t done
  · unfold Traps.resolveSet at done
    rw [doneBind (p := Effect.read) rfl] at done
    obtain ⟨slot,m',asked,done⟩ := bindDone done
    obtain ⟨rfl,there⟩ := slotDone asked
    cases slot with
    | none => cases done
    | some i =>
      dsimp only at done
      generalize kind : (m'.entry i).kind = k at done
      cases k with
      | moduleNamespace => cases done
      | processEnv => exact .environment there kind
      | _ =>
        dsimp only at done
        split at done
        · rename_i typed
          obtain ⟨_,s,written,done⟩ := bindDone done
          cases done
          exact .element there ⟨kind.trans typed.1,typed.2⟩ written
        · exact walkTrace traps there .refl done

theorem trapsTrace (depth) : ∀ proxy m t, (dispatch scripts maxCallDepth depth).set proxy key value receiver m = .ok true t →
    SetTrace scripts maxCallDepth key value receiver proxy m t := by
  induction depth with
  | zero => exact fun _ _ _ done => by cases done
  | succ depth ih =>
    intro proxy m t done
    change Proxy.set scripts (dispatch scripts maxCallDepth depth) proxy key value receiver m = .ok true t at done
    unfold Proxy.set at done
    rw [doneBind (p := Effect.read) rfl] at done
    obtain ⟨pair,m',asked,done⟩ := bindDone done
    obtain ⟨rfl,live⟩ := liftDone asked
    obtain ⟨target,handler⟩ := pair
    obtain ⟨found,s,method,done⟩ := bindDone done
    cases found with
    | none => exact .forwarded live method (objectTrace ih done)
    | some trap =>
      obtain ⟨named,u,names,done⟩ := bindDone done
      obtain ⟨answer,v,called,done⟩ := bindDone done
      rw [doneBind (p := Effect.read) rfl] at done
      split at done
      · rename_i accepted
        exact .trap live method names called accepted
      · cases done

end Walk

section Plain

-- Where the operations that stop at proxies answer, no trap is asked.
variable (scripts : Scripts) (traps : Traps) {key : PropertyKey} {value receiver object : Value} {m t : Machine} {b : Bool}

end Plain

/- A `[[Set]]` that answers true has taken one of the ways of `SetTrace`, and an ordinary receiver
that would not define the value makes its tail answer false. -/
theorem setReports (scripts : Scripts) (maxCallDepth depth : Nat) (object : Value) (key : PropertyKey) (value receiver : Value) :
    (∀ m t, (dispatch scripts maxCallDepth depth).internalSet scripts object key value receiver m = .ok true t →
      SetTrace scripts maxCallDepth key value receiver object m t) ∧
    ∀ s t u b, s.isProxyValue receiver = false →
      (dispatch scripts maxCallDepth depth).internalDefineOwnProperty receiver key { PropertyDescriptor.default with value := some value } s =
        .ok false u →
      (dispatch scripts maxCallDepth depth).ordinarySetReceiver receiver key value s = .ok b t → b = false :=
  ⟨fun _ _ done => objectTrace (trapsTrace depth) done,fun _ _ _ _ plain refused done => refusedFalse plain refused done⟩

def answering (answer : Bool) : Scripts where
  call _ _ _ := pure (.boolean answer)
  get object key := do
    let found ← ownDescriptor object key
    match found with
    | some (.data value ..) => pure value
    | _ => pure .undefined
  has object key := do
    let found ← ownDescriptor object key
    pure found.isSome
  toText _ := pure ⟨[]⟩

def trapName : String → PropertyKey := fun name => .named (ascii name)

def trapMachine : Machine :=
  { bareMachine with
    heap := bareMachine.heap ++ [builtinEntry,literalEntry,
      .object ⟨(PropertyMap.empty.insert (trapName "set") (.plain madeBuiltin)).insert (trapName "defineProperty") (.plain madeBuiltin),none,true⟩ none,
      .proxy ⟨.live madeLiteral ((valueForHeapIndex 3).getD .undefined),false,false⟩,.processEnv none true,
      .arrayBuffer ⟨.empty,none,true⟩ ⟨some [],none,.undefined⟩,
      .typedArray ⟨.empty,none,true⟩ ⟨.uint8,(valueForHeapIndex 6).getD .undefined,0,.fixed 0,.fixed 0⟩] }

def trapped : Value := (valueForHeapIndex 4).getD .undefined
def processVariables : Value := (valueForHeapIndex 5).getD .undefined
def emptyView : Value := (valueForHeapIndex 7).getD .undefined

def answered {α : Type} (p : Exec α) (m : Machine) : Option α :=
  match p m with
  | .ok a _ => some a
  | .error .. => none

def AcceptedUnheld (object receiver : Value) (key : PropertyKey) : Prop :=
  answered ((dispatch (answering true) 9 9).internalSet (answering true) object key (.int32 5) receiver) trapMachine = some true ∧
  answered ((dispatch (answering true) 9 9).internalGetOwnProperty receiver key)
    (left ((dispatch (answering true) 9 9).internalSet (answering true) object key (.int32 5) receiver) trapMachine) = some none

instance (object receiver : Value) (key : PropertyKey) : Decidable (AcceptedUnheld object receiver key) := instDecidableAnd

/- A trap that accepts, the variables of the process and a view without the element; and a receiver
that reported false. -/
theorem acceptedUnheld :
    AcceptedUnheld trapped trapped spreadName ∧ AcceptedUnheld processVariables madeLiteral (.symbol 0) ∧
    AcceptedUnheld emptyView emptyView (trapName "-0") ∧
    answered ((dispatch (answering false) 9 9).internalDefineOwnProperty trapped spreadName (plainDescriptor (.int32 5))) trapMachine = some false ∧
    answered ((dispatch (answering false) 9 9).internalSet (answering false) madeLiteral spreadName (.int32 5) trapped) trapMachine = some true := by
  refine ⟨?_,?_,?_,?_,?_⟩
  · decide
  · decide
  · decide
  · decide +kernel
  · decide +kernel

end Bamts.Runtime
