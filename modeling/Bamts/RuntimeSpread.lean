import Bamts.RuntimeAscii

/-! Object spread and `CopyDataProperties`, which store what they read from the source in two ways. -/
set_option linter.all false
namespace Bamts.Runtime
open Effect Bytecode Linkage

-- The name of a key that the fast path of `[[Get]]` takes.
def asciiName : PropertyKey → Option String
  | .named name => if name.asUnits.all (· < 128) then some (String.ofList (name.asUnits.map fun unit => Char.ofNat unit.toNat)) else none
  | _ => none

-- `own_property_is_enumerable`
def Machine.ownPropertyIsEnumerable (m : Machine) (src : Value) (key : PropertyKey) : Except Fault Bool := do
  match ← m.slot src with
  | none => return false
  | some index => match m.entry index with
    | .proxy _ => if key.isPrivate then return false else .error (.callout src .undefined [])
    | .array header elements _ =>
      return (header.properties.get key).elim (key.index.any fun offset => elements[offset]?.any (· != .hole)) (·.enumerable)
    | .string text => return key.index.any fun offset => decide (offset < text.lenUnits)
    | .typedArray header _ =>
      return (header.properties.get key).elim
        (key.typedIndex.join.any fun offset => (m.typedArrayLengthAt index).any fun length => decide (offset < length)) (·.enumerable)
    | .moduleNamespace _ | .externalModuleNamespace _ => return key.asString.isSome
    | .proxyRevoker .. => return false
    | entry => return (entry.header?.bind fun header => header.properties.get key).any (·.enumerable)

def getOutcome (object : Value) (key : PropertyKey) : Exec GetOutcome :=
  match asciiName key with
  | some name => resolveGetAscii object name
  | none => resolveGet object key

section Scripts

-- What a getter called on a receiver does, and the text of a value.
variable (call : Value → Value → Exec Value) (valueToString : Machine → Value → Except Fault EcmaString)

def getPropertyKey (object : Value) (key : PropertyKey) : Exec Value := do
  let m ← read
  if !key.isPrivate && m.isProxyValue object then fail (.callout object object [])
  else do
    match ← getOutcome object key with
    | .value value => pure value
    | .text text => allocate (.string text)
    | .getter getter => call getter object

def spreadKeys (index : Nat) (source : Value) : List PropertyKey → Exec Unit
  | [] => pure ()
  | key :: rest => do
    let m ← read
    let enumerable ← lift (m.ownPropertyIsEnumerable source key)
    if enumerable then do
      let value ← getPropertyKey call source key
      setOwnData index key value
      spreadKeys index source rest
    else spreadKeys index source rest

def spreadableKinds : List Kind := [.object,.generator,.asyncGenerator,.script,.array,.promise]

def objectSpread (target source : Value) : Exec Unit := do
  let m ← read
  match ← runtimeSlot target with
  | some index =>
    if (m.entry index).kind ∈ spreadableKinds then do
      let keys ← internalOwnPropertyKeys source
      spreadKeys call index source keys
    else fail (typeError "object spread target is not an object")
  | none => fail (typeError "object spread target is not an object")

def Machine.toPropertyKey (m : Machine) (value : Value) : Except Fault PropertyKey := do
  match ← m.slot value with
  | some index => match m.entry index with
    | .string text => return .named text
    | .symbol _ => return .symbol (UInt32.ofNat index)
    | .privateName _ => return .private (UInt32.ofNat index)
    | _ => (valueToString m value).map .named
  | none => (valueToString m value).map .named

def Machine.excludedPropertyKeys (m : Machine) (excluded : Value) : Except Fault (List PropertyKey) := do
  match (← m.slot excluded).map m.entry with
  | some (.array _ elements _) => (elements.filter (· != .hole)).mapM (m.toPropertyKey valueToString)
  | _ => .error (typeError "object rest excluded keys is not an array")

def plainDescriptor (value : Value) : PropertyDescriptor := ⟨some value,some true,none,none,some true,some true⟩

def createDataProperty (target : Value) (key : PropertyKey) (value : Value) : Exec Unit := do
  let created ← internalDefineOwnProperty target key (plainDescriptor value)
  if created then pure () else fail (typeError "cannot create property on non-extensible target")

def copyKeys (target source : Value) (excluded : List PropertyKey) : List PropertyKey → Exec Unit
  | [] => pure ()
  | key :: rest =>
    if key ∈ excluded then copyKeys target source excluded rest
    else do
      let m ← read
      let enumerable ← lift (m.ownPropertyIsEnumerable source key)
      if enumerable then do
        let value ← getPropertyKey call source key
        createDataProperty target key value
        copyKeys target source excluded rest
      else copyKeys target source excluded rest

def copyDataProperties (target source excluded : Value) : Exec Unit := do
  let m ← read
  if m.isObject target = false then fail (typeError "object rest target is not an object")
  else do
    let excludedKeys ← lift (m.excludedPropertyKeys valueToString excluded)
    let keys ← internalOwnPropertyKeys source
    copyKeys call target source excludedKeys keys

end Scripts

section Store

variable {m : Machine} {i : Nat} {header : Header} {boxed : Option Value} {key : PropertyKey} {value : Value}

theorem slotRun {v slot} (there : m.slot v = .ok slot) : runtimeSlot v m = .ok slot m := by
  unfold runtimeSlot
  rw [doneBind (p := Effect.read) rfl,there]
  rfl

theorem slotDone {v slot t} (done : runtimeSlot v m = .ok slot t) : t = m ∧ m.slot v = .ok slot := by
  unfold runtimeSlot at done
  rw [doneBind (p := Effect.read) rfl] at done
  cases known : m.slot v with
  | error fault =>
    rw [known] at done
    cases done
  | ok found =>
    rw [known] at done
    cases done
    exact ⟨rfl,rfl⟩

theorem chargeSynced (m i bytes) :
    After (chargeSlot i bytes) m (fun _ c => OnlyLedger m c ∧ c.slotBytes.length = c.heap.length ∧ i < c.heap.length) (fun _ _ => True) := by
  unfold chargeSlot
  simp only [afterBind,syncSlotLedger,afterUpdate,afterRead]
  refine afterCapacity (fun _ => ?_) fun _ _ => trivial
  have length : (resized m.slotBytes m.heap.length).length = m.heap.length := by
    simp only [resized,List.length_append,List.length_take,List.length_replicate]
    omega
  simp only [afterIte,afterUpdate,afterFail]
  refine ⟨fun inside => ⟨rfl,?_,?_⟩,fun _ => trivial⟩
  · simpa [requestGarbageCollection] using length
  · simp only [length] at inside
    exact inside

theorem refundNothing (synced : m.slotBytes.length = m.heap.length) (inside : i < m.heap.length) : refundSlot i 0 m = .ok () m := by
  obtain ⟨held,found⟩ : ∃ held, m.slotBytes[i]? = some held := ⟨_,List.getElem?_eq_getElem (synced ▸ inside)⟩
  have slots : m.slotBytes.set i held = m.slotBytes := by
    obtain ⟨at_,rfl⟩ := List.getElem?_eq_some_iff.mp found
    exact List.set_getElem_self at_
  have credits : m.intrinsicSlotCredits.modify i (fun x => x) = m.intrinsicSlotCredits := List.modify_id _ _
  have sync : syncSlotLedger m = .ok () m := by
    simp only [syncSlotLedger,update,resizedSame synced]
  unfold refundSlot
  rw [doneBind sync,doneBind (p := Effect.read) rfl,found]
  dsimp only
  by_cases intrinsic : i < m.intrinsicSlotCredits.length
  · rw [if_pos intrinsic,if_neg (by omega)]
    simp only [update,Nat.min_zero,Nat.sub_zero,Nat.add_zero,slots,credits]
  · rw [if_neg intrinsic,if_neg (by omega)]
    simp only [update,Nat.sub_zero,slots]

def Accepts (header : Header) (key : PropertyKey) : Prop :=
  match header.properties.get key with
  | some p => p.configurable = true
  | none => header.extensible = true

def Takes (header : Header) (key : PropertyKey) : Prop :=
  match header.properties.get key with
  | some p => ∃ value, p = .plain value
  | none => header.extensible = true

def holding (header : Header) (boxed : Option Value) (key : PropertyKey) (value : Value) : HeapEntry :=
  .object { header with properties := header.properties.insert key (.plain value) } boxed

def storeObject (i : Nat) (header : Header) (boxed : Option Value) (key : PropertyKey) (value : Value) : Exec Unit := do
  chargeSlot i (keyGrowth header.properties key)
  setEntry i (holding header boxed key value)

def defineObject (i : Nat) (header : Header) (boxed : Option Value) (key : PropertyKey) (value : Value) : Exec Unit := do
  chargeSlot i (definitionCharges header.properties key (.plain value)).1
  setEntry i (holding header boxed key value)
  refundSlot i (definitionCharges header.properties key (.plain value)).2

theorem Takes.accepts (takes : Takes header key) : Accepts header key := by
  unfold Takes at takes
  unfold Accepts
  cases current : header.properties.get key with
  | none =>
    rw [current] at takes
    exact takes
  | some p =>
    rw [current] at takes
    obtain ⟨_,rfl⟩ := takes
    rfl

theorem setObject (entry : m.entry i = .object header boxed) :
    setOwnData i key value m = (do
      lift (checkWritable header false key)
      chargeSlot i (keyGrowth header.properties key)
      setEntry i (.object { header with properties := header.properties.insert key (storedValue header.properties key value) } boxed)
      : Exec Unit) m := by
  unfold setOwnData
  rw [doneBind (p := Effect.read) rfl,entry]
  rfl

theorem setTakes (entry : m.entry i = .object header boxed) (takes : Takes header key) :
    setOwnData i key value m = storeObject i header boxed key value m := by
  have writable : checkWritable header false key = .ok () := by
    unfold Takes at takes
    unfold checkWritable
    cases current : header.properties.get key with
    | none =>
      rw [current] at takes
      simp [takes]
    | some p =>
      rw [current] at takes
      obtain ⟨_,rfl⟩ := takes
      rfl
  have stored : storedValue header.properties key value = .plain value := by
    unfold Takes at takes
    unfold storedValue
    cases current : header.properties.get key with
    | none => rfl
    | some p =>
      rw [current] at takes
      obtain ⟨_,rfl⟩ := takes
      rfl
  rw [setObject entry,writable,stored,doneBind (p := lift _) (a := ()) (t := m) rfl]
  rfl

theorem describeObject {target} (there : m.slot target = .ok (some i)) (entry : m.entry i = .object header boxed) :
    ownDescriptor target key m = .ok (header.properties.get key) m := by
  unfold ownDescriptor
  rw [doneBind (p := Effect.read) rfl,doneBind (slotRun there)]
  dsimp only
  rw [entry]
  rfl

theorem defineAccepts {target} (there : m.slot target = .ok (some i)) (entry : m.entry i = .object header boxed)
    (accepts : Accepts header key) : defineDescriptor target key (.plain value) m = defineObject i header boxed key value m := by
  have room : (!header.extensible && !header.properties.containsKey key) = false := by
    unfold Accepts at accepts
    unfold PropertyMap.containsKey
    cases current : header.properties.get key with
    | none =>
      rw [current] at accepts
      simp [accepts]
    | some p => simp
  have valid : m.validateRedefinition (header.properties.get key) (.plain value) = .ok () := by
    unfold Accepts at accepts
    cases current : header.properties.get key with
    | none => rfl
    | some p =>
      rw [current] at accepts
      exact if_pos accepts
  have definable : (HeapEntry.object header boxed).kind ∈ definableKinds := show Kind.object ∈ definableKinds by decide
  unfold defineDescriptor
  rw [doneBind (p := Effect.read) rfl,doneBind (slotRun there)]
  dsimp only
  rw [entry]
  unfold HeapEntry.header?
  dsimp only
  rw [if_pos definable]
  unfold defineOnObject
  dsimp only
  rw [room,if_neg Bool.false_ne_true,doneBind (describeObject there entry),doneBind (p := Effect.read) rfl,valid,
    doneBind (p := lift _) (a := ()) (t := m) rfl]
  rfl

theorem intoPlain (current) : (plainDescriptor value).intoProperty current = .plain value := by
  cases current with
  | none => rfl
  | some p =>
    cases p with
    | _ => rfl

theorem compatiblePlain (m : Machine) (value extensible) (current : Option Property) :
    m.isCompatible extensible (plainDescriptor value) (current.map .fromProperty) = current.elim extensible (·.configurable) := by
  have filled : (plainDescriptor value).isEmpty = false := by simp [PropertyDescriptor.isEmpty,plainDescriptor,PropertyDescriptor.default]
  have configurable : ∀ p, (PropertyDescriptor.fromProperty p).configurable = some p.configurable := by
    intro p
    cases p with
    | _ => rfl
  cases current with
  | none => rfl
  | some p =>
    simp only [Option.map_some,Machine.isCompatible,filled,configurable,Option.getD_some,Bool.false_eq_true,if_false,Option.elim_some]
    cases p.configurable with
    | true => rfl
    | false => rfl

theorem defineTail {target} (there : m.slot target = .ok (some i)) (entry : m.entry i = .object header boxed) :
    internalDefineOwnProperty target key (plainDescriptor value) m =
      validateAndApply target key header.extensible (plainDescriptor value) (header.properties.get key) m := by
  have direct : m.isProxyValue target = false := by
    simp [Machine.isProxyValue,Machine.slotOk,there,entry]
  have extensible : m.isExtensible target = .ok header.extensible := by
    unfold Machine.isExtensible
    rw [there]
    simp only [bind,Except.bind,Option.map_some,entry]
    rfl
  unfold internalDefineOwnProperty
  rw [doneBind (p := Effect.read) rfl,direct,Bool.and_false,if_neg Bool.false_ne_true,doneBind (describeObject there entry),
    doneBind (p := Effect.read) rfl,extensible,doneBind (p := lift _) (a := header.extensible) (t := m) rfl]

theorem acceptsIff : (header.properties.get key).elim header.extensible (·.configurable) = true ↔ Accepts header key := by
  unfold Accepts
  cases header.properties.get key with
  | _ => exact Iff.rfl

theorem growthTakes (takes : Takes header key) : definitionCharges header.properties key (.plain value) = (keyGrowth header.properties key,0) := by
  unfold Takes at takes
  unfold definitionCharges keyGrowth PropertyMap.containsKey
  cases current : header.properties.get key with
  | none => rfl
  | some p =>
    rw [current] at takes
    obtain ⟨_,rfl⟩ := takes
    rfl

theorem storeRefund {bytes e} :
    (do chargeSlot i bytes; setEntry i e; refundSlot i 0 : Exec Unit) m = (do chargeSlot i bytes; setEntry i e : Exec Unit) m := by
  cases charged : chargeSlot i bytes m with
  | error fault t => simp only [bind,EStateM.bind,charged]
  | ok done t =>
    obtain ⟨_,synced,inside⟩ := (chargeSynced m i bytes).ok charged
    rw [doneBind charged,doneBind charged,doneBind (p := setEntry i e) rfl]
    exact refundNothing (by simpa using synced) (by simpa using inside)

theorem createAccepts {target} (there : m.slot target = .ok (some i)) (entry : m.entry i = .object header boxed)
    (accepts : Accepts header key) : createDataProperty target key value m = defineObject i header boxed key value m := by
  have filled : (plainDescriptor value).isEmpty = false := by simp [PropertyDescriptor.isEmpty,plainDescriptor,PropertyDescriptor.default]
  have compatible := compatiblePlain m value header.extensible (header.properties.get key)
  rw [acceptsIff.mpr accepts] at compatible
  have applied : validateAndApply target key header.extensible (plainDescriptor value) (header.properties.get key) m =
      (do defineDescriptor target key (.plain value); pure true : Exec Bool) m := by
    unfold validateAndApply
    rw [doneBind (p := Effect.read) rfl]
    simp only [show (plainDescriptor value).complete = plainDescriptor value by rfl,ite_self,compatible,filled,Bool.and_false,
      Bool.true_eq_false,Bool.false_eq_true,if_false,intoPlain]
  unfold createDataProperty
  simp only [bind,EStateM.bind,defineTail there entry,applied,defineAccepts there entry accepts]
  cases defineObject i header boxed key value m with
  | ok done t => rfl
  | error fault t => rfl

theorem createOnly {target t} (there : m.slot target = .ok (some i)) (entry : m.entry i = .object header boxed)
    (done : createDataProperty target key value m = .ok () t) : Accepts header key := by
  by_contra refuses
  have compatible := compatiblePlain m value header.extensible (header.properties.get key)
  rw [Bool.eq_false_iff.mpr (acceptsIff.not.mpr refuses)] at compatible
  have applied : validateAndApply target key header.extensible (plainDescriptor value) (header.properties.get key) m = .ok false m := by
    unfold validateAndApply
    rw [doneBind (p := Effect.read) rfl]
    simp only [show (plainDescriptor value).complete = plainDescriptor value by rfl,ite_self,compatible,if_true]
    rfl
  unfold createDataProperty at done
  rw [doneBind ((defineTail there entry).trans applied)] at done
  cases done

theorem createTakes {target} (there : m.slot target = .ok (some i)) (entry : m.entry i = .object header boxed)
    (takes : Takes header key) : createDataProperty target key value m = setOwnData i key value m := by
  rw [createAccepts there entry takes.accepts,setTakes entry takes]
  unfold defineObject storeObject
  rw [growthTakes takes]
  exact storeRefund

theorem checkedTakes {p} (current : header.properties.get key = some p) (checked : checkWritable header false key = .ok ()) :
    ∃ stored enumerable configurable, p = .data stored true enumerable configurable := by
  unfold checkWritable at checked
  rw [current] at checked
  cases p with
  | accessor getter setter enumerable configurable => cases checked
  | data stored writable enumerable configurable =>
    cases writable with
    | true => exact ⟨stored,enumerable,configurable,rfl⟩
    | false => cases checked

theorem chargedEntry {bytes e} :
    After (do chargeSlot i bytes; setEntry i e : Exec Unit) m (fun _ t => t.entry i = e) fun _ _ => True := by
  rw [afterBind]
  refine (chargeSynced m i bytes).mono (fun _ c charged => ?_) fun _ _ _ => trivial
  simp only [setEntry,afterUpdate,Machine.entry,List.getD_eq_getElem?_getD,List.getElem?_set_self charged.2.2]
  rfl

theorem setStored {t} (entry : m.entry i = .object header boxed) (done : setOwnData i key value m = .ok () t) :
    checkWritable header false key = .ok () ∧
    t.entry i = .object { header with properties := header.properties.insert key (storedValue header.properties key value) } boxed := by
  rw [setObject entry] at done
  cases checked : checkWritable header false key with
  | error fault =>
    rw [checked] at done
    cases done
  | ok checks =>
    rw [checked,doneBind (p := lift _) (a := ()) (t := m) rfl] at done
    exact ⟨rfl,chargedEntry.ok done⟩

theorem createStored {target t} (there : m.slot target = .ok (some i)) (entry : m.entry i = .object header boxed)
    (done : createDataProperty target key value m = .ok () t) : t.entry i = holding header boxed key value := by
  rw [createAccepts there entry (createOnly there entry done)] at done
  unfold defineObject at done
  rw [← bind_assoc] at done
  obtain ⟨_,c,stored,refunded⟩ := bindDone done
  have only := (refundFrame c i _).ok refunded
  rw [Machine.entry,only.heap]
  exact chargedEntry.ok stored

end Store

section Run

variable {m : Machine} {i : Nat} {key : PropertyKey} {call : Value → Value → Exec Value} {source target : Value}

theorem elementGrown (m view offset) :
    After (readElement view offset) m (fun _ t => Grown m t) (fun _ _ => True) := by
  exact (readElementSpec m view offset).mono (fun _ _ kept => kept.grown) fun _ _ _ => trivial

theorem grownRefl (m) : Grown m m := fun _ _ found => found

theorem getGrown (key m fuel node) :
    After (resolveGetFrom key fuel node) m (fun _ t => Grown m t) (fun _ _ => True) := by
  induction fuel generalizing node with
  | zero => exact grownRefl m
  | succ fuel ih =>
    unfold resolveGetFrom
    rw [afterBind,afterRead]
    split
    · split
      · exact grownRefl m
      · rw [afterBind]
        refine afterLift (fun view _ => ?_) fun _ _ => trivial
        rw [afterBind]
        exact elementGrown m view _
    · rw [afterIte,afterBind]
      refine ⟨fun _ => afterLift (fun _ _ => trivial) fun _ _ => trivial,fun _ => ?_⟩
      split
      · exact afterLift (fun _ _ => grownRefl m) fun _ _ => trivial
      · rw [afterBind]
        refine afterLift (fun next _ => ?_) fun _ _ => trivial
        cases next with
        | none => exact grownRefl m
        | some next => exact ih next

theorem asciiGrown (name m fuel node) :
    After (resolveGetAsciiFrom name fuel node) m (fun _ t => Grown m t) (fun _ _ => True) := by
  induction fuel generalizing node with
  | zero => exact grownRefl m
  | succ fuel ih =>
    unfold resolveGetAsciiFrom
    rw [afterBind,afterRead,afterIte,afterBind]
    refine ⟨fun _ => afterLift (fun _ _ => trivial) fun _ _ => trivial,fun _ => ?_⟩
    split
    · split
      · rw [afterBind]
        refine afterLift (fun view _ => ?_) fun _ _ => trivial
        rw [afterBind]
        exact elementGrown m view _
      · exact grownRefl m
    · split
      · exact afterLift (fun _ _ => grownRefl m) fun _ _ => trivial
      · rw [afterBind]
        refine afterLift (fun next _ => ?_) fun _ _ => trivial
        cases next with
        | none => exact grownRefl m
        | some next => exact ih next

theorem outcomeGrown (object key m) :
    After (getOutcome object key) m (fun _ t => Grown m t) (fun _ _ => True) := by
  unfold getOutcome
  split
  · unfold resolveGetAscii runtimeSlot
    simp only [afterBind,afterRead]
    refine afterLift (fun slot _ => ?_) fun _ _ => trivial
    split
    · trivial
    · split
      · exact grownRefl m
      · rw [afterBind]
        refine afterLift (fun start _ => ?_) fun _ _ => trivial
        cases start with
        | none => exact grownRefl m
        | some start => exact asciiGrown _ m _ start
  · unfold resolveGet runtimeSlot
    simp only [afterBind,afterRead]
    refine afterLift (fun slot _ => ?_) fun _ _ => trivial
    split
    · split
      · trivial
      · exact grownRefl m
    · split
      · exact afterLift (fun _ _ => grownRefl m) fun _ _ => trivial
      · rw [afterBind]
        refine afterLift (fun start _ => ?_) fun _ _ => trivial
        cases start with
        | none => exact grownRefl m
        | some start => exact getGrown key m _ start

def LeavesAlone (call : Value → Value → Exec Value) (i : Nat) : Prop :=
  ∀ getter receiver m v t, call getter receiver m = .ok v t → t.heap[i]? = m.heap[i]?

theorem readKept (keeps : LeavesAlone call i) {v t} (inside : i < m.heap.length)
    (done : getPropertyKey call source key m = .ok v t) : t.heap[i]? = m.heap[i]? := by
  unfold getPropertyKey at done
  rw [doneBind (p := Effect.read) rfl] at done
  split at done
  · cases done
  · obtain ⟨outcome,s,got,done⟩ := bindDone done
    have grown : s.heap[i]? = m.heap[i]? := by
      rw [List.getElem?_eq_getElem inside]
      exact (outcomeGrown source key m).ok got i _ (List.getElem?_eq_getElem inside)
    cases outcome with
    | value value =>
      cases done
      exact grown
    | text text =>
      rw [((allocateFrame s _).ok done).2.1,List.getElem?_append_left]
      · exact grown
      · rw [List.getElem?_eq_getElem inside] at grown
        exact (List.getElem?_eq_some_iff.mp grown).1
    | getter getter => exact (keeps getter source s v t done).trans grown

theorem slotObject {t : Machine} {header boxed} (there : m.slot target = .ok (some i))
    (entry : t.entry i = .object header boxed) : t.slot target = .ok (some i) :=
  slotStays there (entryFound entry (by rintro ⟨⟩)) (by rintro ⟨⟩)

def Marks (target : Value) (i : Nat) (boxed : Option Value) (key : PropertyKey) (enumerable : Bool) (m : Machine) : Prop :=
  m.slot target = .ok (some i) ∧
  ∃ header p, m.entry i = .object header boxed ∧ header.properties.get key = some p ∧ p.enumerable = enumerable

variable {boxed : Option Value} {enumerable : Bool} {value : Value} {t : Machine} {other : PropertyKey}

theorem Marks.read (marks : Marks target i boxed key enumerable m) (same : t.heap[i]? = m.heap[i]?) :
    Marks target i boxed key enumerable t := by
  obtain ⟨there,header,p,entry,holds⟩ := marks
  have kept : t.entry i = m.entry i := by rw [Machine.entry,Machine.entry,List.getD_eq_getElem?_getD,List.getD_eq_getElem?_getD,same]
  exact ⟨slotObject there (kept.trans entry),header,p,kept.trans entry,holds⟩

theorem setMarks (marks : Marks target i boxed key enumerable m) (done : setOwnData i other value m = .ok () t) :
    Marks target i boxed key enumerable t := by
  obtain ⟨there,header,p,entry,current,shown⟩ := marks
  obtain ⟨checked,stored⟩ := setStored entry done
  by_cases same : key = other
  · subst same
    obtain ⟨old,_,configurable,rfl⟩ := checkedTakes current checked
    refine ⟨slotObject there stored,_,_,stored,by rw [PropertyMap.getInsert,if_pos rfl],?_⟩
    unfold storedValue
    rw [current]
    exact shown
  · exact ⟨slotObject there stored,_,p,stored,by rw [PropertyMap.getInsert,if_neg same,current],shown⟩

theorem createMarks (marks : Marks target i boxed key true m) (done : createDataProperty target other value m = .ok () t) :
    Marks target i boxed key true t := by
  obtain ⟨there,header,p,entry,current,shown⟩ := marks
  have stored := createStored there entry done
  by_cases same : key = other
  · exact ⟨slotObject there stored,_,.plain value,stored,by rw [PropertyMap.getInsert,if_pos same],rfl⟩
  · exact ⟨slotObject there stored,_,p,stored,by rw [PropertyMap.getInsert,if_neg same,current],shown⟩

def storeKeys (call : Value → Value → Exec Value) (source : Value) (store : PropertyKey → Value → Exec Unit) : List PropertyKey → Exec Unit
  | [] => pure ()
  | key :: rest => do
    let m ← read
    let enumerable ← lift (m.ownPropertyIsEnumerable source key)
    if enumerable then do
      let value ← getPropertyKey call source key
      store key value
      storeKeys call source store rest
    else storeKeys call source store rest

theorem spreadStores (keys) : spreadKeys call i source keys = storeKeys call source (setOwnData i) keys := by
  induction keys with
  | nil => rfl
  | cons key rest ih => rw [spreadKeys,storeKeys,ih]

theorem copyStores (keys) : copyKeys call target source [] keys = storeKeys call source (createDataProperty target) keys := by
  induction keys with
  | nil => rfl
  | cons key rest ih => rw [copyKeys,storeKeys,if_neg List.not_mem_nil,ih]

theorem storesKeep {store} {I : Machine → Prop} (reads : ∀ key m v t, getPropertyKey call source key m = .ok v t → I m → I t)
    (stores : ∀ key v m t, store key v m = .ok () t → I m → I t) {keys} (start : I m)
    (done : storeKeys call source store keys m = .ok () t) : I t := by
  induction keys generalizing m with
  | nil =>
    cases done
    exact start
  | cons key rest ih =>
    unfold storeKeys at done
    rw [doneBind (p := Effect.read) rfl] at done
    obtain ⟨listed,_,asked,done⟩ := bindDone done
    cases found : m.ownPropertyIsEnumerable source key with
    | error fault =>
      rw [found] at asked
      cases asked
    | ok listed =>
      rw [found] at asked
      cases asked
      cases listed with
      | false => exact ih start done
      | true =>
        obtain ⟨v,s,got,done⟩ := bindDone done
        obtain ⟨_,u,stored,done⟩ := bindDone done
        exact ih (stores key v s u stored (reads key m v s got start)) done

def SparesKeys (call : Value → Value → Exec Value) (i : Nat) (source : Value) : List PropertyKey → Machine → Prop
  | [], _ => True
  | key :: rest, m =>
    match m.ownPropertyIsEnumerable source key with
    | .ok true => match getPropertyKey call source key m with
      | .ok value t => (∃ header boxed, t.entry i = .object header boxed ∧ Takes header key) ∧
        match setOwnData i key value t with
        | .ok _ u => SparesKeys call i source rest u
        | .error .. => True
      | .error .. => True
    | .ok false => SparesKeys call i source rest m
    | .error _ => True

theorem storesSkip {store rest} (asked : m.ownPropertyIsEnumerable source key = .ok false) :
    storeKeys call source store (key :: rest) m = storeKeys call source store rest m := by
  rw [storeKeys,doneBind (p := Effect.read) rfl,asked,doneBind (p := lift _) (a := false) (t := m) rfl]
  rfl

theorem storesOne {store rest} (asked : m.ownPropertyIsEnumerable source key = .ok true) (got : getPropertyKey call source key m = .ok value t) :
    storeKeys call source store (key :: rest) m = (do store key value; storeKeys call source store rest : Exec Unit) t := by
  rw [storeKeys,doneBind (p := Effect.read) rfl,asked,doneBind (p := lift _) (a := true) (t := m) rfl,if_pos rfl,doneBind got]

theorem sparedSame {keys} (there : m.slot target = .ok (some i)) (spares : SparesKeys call i source keys m) :
    storeKeys call source (setOwnData i) keys m = storeKeys call source (createDataProperty target) keys m := by
  induction keys generalizing m with
  | nil => rfl
  | cons key rest ih =>
    unfold SparesKeys at spares
    cases asked : m.ownPropertyIsEnumerable source key with
    | error fault =>
      rw [storeKeys,storeKeys,doneBind (p := Effect.read) rfl,doneBind (p := Effect.read) rfl,asked]
      rfl
    | ok enumerable =>
      rw [asked] at spares
      cases enumerable with
      | false =>
        rw [storesSkip asked,storesSkip asked]
        exact ih there spares
      | true =>
        cases got : getPropertyKey call source key m with
        | error fault t =>
          simp only [storeKeys,doneBind (p := Effect.read) (s := m) rfl,asked,doneBind (p := lift (.ok true)) (a := true) (t := m) rfl,if_true]
          simp only [bind,EStateM.bind,got]
        | ok value t =>
          rw [got] at spares
          obtain ⟨⟨header,boxed,entry,takes⟩,later⟩ := spares
          have reach := slotObject there entry
          rw [storesOne asked got,storesOne asked got]
          simp only [bind,EStateM.bind,createTakes reach entry takes]
          cases stored : setOwnData i key value t with
          | error fault u => rfl
          | ok _ u =>
            rw [stored] at later
            exact ih (slotObject reach (setStored entry stored).2) later

theorem spoiledStore {header u v} (there : m.slot target = .ok (some i)) (entry : m.entry i = .object header boxed)
    (spoils : ¬Takes header key) (setDone : setOwnData i key value m = .ok () u) (createDone : createDataProperty target key value m = .ok () v) :
    Marks target i boxed key false u ∧ Marks target i boxed key true v := by
  have accepts := createOnly there entry createDone
  have created := createStored there entry createDone
  obtain ⟨checked,stored⟩ := setStored entry setDone
  unfold Takes at spoils
  unfold Accepts at accepts
  cases current : header.properties.get key with
  | none =>
    rw [current] at spoils accepts
    exact absurd accepts spoils
  | some p =>
    rw [current] at spoils accepts
    obtain ⟨old,enumerable,configurable,rfl⟩ := checkedTakes current checked
    cases accepts
    cases enumerable with
    | true => exact absurd ⟨old,rfl⟩ spoils
    | false =>
      refine ⟨⟨slotObject there stored,_,.data value true false true,stored,?_,rfl⟩,
        slotObject there created,_,.plain value,created,by rw [PropertyMap.getInsert,if_pos rfl],rfl⟩
      rw [PropertyMap.getInsert,if_pos rfl,storedValue,current]

theorem spoiledApart {keys header u v} (keeps : LeavesAlone call i)
    (there : m.slot target = .ok (some i)) (entry : m.entry i = .object header boxed) (spoils : ¬SparesKeys call i source keys m)
    (spread : storeKeys call source (setOwnData i) keys m = .ok () u) (copied : storeKeys call source (createDataProperty target) keys m = .ok () v) :
    ∃ key, Marks target i boxed key false u ∧ Marks target i boxed key true v := by
  induction keys generalizing m header with
  | nil => exact absurd trivial spoils
  | cons key rest ih =>
    unfold SparesKeys at spoils
    cases asked : m.ownPropertyIsEnumerable source key with
    | error fault =>
      rw [asked] at spoils
      exact absurd trivial spoils
    | ok enumerable =>
      rw [asked] at spoils
      cases enumerable with
      | false =>
        rw [storesSkip asked] at spread copied
        exact ih there entry spoils spread copied
      | true =>
        cases got : getPropertyKey call source key m with
        | error fault t =>
          rw [got] at spoils
          exact absurd trivial spoils
        | ok value t =>
          rw [got] at spoils
          rw [storesOne asked got] at spread copied
          obtain ⟨_,a,setDone,spread⟩ := bindDone spread
          obtain ⟨_,b,createDone,copied⟩ := bindDone copied
          have same := readKept keeps (slotInside there) got
          have entry : t.entry i = .object header boxed := by
            rw [← entry,Machine.entry,Machine.entry,List.getD_eq_getElem?_getD,List.getD_eq_getElem?_getD,same]
          have reach := slotObject there entry
          have stored := setStored entry setDone
          have reads : ∀ {e : Bool} k m v t, getPropertyKey call source k m = .ok v t → Marks target i boxed key e m → Marks target i boxed key e t :=
            fun k m v t got marks => marks.read (readKept keeps (slotInside marks.1) got)
          by_cases takes : Takes header key
          · have equal : createDataProperty target key value t = setOwnData i key value t := createTakes reach entry takes
            rw [equal,setDone] at createDone
            cases createDone
            dsimp only at spoils
            rw [setDone] at spoils
            exact ih (slotObject reach stored.2) stored.2 (fun spares => spoils ⟨⟨header,boxed,entry,takes⟩,spares⟩) spread copied
          · obtain ⟨hidden,shown⟩ := spoiledStore reach entry takes setDone createDone
            exact ⟨key,storesKeep reads (fun _ _ _ _ done marks => setMarks marks done) hidden spread,
              storesKeep reads (fun _ _ _ _ done marks => createMarks marks done) shown copied⟩

end Run

def Machine.ownProperties (m : Machine) (i : Nat) : Option PropertyMap := (m.entry i).header?.map (·.properties)

theorem Marks.differ {target i boxed key m t}
    (hidden : Marks target i boxed key false m) (shown : Marks target i boxed key true t) : m.ownProperties i ≠ t.ownProperties i := by
  obtain ⟨_,header,p,entry,current,enumerable⟩ := hidden
  obtain ⟨_,header',p',entry',current',enumerable'⟩ := shown
  intro same
  rw [Machine.ownProperties,Machine.ownProperties,entry,entry'] at same
  have properties : header.properties = header'.properties := Option.some.inj same
  rw [properties,current'] at current
  cases current
  rw [enumerable'] at enumerable
  cases enumerable

def SparesTarget (call : Value → Value → Exec Value) (i : Nat) (source : Value) (m : Machine) : Prop :=
  ∀ keys, m.ownKeys source = .ok keys → SparesKeys call i source keys m

section Whole

variable {m : Machine} {i j : Nat} {header listHeader : Header} {boxed : Option Value} {writable : Bool} {target source excluded : Value}
variable (call : Value → Value → Exec Value) (valueToString : Machine → Value → Except Fault EcmaString)

theorem spreadRuns (source) (there : m.slot target = .ok (some i)) (entry : m.entry i = .object header boxed) :
    objectSpread call target source m = (do
      let keys ← internalOwnPropertyKeys source
      storeKeys call source (setOwnData i) keys : Exec Unit) m := by
  have spreadable : (m.entry i).kind ∈ spreadableKinds := by
    rw [entry]
    exact show Kind.object ∈ spreadableKinds by decide
  unfold objectSpread
  rw [doneBind (p := Effect.read) rfl,doneBind (slotRun there)]
  dsimp only
  rw [if_pos spreadable]
  simp only [spreadStores]

theorem copyRuns (source) (there : m.slot target = .ok (some i)) (entry : m.entry i = .object header boxed)
    (listed : m.slot excluded = .ok (some j)) (none_ : m.entry j = .array listHeader [] writable) :
    copyDataProperties call valueToString target source excluded m = (do
      let keys ← internalOwnPropertyKeys source
      storeKeys call source (createDataProperty target) keys : Exec Unit) m := by
  have object : m.isObject target = true := by
    simp only [Machine.isObject,there,entry]
    rfl
  have spared : m.excludedPropertyKeys valueToString excluded = .ok [] := by
    unfold Machine.excludedPropertyKeys
    rw [listed]
    simp only [bind,Except.bind,Option.map_some,none_]
    rfl
  unfold copyDataProperties
  rw [doneBind (p := Effect.read) rfl,object,if_neg Bool.true_eq_false.mp,spared,doneBind (p := lift _) (a := []) (t := m) rfl]
  simp only [copyStores]

theorem keysRead {keys t} (read : internalOwnPropertyKeys source m = .ok keys t) :
    t = m ∧ m.ownKeys source = .ok keys := by
  unfold internalOwnPropertyKeys at read
  rw [doneBind (p := Effect.read) rfl] at read
  split at read
  · cases read
  · cases known : m.ownKeys source with
    | error fault =>
      rw [known] at read
      cases read
    | ok found =>
      rw [known] at read
      cases read
      exact ⟨rfl,rfl⟩

/- What `object_spread` stores is what `copy_data_properties` creates exactly when every property about to
be stored meets an extensible object without it, or one that holds it writable, enumerable and configurable. -/
theorem spreadCreates (there : m.slot target = .ok (some i)) (entry : m.entry i = .object header boxed)
    (listed : m.slot excluded = .ok (some j)) (none_ : m.entry j = .array listHeader [] writable) :
    (SparesTarget call i source m → objectSpread call target source m = copyDataProperties call valueToString target source excluded m) ∧
    (LeavesAlone call i → ∀ u, copyDataProperties call valueToString target source excluded m = .ok () u →
      ((∃ t, objectSpread call target source m = .ok () t ∧ t.ownProperties i = u.ownProperties i) ↔ SparesTarget call i source m)) := by
  have spread := spreadRuns call source there entry
  have copy := copyRuns call valueToString source there entry listed none_
  have equal : SparesTarget call i source m →
      objectSpread call target source m = copyDataProperties call valueToString target source excluded m := by
    intro spares
    rw [spread,copy]
    cases read : internalOwnPropertyKeys source m with
    | error fault s => simp only [bind,EStateM.bind,read]
    | ok keys s =>
      obtain ⟨rfl,known⟩ := keysRead read
      rw [doneBind read,doneBind read,sparedSame there (spares keys known)]
  refine ⟨equal,fun keeps u copied => ⟨fun agrees keys known => ?_,fun spares => ⟨u,(equal spares).trans copied,rfl⟩⟩⟩
  obtain ⟨t,done,same⟩ := agrees
  rw [spread] at done
  rw [copy] at copied
  obtain ⟨found,s,read,done⟩ := bindDone done
  rw [doneBind read] at copied
  obtain ⟨rfl,listing⟩ := keysRead read
  rw [known] at listing
  cases listing
  by_contra spoils
  obtain ⟨_,hidden,shown⟩ := spoiledApart keeps there entry spoils done copied
  exact hidden.differ shown same

end Whole

def spreadName : PropertyKey := .named (ascii "a")

-- A builtin function, a target, a source that holds one property and an empty list of excluded keys.
def spreadMachine (properties : PropertyMap) : Machine :=
  left (forM [builtinEntry,.object ⟨properties,none,true⟩ none,.object ⟨PropertyMap.empty.insert spreadName (.plain .undefined),none,true⟩ none,
    .array ⟨.empty,none,true⟩ [] true] fun entry => do let _ ← allocate entry) bareMachine

def withGetter : PropertyMap := PropertyMap.empty.insert spreadName (.accessor (some madeBuiltin) none true true)
def spreadTo : Value := (valueForHeapIndex 2).getD .undefined
def spreadFrom : Value := (valueForHeapIndex 3).getD .undefined
def spareKeys : Value := (valueForHeapIndex 4).getD .undefined

def idleCall (_ _ : Value) : Exec Value := pure .undefined
def idleText (_ : Machine) (_ : Value) : Except Fault EcmaString := .ok ⟨[]⟩

theorem spreadCreatesLiteral :
    (SparesTarget idleCall 2 spreadFrom (spreadMachine .empty) →
      objectSpread idleCall spreadTo spreadFrom (spreadMachine .empty) =
        copyDataProperties idleCall idleText spreadTo spreadFrom spareKeys (spreadMachine .empty)) ∧
    (LeavesAlone idleCall 2 → ∀ u, copyDataProperties idleCall idleText spreadTo spreadFrom spareKeys (spreadMachine .empty) = .ok () u →
      ((∃ t, objectSpread idleCall spreadTo spreadFrom (spreadMachine .empty) = .ok () t ∧ t.ownProperties 2 = u.ownProperties 2) ↔
        SparesTarget idleCall 2 spreadFrom (spreadMachine .empty))) :=
  spreadCreates idleCall idleText rfl rfl rfl rfl

theorem spreadKeysRead : internalOwnPropertyKeys spreadFrom (spreadMachine withGetter) = .ok [spreadName] (spreadMachine withGetter) := by
  have ordered : orderedPropertyKeys (PropertyMap.empty.insert spreadName (.plain .undefined)) = [spreadName] := by with_unfolding_all decide
  have known : (spreadMachine withGetter).ownKeys spreadFrom =
      .ok (orderedPropertyKeys (PropertyMap.empty.insert spreadName (.plain .undefined))) := rfl
  have direct : (spreadMachine withGetter).isProxyValue spreadFrom = false := rfl
  unfold internalOwnPropertyKeys
  rw [doneBind (p := Effect.read) rfl,direct,if_neg Bool.false_ne_true,known,ordered]
  rfl

-- What `{get a() {}, ...{a: undefined}}` runs into.
theorem accessorRefused :
    ¬∀ (call : Value → Value → Exec Value) (valueToString : Machine → Value → Except Fault EcmaString) (m : Machine)
      (target source excluded : Value) (i j : Nat) (header listHeader : Header) (boxed : Option Value) (writable : Bool) (u : Machine),
      m.slot target = .ok (some i) → m.entry i = .object header boxed → header.extensible = true →
      (∀ key p, header.properties.get key = some p → p.configurable = true) → m.isProxyValue source = false →
      m.slot excluded = .ok (some j) → m.entry j = .array listHeader [] writable →
      copyDataProperties call valueToString target source excluded m = .ok () u →
      ∃ t, objectSpread call target source m = .ok () t ∧ t.ownProperties i = u.ownProperties i := by
  intro always
  have properties : ∀ key p, withGetter.get key = some p →
      p.configurable = true := by
    intro key p found
    rw [withGetter,PropertyMap.getInsert] at found
    split at found
    · cases found
      rfl
    · cases found
  obtain ⟨u,copied⟩ : ∃ u, copyDataProperties idleCall idleText spreadTo spreadFrom spareKeys (spreadMachine withGetter) = .ok () u := by
    rw [copyRuns idleCall idleText (i := 2) (j := 4) spreadFrom rfl rfl rfl rfl,doneBind (spreadKeysRead)]
    exact ⟨_,rfl⟩
  obtain ⟨fault,s,refused⟩ : ∃ fault s, objectSpread idleCall spreadTo spreadFrom (spreadMachine withGetter) = .error fault s := by
    rw [spreadRuns idleCall (i := 2) spreadFrom rfl rfl,doneBind (spreadKeysRead)]
    exact ⟨_,_,rfl⟩
  obtain ⟨t,done,_⟩ := always idleCall idleText _ spreadTo spreadFrom spareKeys 2 4 _ _ _ _ u rfl rfl rfl properties rfl rfl rfl copied
  rw [refused] at done
  cases done

end Bamts.Runtime
