import Bamts.Gather
import Bamts.RuntimeIterate

/-! Promise.all: the record that counts the elements, the callbacks of the elements, and the loop over the
iterable. The loop is cut where it hands control to the program. The histories are a ghost: they are written where
the source asks, answers, closes, settles abruptly and resolves, and nothing reads them. -/
set_option linter.all false
namespace Bamts.Runtime.PromiseAll
open Effect

-- The capability an aggregate was made with, its elements with their first values, and the functions it called to resolve.
structure History where
  resolve : Value
  gathered : Gather Value
  callees : List Value

structure Activation where
  aggregate : Value
  resolveMethod : Value
  receiver : Value
  capabilityResolve : Value
  capabilityReject : Value

-- What the loop waits for: the iterator, its next step, `resolve_method`, the getter of `then`, `then` itself, the
-- `return` of the iterator, and the capability.
inductive Stage where
  | createIterator
  | iteratorNext (iterator : Value)
  | resolve (iterator onFulfilled value : Value)
  | getThen (iterator onFulfilled resolved : Value)
  | callThen (iterator onFulfilled resolved method : Value)
  | closeIterator (iterator : Value) (failure : EvalFailure)
  | reject (failure : EvalFailure)
  | settle (array : Value)
  | returned

structure Running where
  machine : Machine
  histories : Value → Option History
  loops : List (Activation × Stage)

abbrev Gathering := EStateM Fault Running

def onMachine {α : Type} (p : Exec α) : Gathering α := zoom Running.machine (fun s m => { s with machine := m }) p

def note (aggregate : Value) (f : History → History) : Gathering Unit := update fun s =>
  { s with histories := fun v => if v = aggregate then (s.histories v).map f else s.histories v }

def noteGathered (aggregate : Value) (f : Gather Value → Gather Value) : Gathering Unit :=
  note aggregate fun h => { h with gathered := f h.gathered }

def target : Fault := typeError "Promise.all target"

def runtimeIndex (value : Value) : Gathering Nat := do
  match ← onMachine (runtimeSlot value) with
  | some index => pure index
  | none => fail target

def markPromiseAllSettled (aggregate : Value) : Gathering Bool := do
  let index ← runtimeIndex aggregate
  let s ← read
  match s.machine.entry index with
  | .promiseAll resolve reject values remaining settled => do
    noteGathered aggregate Gather.drop
    onMachine (setEntry index (.promiseAll resolve reject values remaining true))
    pure !settled
  | _ => fail target

def addPromiseAllElement (aggregate : Value) : Gathering Nat := do
  let index ← runtimeIndex aggregate
  let s ← read
  match s.machine.entry index with
  | .promiseAll resolve reject values remaining false =>
    if 2^64 ≤ remaining+1 then fail (heapByteLimitExceeded s.machine)
    else do
      onMachine (ensureAllocationCapacity 0 valueBytes)
      onMachine (chargeSlot index valueBytes)
      onMachine (setEntry index (.promiseAll resolve reject (values ++ [Value.undefined]) (remaining+1) false))
      noteGathered aggregate Gather.ask
      pure values.length
  | _ => fail target

def finishPromiseAll (aggregate : Value) : Gathering Bool := do
  let index ← runtimeIndex aggregate
  let s ← read
  match s.machine.entry index with
  | .promiseAll resolve reject values remaining settled =>
    if settled then pure false
    else if remaining = 0 then fail (.panicked .underflow)
    else do
      onMachine (setEntry index (.promiseAll resolve reject values (remaining-1) (remaining-1 == 0)))
      pure (remaining-1 == 0)
  | _ => fail target

def transferSlotCharge (source destination bytes : Nat) : Exec Unit := do
  syncSlotLedger
  let m ← read
  if m.held source < bytes ∨ m.heap.length ≤ source ∨ m.heap.length ≤ destination then fail (.panicked .unexpected)
  else update fun m => { m with slotBytes := (m.slotBytes.modify source (·-bytes)).modify destination (·+bytes) }

def createArray (elements : List Value) : Exec Value := do
  let m ← read
  allocate (plainArray m elements)

def movePromiseAllValuesToArray (aggregate : Value) : Gathering Value := do
  let index ← runtimeIndex aggregate
  let s ← read
  match s.machine.entry index with
  | .promiseAll .. => do
    let array ← onMachine (createArray [])
    match ← onMachine (runtimeSlot array) with
    | none => fail (.panicked .unexpected)
    | some arrayIndex =>
      let s ← read
      match s.machine.entry index with
      | .promiseAll resolve reject values remaining settled => do
        onMachine (setEntry index (.promiseAll resolve reject [] remaining settled))
        let s ← read
        match s.machine.entry arrayIndex with
        | .array header _ lengthWritable => do
          onMachine (setEntry arrayIndex (.array header values lengthWritable))
          onMachine (transferSlotCharge index arrayIndex (values.length*valueBytes))
          pure array
        | _ => fail (.panicked .unexpected)
      | _ => fail target
  | _ => fail target

def elementsOf (m : Machine) (array : Value) : List Value :=
  match m.slot array with
  | .ok (some index) => match m.entry index with
    | .array _ elements _ => elements
    | _ => []
  | _ => []

def callResolve (aggregate callee array : Value) : Gathering Unit := do
  let s ← read
  note aggregate fun h =>
    { h with gathered := h.gathered.deliver (elementsOf s.machine array),callees := h.callees ++ [callee] }

def resolvePromiseAllElement (element value : Value) : Gathering Unit := do
  let index ← runtimeIndex element
  let s ← read
  match s.machine.entry index with
  | .promiseAllElement aggregate outputIndex called =>
    if called then pure ()
    else do
      onMachine (setEntry index (.promiseAllElement aggregate outputIndex true))
      noteGathered aggregate fun g => g.answer outputIndex value
      let aggregateIndex ← runtimeIndex aggregate
      let s ← read
      match s.machine.entry aggregateIndex with
      | .promiseAll resolve reject values remaining settled =>
        if settled then pure ()
        else if values.length ≤ outputIndex then fail (.panicked .unexpected)
        else if remaining = 0 then fail (.panicked .underflow)
        else do
          onMachine (setEntry aggregateIndex (.promiseAll resolve reject (values.set outputIndex value) (remaining-1) (remaining-1 == 0)))
          if remaining-1 = 0 then do
            let array ← movePromiseAllValuesToArray aggregate
            callResolve aggregate resolve array
          else pure ()
      | _ => fail target
  | _ => fail target

-- A failure that the source matches on; a panic is none.
def attempt {α : Type} (p : Gathering α) : Gathering (Except EvalFailure α) :=
  tryCatch (do let a ← p; pure (.ok a)) fun fault => match fault with
    | .failure failure => pure (.error failure)
    | fault => fail fault

def createPromiseResolverFunction (target record : Value) : Exec Value :=
  allocate (.nativeFunction ⟨.empty,none,true⟩ (.bound ⟨target,.undefined,[record]⟩))

def promiseAllTarget : Gathering Value := do
  let s ← read
  match s.machine.intrinsics.builtins.slot .promiseAllTarget with
  | some target => pure target
  | none => fail (.panicked .unexpected)

def rejectPromiseAllAbrupt (activation : Activation) (iterator : Value) (failure : EvalFailure) : Gathering Stage := do
  let _ ← markPromiseAllSettled activation.aggregate
  pure (.closeIterator iterator failure)

def addElement (activation : Activation) (iterator value : Value) : Gathering Stage := do
  match ← attempt (addPromiseAllElement activation.aggregate) with
  | .error failure => rejectPromiseAllAbrupt activation iterator failure
  | .ok index => do
    match ← attempt (onMachine (allocate (.promiseAllElement activation.aggregate index false))) with
    | .error failure => rejectPromiseAllAbrupt activation iterator failure
    | .ok element => do
      let fulfillTarget ← promiseAllTarget
      match ← attempt (onMachine (createPromiseResolverFunction fulfillTarget element)) with
      | .error failure => rejectPromiseAllAbrupt activation iterator failure
      | .ok onFulfilled => pure (.resolve iterator onFulfilled value)

def finishIteration (activation : Activation) : Gathering Stage := do
  noteGathered activation.aggregate Gather.close
  if ← finishPromiseAll activation.aggregate then do
    let array ← movePromiseAllValuesToArray activation.aggregate
    callResolve activation.aggregate activation.capabilityResolve array
    pure (.settle array)
  else pure .returned

-- `promise_all_with_resolve` from one call of the program to the next. Only the step of an iterator says whether it is done.
def advance (activation : Activation) : Stage → Except EvalFailure (Bool × Value) → Gathering Stage
  | .createIterator, .ok (_,iterator) => pure (.iteratorNext iterator)
  | .createIterator, .error failure => do
    let _ ← markPromiseAllSettled activation.aggregate
    pure (.reject failure)
  | .iteratorNext _, .ok (true,_) => finishIteration activation
  | .iteratorNext iterator, .ok (false,value) => addElement activation iterator value
  | .resolve iterator onFulfilled _, .ok (_,resolved) => pure (.getThen iterator onFulfilled resolved)
  | .getThen iterator onFulfilled resolved, .ok (_,method) => pure (.callThen iterator onFulfilled resolved method)
  | .callThen iterator .., .ok _ => pure (.iteratorNext iterator)
  | .iteratorNext iterator, .error failure | .resolve iterator .., .error failure | .getThen iterator .., .error failure
  | .callThen iterator .., .error failure => rejectPromiseAllAbrupt activation iterator failure
  | .closeIterator .., .error (.runtime kind) => fail (runtimeFault kind)
  | .closeIterator _ failure, _ => pure (.reject failure)
  | .settle _, .error failure => pure (.reject failure)
  | .reject _, .error failure => fail (.failure failure)
  | .settle _, .ok _ | .reject _, .ok _ | .returned, _ => pure .returned

inductive Operation where
  | start (resolveMethod receiver capabilityResolve capabilityReject : Value)
  | resume (loop : Nat) (reply : Except EvalFailure (Bool × Value))
  | call (element value : Value)

def Operation.run : Operation → Gathering Unit
  | .start resolveMethod receiver capabilityResolve capabilityReject => do
    let aggregate ← onMachine (allocate (.promiseAll capabilityResolve capabilityReject [] 1 false))
    update fun s =>
      { s with
        histories := fun v => if v = aggregate then some ⟨capabilityResolve,Gather.fresh,[]⟩ else s.histories v
        loops := s.loops ++ [(⟨aggregate,resolveMethod,receiver,capabilityResolve,capabilityReject⟩,.createIterator)] }
  | .resume loop reply => do
    let s ← read
    match s.loops[loop]? with
    | none => pure ()
    | some (activation,stage) => do
      update fun s => { s with loops := s.loops.set loop (activation,.returned) }
      let next ← advance activation stage reply
      update fun s => { s with loops := s.loops.set loop (activation,next) }
  | .call element value => resolvePromiseAllElement element value

def isRecord : HeapEntry → Bool
  | .promiseAll .. | .promiseAllElement .. => true
  | _ => false

-- What everything else may do between two operations: no record appears or changes, but one may be swept, and a
-- swept slot stays empty.
structure Elsewhere (m t : Machine) : Prop where
  grows : m.heap.length ≤ t.heap.length
  records : ∀ i, isRecord (t.entry i) = true → t.entry i = m.entry i
  swept : ∀ i, i < m.heap.length → isRecord (m.entry i) = true ∨ (m.entry i).isVacant = true →
    t.entry i = m.entry i ∨ (t.entry i).isVacant = true

-- A runtime error or a panic ends the run; whoever drives an operation catches any other failure.
def catchable : Fault → Bool
  | .failure (.runtime _) => false
  | .failure _ => true
  | _ => false

inductive Runs (m : Machine) : Running → Prop where
  | start : Runs m ⟨m,fun _ => none,[]⟩
  | done {s t : Running} (before : Runs m s) (o : Operation) (result : o.run s = .ok () t) : Runs m t
  | caught {s t : Running} (before : Runs m s) (o : Operation) (fault : Fault) (result : o.run s = .error fault t)
    (caught : catchable fault = true) : Runs m t
  | elsewhere {s : Running} (before : Runs m s) (t : Machine) (aside : Elsewhere s.machine t) : Runs m { s with machine := t }

end Bamts.Runtime.PromiseAll
