import Bamts.LayerWalk
import Bamts.RuntimePrototype

/-! The iteration over the keys of an object and of the objects above it. All of its state is in the entry of the iterator,
and the program runs between two keys. -/
set_option linter.all false
namespace Bamts.Runtime.ForIn
open Effect Bytecode Linkage

def notAnIterator : Fault := typeError "iterator next on non-iterator"

def boxPrimitive (value : Value) : Exec Value := do
  let m ← read
  let prototype ← match value.decode with
    | some (.boolean _) => pure m.intrinsics.booleanPrototype
    | some (.number _) | some (.int32 _) => pure m.intrinsics.numberPrototype
    | some (.heapRef _) => do
      let slot ← runtimeSlot value
      match slot.map m.entry with
      | some (.string _) => pure m.intrinsics.stringPrototype
      | some (.bigInt _) => lift (orPanic (m.intrinsics.builtins.slot .bigintPrototype))
      | some (.symbol _) => lift (orPanic (m.intrinsics.builtins.slot .symbolPrototype))
      | _ => pure m.intrinsics.objectPrototype
    | _ => pure m.intrinsics.objectPrototype
  allocate (.object ⟨.empty,some prototype,true⟩ (some value))

def valueToObject (value : Value) : Exec Value := do
  let m ← read
  match value.decode with
  | none | some .undefined | some .null | some .hole | some .uninitialized => fail (typeError "convert nullish value to object")
  | _ => do
    let slot ← runtimeSlot value
    if slot.any fun index => (m.entry index).kind ∈ [Kind.string,.bigInt,.symbol,.privateName] then boxPrimitive value
    else if m.isObject value then pure value
    else boxPrimitive value

def fresh (current : Option Value) : ForInIteratorState := ⟨current,false,[],[],[]⟩

def forInIteratorState (src : Value) : Exec ForInIteratorState :=
  match src.decode with
  | some .undefined | some .null => pure (fresh none)
  | _ => do
    let object ← valueToObject src
    pure (fresh (some object))

-- `create_iterator` for keys.
def createIterator (src : Value) : Exec Value := do
  let state ← forInIteratorState src
  allocate (.iterator (.keys state))

def keysState (m : Machine) (index : Nat) : Except Fault ForInIteratorState :=
  match m.entry index with
  | .iterator (.keys state) => .ok state
  | _ => .error notAnIterator

def setKeys (index : Nat) (state : ForInIteratorState) : Exec Unit := setEntry index (.iterator (.keys state))

def updateKeys (index : Nat) (f : ForInIteratorState → ForInIteratorState) : Exec Unit := do
  let m ← read
  let state ← lift (keysState m index)
  setKeys index (f state)

def forInCurrent (index : Nat) : Exec (Option Value) := do
  let m ← read
  let state ← lift (keysState m index)
  pure state.current

-- The sets of the source are lists here, of which only the members count.
def forInEnterLevel (index : Nat) (current : Value) : Exec Bool := do
  let m ← read
  let state ← lift (keysState m index)
  if state.objectWasVisited then pure true
  else match ← runtimeSlot current with
    | none => pure false
    | some slot =>
      if slot ∈ state.visitedObjects then do
        setKeys index { state with current := none }
        pure false
      else do
        setKeys index { state with visitedObjects := slot :: state.visitedObjects }
        let keys ← internalOwnPropertyKeys current
        updateKeys index fun state => { state with objectWasVisited := true,remaining := keys.filterMap PropertyKey.asString }
        pure true

def forInPopName (index : Nat) : Exec (Option (EcmaString × Bool)) := do
  let m ← read
  let state ← lift (keysState m index)
  match state.remaining with
  | [] => pure none
  | name :: rest => do
    setKeys index { state with remaining := rest }
    pure (some (name,decide (name ∈ state.visitedNames)))

def forInRecordName (index : Nat) (name : EcmaString) : Exec Unit :=
  updateKeys index fun state => { state with visitedNames := name :: state.visitedNames }

-- How a loop stands; `goesOn` is one that was still under way when its rounds ran out.
inductive Turn where
  | yields (name : EcmaString) | ended | goesOn
  deriving DecidableEq

def Turn.of : Option EcmaString → Turn
  | some name => .yields name
  | none => .ended

def forInNames (index : Nat) (current : Value) : Nat → Exec Turn
  | 0 => pure .goesOn
  | rounds+1 => do
    match ← forInPopName index with
    | none => pure .ended
    | some (name,shadowed) =>
      if shadowed then forInNames index current rounds
      else match ← internalGetOwnProperty current (.named name) with
        | none => forInNames index current rounds
        | some descriptor =>
          if descriptor.enumerable = some true then do
            forInRecordName index name
            pure (.yields name)
          else do
            forInRecordName index name
            forInNames index current rounds

def remainingNames (index : Nat) : Exec Nat := do
  let m ← read
  let state ← lift (keysState m index)
  pure state.remaining.length

-- The source bounds neither loop; every round of this one but the last is at a slot of its own.
def forInLevels (index : Nat) : Nat → Exec Turn
  | 0 => pure .goesOn
  | rounds+1 => do
    match ← forInCurrent index with
    | none => pure .ended
    | some current =>
      if ← forInEnterLevel index current then do
        let count ← remainingNames index
        match ← forInNames index current (count+1) with
        | .yields name => pure (.yields name)
        | .goesOn => pure .goesOn
        | .ended => do
          let m ← read
          let prototype ← lift (m.internalGetPrototypeOf current)
          updateKeys index fun state => { state with current := prototype,objectWasVisited := false }
          forInLevels index rounds
      else pure .ended

def forInNext (index : Nat) : Exec Turn := do
  let m ← read
  forInLevels index (m.heap.length+1)

end Bamts.Runtime.ForIn
