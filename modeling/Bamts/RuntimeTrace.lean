import Bamts.Tracing
import Bamts.RuntimeLedger

/-! What the collector traces. Each function lists the slots its counterpart marks, in that order. -/
set_option linter.all false
namespace Bamts.Runtime

def runtimeIndex (value : Value) : Option Nat :=
  match value.decode with
  | some (.heapRef id) => if id.segment = runtimeHeapSegment then some (id.slot.toNat-1) else none
  | _ => none

def traceValue (value : Value) : List Nat := (runtimeIndex value).toList
def traceOption (value : Option Value) : List Nat := value.elim [] traceValue
def traceValues (values : List Value) : List Nat := values.flatMap traceValue

def traceProperty : PropertyKey × Property → List Nat
  | (key,property) =>
    (match key with
      | .named _ => []
      | .symbol index | .private index => [index.toNat]) ++
    match property with
      | .data value .. => traceValue value
      | .accessor getter setter .. => traceOption getter ++ traceOption setter

def tracePropertyMap (properties : PropertyMap) : List Nat := properties.entries.flatMap traceProperty

def traceHeader (header : Header) : List Nat := tracePropertyMap header.properties ++ traceOption header.prototype

def traceActivation (activation : SuspendedActivation) : List Nat :=
  traceValues activation.registers ++ traceValue activation.thisValue ++ traceValue activation.newTarget ++
  traceValues activation.args ++ traceOption activation.argumentsObject ++ traceOption activation.context

def traceGeneratorStart (start : GeneratorStart) : List Nat :=
  traceValues start.captures ++ traceValue start.thisValue ++ traceValue start.newTarget ++ traceValues start.args ++
  traceOption start.context

def traceGeneratorState : GeneratorState → List Nat
  | .suspendedStart start => traceGeneratorStart start
  | .suspended activation => traceActivation activation
  | .executing | .completed => []

def traceAsyncGeneratorState : AsyncGeneratorState → List Nat
  | .suspendedStart start => traceGeneratorStart start
  | .suspendedYield activation | .awaitingOperand activation | .awaitingYield activation
  | .awaitingResumption activation => traceActivation activation
  | .executing | .awaitingReturn | .completed => []

def traceGeneratorResume : GeneratorResume → List Nat
  | .yield value activation => traceValue value ++ traceActivation activation
  | .return value | .throw value _ => traceValue value

def traceGeneratorCompletion : GeneratorCompletion → List Nat
  | .normal value | .return value | .throw value _ => traceValue value

def tracePromiseReaction (reaction : PromiseReaction) : List Nat :=
  (match reaction with
    | .fulfilled handler derived _ | .rejected handler derived _ => traceValue handler ++ traceValue derived
    | .asyncFulfill activation _ | .asyncReject activation _ => traceValue activation
    | .asyncGeneratorFulfill generator _ | .asyncGeneratorReject generator _ => traceValue generator
    | .moduleDepFulfill .. | .moduleDepReject .. => []
    | .asyncFromSyncFulfill derived _ _ => traceValue derived
    | .asyncFromSyncReject derived syncIterator _ => traceValue derived ++ traceValue syncIterator
    | .asyncDisposeStep stack pendingError capability _ _ =>
      traceValue stack ++ traceOption pendingError ++ traceValue capability
    | .dynamicImportFulfill promise _ _ | .dynamicImportReject promise _ => traceValue promise) ++
  traceOption reaction.context

def tracePromiseState : PromiseState → List Nat
  | .pending fulfillReactions rejectReactions => (fulfillReactions ++ rejectReactions).flatMap tracePromiseReaction
  | .fulfilled value => traceValue value
  | .rejected reason _ => traceValue reason

def traceMicrotask : MicrotaskJob → List Nat
  | .reaction reaction value _ => tracePromiseReaction reaction ++ traceValue value
  | .thenable promise thenable then_ context =>
    traceValue promise ++ traceValue thenable ++ traceValue then_ ++ traceOption context
  | .callback callback context => traceValue callback ++ traceOption context
  | .finalizationCleanup registry context => traceValue registry ++ traceOption context

def traceExecution (execution : Execution) : List Nat :=
  traceValue execution.value ++ traceValue execution.link ++ traceValues execution.entryRegisters

def traceRuntimeError (error : RuntimeError) : List Nat :=
  match error.kind with
  | .uncaughtThrow value .. | .invalidValue value => traceValue value
  | _ => []

def traceStrongEdges : HeapEntry → List Nat
  | .finalizationRegistry _ cleanupCallback cells pendingHoldings _ =>
    traceValue cleanupCallback ++
    cells.flatMap (fun cell => traceValue cell.heldValue ++ traceOption cell.unregisterToken) ++
    traceValues pendingHoldings
  | _ => []

def traceCallable : NativeCallable → List Nat
  | .builtin _ => []
  | .bound bound => traceValue bound.target ++ traceValue bound.thisValue ++ traceValues bound.arguments

def traceProxy (record : ProxyRecord) : List Nat :=
  match record.state with
  | .live target handler => traceValue target ++ traceValue handler
  | .revoked => []

def isWeakKind : CollectionKind → Bool
  | .weakMap | .weakSet => true
  | .map | .set => false

def traceEntry : HeapEntry → List Nat
  | .vacant | .string _ | .bigInt _ | .moduleNamespace _ | .externalModuleNamespace _ | .symbol _ | .privateName _ => []
  | .proxy record => traceProxy record
  | .proxyRevoker record properties _ => traceOption record.proxy ++ tracePropertyMap properties
  | .weakRef header target => traceStrongEdges (.weakRef header target)
  | .finalizationRegistry header cleanupCallback cells pendingHoldings cleanupScheduled =>
    traceStrongEdges (.finalizationRegistry header cleanupCallback cells pendingHoldings cleanupScheduled)
  | .object header boxedPrimitive => traceHeader header ++ traceOption boxedPrimitive
  | .array header elements _ => traceValues elements ++ traceHeader header
  | .function header _ _ captures context => traceValues captures ++ traceOption context ++ traceHeader header
  | .script header entry => traceValue entry ++ traceHeader header
  | .hashState _ _ _ update digest => traceValue update ++ traceValue digest
  | .regExp header .. | .date header .. | .timeout header .. | .sharedArrayBuffer header .. => traceHeader header
  | .typedArray header fields => traceValue fields.buffer ++ traceHeader header
  | .dataView header buffer .. => traceValue buffer ++ traceHeader header
  | .arrayBuffer header data => traceValue data.detachKey ++ traceHeader header
  | .collection header kind entries .. =>
    traceHeader header ++
    if isWeakKind kind then []
    else (entries.filter (·.live)).flatMap fun entry => traceValue entry.key ++ traceValue entry.value
  | .builtinIterator header source .. => traceValue source ++ traceHeader header
  | .iterator (.keys forIn) => traceOption forIn.current
  | .iterator (.protocol iterator next) => traceValue iterator ++ traceValue next
  | .asyncFromSync header iterator next => traceValue iterator ++ traceValue next ++ traceHeader header
  | .generator header state => traceGeneratorState state ++ traceHeader header
  | .asyncGenerator header state queue =>
    traceAsyncGeneratorState state ++
    queue.flatMap (fun request => traceGeneratorCompletion request.completion ++ traceValue request.capability) ++
    traceHeader header
  | .disposableStack header state _ =>
    state.resources.flatMap (fun resource => traceValue resource.value ++ traceValue resource.method) ++
    traceHeader header
  | .processEnv prototype _ => traceOption prototype
  | .promise header state => tracePromiseState state ++ traceHeader header
  | .promiseResolver promise _ => traceValue promise
  | .promiseAll resolve reject values .. => traceValue resolve ++ traceValue reject ++ traceValues values
  | .promiseAllElement aggregate .. => traceValue aggregate
  | .asyncActivation activation promise _ completion =>
    activation.elim [] traceActivation ++ traceValue promise ++
    completion.elim [] fun
      | .ok execution => traceExecution execution
      | .error error => traceRuntimeError error
  | .nativeFunction header callable => traceCallable callable ++ traceHeader header

def traceFrame (frame : Frame) : List Nat :=
  traceValues frame.registers ++ traceValue frame.thisValue ++ traceValue frame.newTarget ++ traceValues frame.args ++
  traceOption frame.context ++ traceOption frame.outerContext ++ traceOption frame.argumentsObject ++
  traceOption (frame.returnTo.bind ReturnTo.constructed)

def traceTimer (timer : TimerRecord) : List Nat :=
  traceValue timer.callback ++ traceValues timer.arguments ++ traceValue timer.handle ++ traceOption timer.context

def traceBuiltins (builtins : BuiltinTable) : List Nat :=
  traceValues [builtins.objectPrototype,builtins.functionPrototype,builtins.arrayPrototype,builtins.stringPrototype,
    builtins.numberPrototype,builtins.booleanPrototype] ++
  traceValues (builtins.errorPrototypes.map Prod.snd) ++ BuiltinSlot.all.flatMap (fun slot => traceOption (builtins.slot slot)) ++
  (builtins.typedarrayConstructors ++ builtins.typedarrayPrototypes).flatMap traceOption ++
  builtins.promiseResolverTargets.elim [] fun targets => traceValue targets.1 ++ traceValue targets.2

def traceIntrinsics (intrinsics : Intrinsics) : List Nat :=
  traceValues (intrinsics.globals.map Prod.snd ++ intrinsics.symbolRegistry.map Prod.snd) ++
  traceValues [intrinsics.objectPrototype,intrinsics.functionPrototype,intrinsics.arrayPrototype,
    intrinsics.stringPrototype,intrinsics.numberPrototype,intrinsics.booleanPrototype] ++
  traceBuiltins intrinsics.builtins

def traceModule (module : ModuleInstance) : List Nat :=
  traceOption module.namespace_ ++ traceOption module.importMeta ++
  match module.state with
  | .unevaluated | .evaluating | .evaluated (.ok ()) => []
  | .evaluatingAsync record promise _ => traceValue record ++ traceValue promise
  | .evaluated (.error error) => traceRuntimeError error

def traceExternal (external : ExternalModuleInstance) : List Nat :=
  traceValue external.namespace_ ++ external.exports.flatMap (fun entry => traceValue entry.2.value) ++
  traceValues (external.internals.map Prod.snd)

def traceRoots (m : Machine) : List Nat :=
  List.range m.intrinsicSlots ++ m.frames.flatMap traceFrame ++ traceValue m.globalObject ++
  traceOption m.contextGlobal ++ traceOption m.lastCompletion ++ traceValue m.currentNewTarget ++
  traceValues m.keptAlive ++ m.pendingGeneratorResume.elim [] traceGeneratorResume ++
  m.pendingAsyncSuspend.elim [] (fun suspend => traceValue suspend.1 ++ traceActivation suspend.2) ++
  m.microtasks.flatMap (fun queued => traceMicrotask queued.job) ++ traceValues m.finalizationCleanupQueue ++
  m.timers.flatMap (fun timer => traceTimer timer.2) ++ traceIntrinsics m.intrinsics ++
  m.registry.modules.flatMap traceModule ++ traceValues m.registry.cells ++
  m.registry.external.flatMap (fun external => traceExternal external.2) ++ m.nativeRoots.flatMap traceValues

def isWeakCollection : HeapEntry → Bool
  | .collection _ kind .. => isWeakKind kind
  | _ => false

def ephemerons : HeapEntry → List (Option Nat × Option Nat)
  | .collection _ .weakMap entries .. =>
    (entries.filter (·.live)).map fun entry => (runtimeIndex entry.key,runtimeIndex entry.value)
  | _ => []

def heapGraph (heap : List HeapEntry) : Tracing.Graph where
  size := heap.length
  occupied i := !(heap.getD i .vacant).isVacant
  targets i := traceEntry (heap.getD i .vacant)
  holder i := isWeakCollection (heap.getD i .vacant)
  pairs i := ephemerons (heap.getD i .vacant)
  held i plain := by
    revert plain
    generalize heap.getD i .vacant = entry
    intro plain
    cases entry with
    | collection header kind =>
      cases kind with
      | weakMap => cases plain
      | map | set | weakSet => rfl
    | _ => rfl

def Machine.Reachable (m : Machine) (index : Nat) : Prop := Tracing.Reach (heapGraph m.heap) (traceRoots m) index

end Bamts.Runtime
