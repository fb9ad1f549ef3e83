import Bamts.RuntimeView

/-! Promises: settlement, the reactions that wait for it and the microtask queue. The trail is a ghost: it is written where
the source registers, settles, queues and pops, and nothing reads it. -/
set_option linter.all false
namespace Bamts.Runtime
open Effect

inductive Terminal where
  | fulfilled (value : Value)
  | rejected (reason : Value) (origin : ThrowOrigin)

namespace Terminal

def state : Terminal → PromiseState
  | fulfilled value => .fulfilled value
  | rejected reason origin => .rejected reason origin

def value : Terminal → Value
  | fulfilled value => value
  | rejected reason _ => reason

def origin : Terminal → ThrowOrigin
  | fulfilled _ => .bytecode
  | rejected _ origin => origin

def arm {α : Type} (terminal : Terminal) (fulfill reject : α) : α :=
  match terminal with
  | fulfilled _ => fulfill
  | rejected .. => reject

def job (terminal : Terminal) (reaction : PromiseReaction) : MicrotaskJob := .reaction reaction terminal.value terminal.origin

end Terminal

def PromiseState.terminal : PromiseState → Option Terminal
  | .pending .. => none
  | .fulfilled value => some (.fulfilled value)
  | .rejected reason origin => some (.rejected reason origin)

inductive PromiseEvent where
  | attached (promise : Nat) (fulfill reject : PromiseReaction)
  | settled (promise : Nat) (terminal : Terminal)
  | queued (source : Option Nat) (job : MicrotaskJob)
  | popped (job : MicrotaskJob)

structure PromiseMachine where
  machine : Machine
  trail : List PromiseEvent

abbrev Promised := EStateM Fault PromiseMachine

-- The ceiling on queued microtasks, the size of a reaction record, what turns an engine error into an object, and
-- what finds the namespace of a module.
structure PromiseSetting where
  maxMicrotasks : Nat
  reactionBytes : Nat
  materialize : ThrowOrigin → Exec Value
  moduleNamespace : Linkage.ModuleId → Exec Value

def onHeap {α : Type} (p : Exec α) : Promised α := zoom PromiseMachine.machine (fun s m => { s with machine := m }) p

def note (event : PromiseEvent) : Promised Unit := update fun s => { s with trail := s.trail ++ [event] }

def pushMicrotask (source : Option Nat) (queued : QueuedMicrotask) : Promised Unit := update fun s =>
  { machine := { s.machine with microtasks := s.machine.microtasks ++ [queued] }
    trail := s.trail ++ [.queued source queued.job] }

def createPromise : Promised Value := do
  let s ← read
  onHeap (allocate (.promise ⟨.empty,s.machine.intrinsics.builtins.slot .promisePrototype,true⟩ (.pending [] [])))

def invalidValue (value : Value) : Fault := runtimeFault (.invalidValue value)

def promiseSlot (promise : Value) (incompatible : Fault) : Promised (Nat × Header × PromiseState) := do
  let s ← read
  match ← lift (s.machine.slot promise) with
  | none => fail incompatible
  | some index => match s.machine.entry index with
    | .promise header state => pure (index,header,state)
    | _ => fail incompatible

section
variable (setting : PromiseSetting)

def microtaskQueueLimitExceeded : Fault := runtimeFault (.microtaskQueueLimitExceeded setting.maxMicrotasks)

def ensureMicrotaskCapacity (additional : Nat) : Promised Unit := do
  let s ← read
  if setting.maxMicrotasks < s.machine.microtasks.length+additional then fail (microtaskQueueLimitExceeded setting)
  else pure ()

def enqueueMicrotask (source : Option Nat) (job : MicrotaskJob) : Promised Unit := do
  ensureMicrotaskCapacity setting 1
  pushMicrotask source ⟨job,0⟩

def enqueueMicrotaskCallback (callback : Value) : Promised Unit := do
  let s ← read
  enqueueMicrotask setting none (.callback callback s.machine.contextGlobal)

def scheduleFinalizationCleanupJobs : Promised Nat := do
  let s ← read
  let registries := s.machine.finalizationCleanupQueue
  ensureMicrotaskCapacity setting registries.length
  update fun s => { s with machine := { s.machine with finalizationCleanupQueue := [] } }
  forM registries fun registry => pushMicrotask none ⟨.finalizationCleanup registry s.machine.contextGlobal,0⟩
  pure registries.length

def registerReactions (index : Nat) (fulfill reject : PromiseReaction) : Promised Unit := do
  onHeap (chargeSlot index (setting.reactionBytes*2))
  let s ← read
  match s.machine.entry index with
  | .promise header (.pending fulfills rejects) => do
    onHeap (setEntry index (.promise header (.pending (fulfills ++ [fulfill]) (rejects ++ [reject]))))
    note (.attached index fulfill reject)
  | _ => fail (.panicked .unexpected)

def attachReactions (index : Nat) (settled : Option Terminal) (fulfill reject : PromiseReaction) : Promised Unit :=
  match settled with
  | some terminal => do
    ensureMicrotaskCapacity setting 1
    note (.attached index fulfill reject)
    pushMicrotask (some index) ⟨terminal.job (terminal.arm fulfill reject),0⟩
  | none => registerReactions setting index fulfill reject

def promiseThen (promise onFulfilled onRejected : Value) : Promised Value := do
  let (index,_,state) ← promiseSlot promise (typeError "Promise.prototype.then")
  let derived ← createPromise
  let s ← read
  attachReactions setting index state.terminal (.fulfilled onFulfilled derived s.machine.contextGlobal)
    (.rejected onRejected derived s.machine.contextGlobal)
  pure derived

def attachDirectly (promise : Value) (incompatible : Fault) (fulfill reject : Option Value → PromiseReaction) : Promised Unit := do
  let (index,_,state) ← promiseSlot promise incompatible
  let s ← read
  attachReactions setting index state.terminal (fulfill s.machine.contextGlobal) (reject s.machine.contextGlobal)

def attachModuleReactions (parent : Linkage.ModuleId) (promise : Value) : Promised Unit :=
  attachDirectly setting promise (invalidValue promise) (.moduleDepFulfill parent) (.moduleDepReject parent)

def attachAsyncFromSyncReactions (derived resolved : Value) (done : Bool) (syncIterator : Value) : Promised Unit :=
  attachDirectly setting resolved (invalidValue resolved) (.asyncFromSyncFulfill derived done) (.asyncFromSyncReject derived syncIterator)

def armAsyncDisposalReaction (promise stack : Value) (pendingError : Option Value) (capability : Value) : Promised Unit :=
  attachDirectly setting promise (typeError "async disposer did not produce a Promise")
    (.asyncDisposeStep stack pendingError capability false) (.asyncDisposeStep stack pendingError capability true)

def settlePromise (promise : Value) (terminal : Terminal) : Promised Unit := do
  let (index,header,state) ← promiseSlot promise (invalidValue promise)
  match state with
  | .pending fulfills rejects => do
    let reactions := terminal.arm fulfills rejects
    ensureMicrotaskCapacity setting reactions.length
    onHeap (setEntry index (.promise header terminal.state))
    note (.settled index terminal)
    onHeap (transferSlotToMachine index (reactions.length*setting.reactionBytes))
    onHeap (refundSlot index ((fulfills.length+rejects.length)*setting.reactionBytes-reactions.length*setting.reactionBytes))
    forM reactions fun reaction => pushMicrotask (some index) ⟨terminal.job reaction,setting.reactionBytes⟩
  | _ => pure ()

def fulfillPromise (promise value : Value) : Promised Unit := settlePromise setting promise (.fulfilled value)

def rejectPromise (promise reason : Value) (origin : ThrowOrigin) : Promised Unit := do
  if origin ≠ .bytecode ∧ reason = .undefined then do
    let (_,_,state) ← promiseSlot promise (invalidValue promise)
    match state with
    | .pending .. => do
      let reason ← onHeap (setting.materialize origin)
      settlePromise setting promise (.rejected reason origin)
    | _ => pure ()
  else settlePromise setting promise (.rejected reason origin)

def promiseRejectionValue : EvalFailure → Promised (Value × ThrowOrigin)
  | .throwValue value => pure (value,.bytecode)
  | .throwValueOrigin value origin => pure (value,origin)
  | .throw .bytecode => pure (.undefined,.bytecode)
  | .throw origin => do
    let value ← onHeap (setting.materialize origin)
    pure (value,origin)
  | .runtime kind => fail (runtimeFault kind)

def rejectPromiseFailure (promise : Value) (failure : EvalFailure) : Promised Unit := do
  let (reason,origin) ← promiseRejectionValue setting failure
  rejectPromise setting promise reason origin

-- What reading `then` came to; the read can run code of the program, which is over by now.
inductive ThenLookup where
  | failed (failure : EvalFailure)
  | found (then_ : Value) (callable : Except Fault Bool)

def resolvePromise (promise value : Value) (lookup : ThenLookup) : Promised Unit := do
  let s ← read
  if promise = value then rejectPromiseFailure setting promise (.throw (.typeError "Promise cannot resolve itself"))
  else if s.machine.isObject value = false then fulfillPromise setting promise value
  else match lookup with
    | .failed (.runtime kind) => fail (runtimeFault kind)
    | .failed failure => rejectPromiseFailure setting promise failure
    | .found then_ callable => do
      if ← lift callable then enqueueMicrotask setting none (.thenable promise value then_ s.machine.contextGlobal)
      else fulfillPromise setting promise value

def promiseResolve (value : Value) (lookup : ThenLookup) : Promised Value := do
  let s ← read
  match (← lift (s.machine.slot value)).map s.machine.entry with
  | some (.promise ..) => pure value
  | _ => do
    let promise ← createPromise
    resolvePromise setting promise value lookup
    pure promise

def awaitPromise (awaited record : Value) (lookup : ThenLookup) : Promised Unit := do
  let promise ← promiseResolve setting awaited lookup
  attachDirectly setting promise (invalidValue promise) (.asyncFulfill record) (.asyncReject record)

def awaitPromiseForGenerator (awaited generator : Value) (lookup : ThenLookup) : Promised Unit := do
  let promise ← promiseResolve setting awaited lookup
  attachDirectly setting promise (invalidValue promise) (.asyncGeneratorFulfill generator) (.asyncGeneratorReject generator)

def attachDynamicImportReactions (evaluation promise : Value) (target : Linkage.ModuleId) (lookup : ThenLookup) : Promised Unit := do
  let (index,_,state) ← promiseSlot evaluation (typeError "dynamic import evaluation promise")
  let s ← read
  match state with
  | .pending .. => do
    let context := s.machine.contextGlobal
    registerReactions setting index (.dynamicImportFulfill promise target context) (.dynamicImportReject promise context)
  | .fulfilled _ => do
    let exports ← onHeap (setting.moduleNamespace target)
    resolvePromise setting promise exports lookup
  | .rejected reason origin => rejectPromise setting promise reason origin

end

-- The head of the drain loop, once the fuel is paid.
def popMicrotask : Promised (Option QueuedMicrotask) := do
  let s ← read
  match s.machine.microtasks with
  | [] => pure none
  | queued :: rest => do
    update fun s => { machine := { s.machine with microtasks := rest },trail := s.trail ++ [.popped queued.job] }
    onHeap (refundMachine queued.retainedBytes)
    pure (some queued)

end Bamts.Runtime
