import Bamts.OrderedMap
import Bamts.RuntimeView
import Mathlib.Data.Prod.Lex

/-! Timers: the records of the machine, the ready set and the checkpoint that runs one callback.
The provider is the host's: every operation is given its answers, and none for a host without timers. -/
set_option linter.all false
namespace Bamts.Runtime
open Effect

structure ArmedTimer extends TimerRecord where
  deadline : Nat
  sequence : Nat
  generation : Nat
  intervalDelay : Option Nat

def ArmedTimer.order (timer : ArmedTimer) : Nat ×ₗ Nat := toLex (timer.deadline,timer.sequence)

structure TimerWakeup where
  id : Nat
  deadline : Nat

structure TimerMachine where
  machine : Machine
  maxTimers : Nat
  fuelLimit : Nat
  fuel : Nat
  cancelled : Bool
  nextTimerId : Option Nat
  nextTimerSequence : Option Nat
  nextTimerGeneration : Option Nat
  timers : OrderedMap Nat ArmedTimer
  readyTimers : OrderedMap (Nat ×ₗ Nat) Unit
  timerWatermark : Option Nat
  timerCheckpointActive : Bool

abbrev Timed := EStateM Fault TimerMachine

def TimerMachine.capacityExceeded (s : TimerMachine) : Fault := runtimeFault (.timerCapacityExceeded s.maxTimers)

-- `u64::checked_add(1)`
def checkedNext (n : Nat) : Option Nat := if n+1 < 2^64 then some (n+1) else none

def takeNext (field : TimerMachine → Option Nat) (put : TimerMachine → Option Nat → TimerMachine) : Timed Nat := do
  let s ← read
  match field s with
  | none => fail s.capacityExceeded
  | some n => do
    update fun s => put s (checkedNext n)
    pure n

def takeTimerId : Timed Nat := takeNext (·.nextTimerId) fun s next => { s with nextTimerId := next }
def takeTimerSequence : Timed Nat := takeNext (·.nextTimerSequence) fun s next => { s with nextTimerSequence := next }
def takeTimerGeneration : Timed Nat := takeNext (·.nextTimerGeneration) fun s next => { s with nextTimerGeneration := next }

def providerFailure (message : String) : Fault := runtimeFault (.timerProviderFailure message)

def provided {α : Type} : Option (Except String α) → Timed α
  | none => fail (providerFailure "timer capability is unavailable")
  | some (.error message) => fail (providerFailure message)
  | some (.ok answer) => pure answer

def onMachine {α : Type} (p : Exec α) : Timed α := fun s =>
  match p s.machine with
  | .ok a m => .ok a { s with machine := m }
  | .error fault m => .error fault { s with machine := m }

def scheduleTimer (callback : Value) (delay : Nat) (arguments : List Value) (intervalDelay : Option Nat)
    (schedule : Nat → Nat → Option (Except String Nat)) : Timed Value := do
  let s ← read
  if s.maxTimers ≤ s.timers.length then fail s.capacityExceeded
  else do
    let id ← takeTimerId
    let sequence ← takeTimerSequence
    let generation ← takeTimerGeneration
    let deadline ← provided (schedule id delay)
    let handle ← onMachine
      (allocate (.timeout ⟨.empty,some s.machine.intrinsics.objectPrototype,true⟩ id generation))
    let s ← read
    let timer : ArmedTimer :=
      { callback := callback,arguments := arguments,handle := handle,context := s.machine.contextGlobal,
        deadline := deadline,sequence := sequence,generation := generation,intervalDelay := intervalDelay }
    update fun s => { s with timers := s.timers.insert id timer }
    pure handle

def Machine.timerRequest (m : Machine) (handle : Value) : Option (Nat × Option Nat) :=
  match handle.decode with
  | some (.int32 raw) => if 0 < raw.toInt32.toInt then some (raw.toNat,none) else none
  | some (.number x) => match x.toInt with
    | some z => if 0 < z ∧ z < 2^64 then some (z.toNat,none) else none
    | none => none
  | some (.heapRef _) => match (m.slotOk handle).map m.entry with
    | some (.timeout _ id generation) => some (id,some generation)
    | _ => none
  | _ => none

def TimerMachine.target (s : TimerMachine) (handle : Value) : Option (Nat × ArmedTimer) :=
  match s.machine.timerRequest handle with
  | none => none
  | some (id,generation) => match s.timers.get id with
    | none => none
    | some record => if generation.any (· ≠ record.generation) then none else some (id,record)

def clearTimeout (handle : Value) (cancel : Nat → Option (Except String Bool)) : Timed Unit := do
  let s ← read
  match s.target handle with
  | none => pure ()
  | some (id,record) => do
    update fun s => { s with timers := s.timers.remove id,readyTimers := s.readyTimers.remove record.order }
    match cancel id with
    | some (.error message) => fail (providerFailure message)
    | _ => pure ()

def readied (watermark : Nat) (ready : OrderedMap (Nat ×ₗ Nat) Unit) (timer : ArmedTimer) : OrderedMap (Nat ×ₗ Nat) Unit :=
  if timer.deadline ≤ watermark then ready.insert timer.order () else ready

def promoteTimerWakeup (wakeup : TimerWakeup) (s : TimerMachine) : TimerMachine :=
  if s.timers.contains wakeup.id then
    let watermark := s.timerWatermark.elim wakeup.deadline (max · wakeup.deadline)
    { s with timerWatermark := some watermark,readyTimers := s.timers.values.foldl (readied watermark) s.readyTimers }
  else s

-- `max_by_key` returns the last of several maxima.
def latest (wakeups : List TimerWakeup) : Option TimerWakeup :=
  wakeups.foldl (fun best wakeup => match best with
    | some b => if b.deadline ≤ wakeup.deadline then some wakeup else some b
    | none => some wakeup) none

def polled (wakeups : List TimerWakeup) (s : TimerMachine) : TimerMachine :=
  match latest (wakeups.filter fun wakeup => s.timers.contains wakeup.id) with
  | some wakeup => promoteTimerWakeup wakeup s
  | none => s

def pollTimerExpiries : Option (Except String (List TimerWakeup)) → Timed Unit
  | none => pure ()
  | some (.error message) => fail (providerFailure message)
  | some (.ok wakeups) => update (polled wakeups)

def consumeFuel (amount : Nat) : Timed Unit := do
  let s ← read
  if s.cancelled then fail (runtimeFault .cancelled)
  else if s.fuel < amount then do
    update fun s => { s with fuel := 0 }
    fail (runtimeFault (.fuelExhausted s.fuelLimit))
  else update fun s => { s with fuel := s.fuel-amount }

def TimerMachine.rooted (s : TimerMachine) : Machine :=
  { s.machine with timers := s.timers.entries.map fun entry => (entry.1,entry.2.toTimerRecord) }

def collectTimed : Timed Unit := fun s =>
  match collectGarbage s.rooted with
  | .ok a m => .ok a { s with machine := m }
  | .error fault m => .error fault { s with machine := m }

def collectIfPending : Timed Unit := do
  let s ← read
  given s.machine.gc.pending collectTimed

def pickExpiredTimer (poll : Option (Except String (List TimerWakeup))) : Timed (Option (Nat × ArmedTimer)) := do
  pollTimerExpiries poll
  let s ← read
  match s.readyTimers.first with
  | none => pure none
  | some order => match s.timers.entries.find? fun entry => entry.2.order = order with
    | none => fail (runtimeFault (.invalidValue .undefined))
    | some (id,_) => do
      consumeFuel 1
      collectIfPending
      update fun s => { s with readyTimers := s.readyTimers.remove order }
      let s ← read
      match s.timers.get id with
      | some timer => pure (some (id,timer))
      | none => fail (.panicked .unexpected)

def leaveCheckpoint : Timed Unit := update fun s => { s with timerCheckpointActive := false }

-- `run_one_expired_timer` up to the call of the callback, which runs with the checkpoint entered.
def startExpiredTimer (poll : Option (Except String (List TimerWakeup))) : Timed (Option (Nat × ArmedTimer)) := do
  let s ← read
  if s.timerCheckpointActive then fail (runtimeFault .timerCheckpointReentry)
  else do
    update fun s => { s with timerCheckpointActive := true }
    let picked ← tryCatch (pickExpiredTimer poll) fun fault => do
      leaveCheckpoint
      fail fault
    given picked.isNone leaveCheckpoint
    pure picked

inductive CallbackOutcome where
  | returned
  | fatal (kind : RuntimeErrorKind)
  | threw (rejection : Except EvalFailure (Value × ThrowOrigin))

def rearm (id : Nat) (timer : ArmedTimer) (schedule : Nat → Nat → Option (Except String Nat)) (delay : Nat) : Timed Unit := do
  let sequence ← takeTimerSequence
  let generation ← takeTimerGeneration
  let deadline ← provided (schedule id delay)
  update fun s => { s with
    readyTimers := if deadline ≤ s.timerWatermark.getD 0 then s.readyTimers.insert (toLex (deadline,sequence)) () else s.readyTimers }
  let s ← read
  match s.machine.slot timer.handle with
  | .error fault => fail fault
  | .ok none => fail (runtimeFault (.invalidValue timer.handle))
  | .ok (some index) => match s.machine.entry index with
    | .timeout header owner _ => do
      onMachine (setEntry index (.timeout header owner generation))
      let next := { timer with deadline := deadline,sequence := sequence,generation := generation,intervalDelay := some delay }
      update fun s => { s with timers := s.timers.insert id next }
    | _ => fail (runtimeFault (.invalidValue timer.handle))

def finishTimer (id : Nat) (timer : ArmedTimer) (schedule : Nat → Nat → Option (Except String Nat)) : Timed Unit := do
  let s ← read
  update fun s => { s with timers := s.timers.remove id }
  match s.timers.get id,timer.intervalDelay with
  | some _,some delay => rearm id timer schedule delay
  | _,_ => pure ()

def settleExpiredTimer (id : Nat) (timer : ArmedTimer) (outcome : CallbackOutcome)
    (schedule : Nat → Nat → Option (Except String Nat)) : Timed (List (Value × ThrowOrigin)) := do
  match outcome with
  | .returned => do
    finishTimer id timer schedule
    pure []
  | .threw (.ok exception) => do
    finishTimer id timer schedule
    pure [exception]
  | .fatal kind | .threw (.error (.runtime kind)) => do
    update fun s => { s with timers := s.timers.remove id }
    fail (runtimeFault kind)
  | .threw (.error _) => do
    update fun s => { s with timers := s.timers.remove id }
    fail (runtimeFault (.invalidValue timer.callback))

-- The rest of `run_one_expired_timer`, with the uncaught exception of its report.
def finishExpiredTimer (id : Nat) (timer : ArmedTimer) (outcome : CallbackOutcome)
    (schedule : Nat → Nat → Option (Except String Nat)) : Timed (List (Value × ThrowOrigin)) := do
  let uncaught ← tryCatch (settleExpiredTimer id timer outcome schedule) fun fault => do
    leaveCheckpoint
    fail fault
  leaveCheckpoint
  pure uncaught

inductive TimerWait where
  | ready | stale | idle
  deriving DecidableEq

-- `cancelled` is the token as it stands once the provider has answered.
def waitForTimerExpiryState (wait : Option (Except String (Option TimerWakeup))) (cancelled : Bool) : Timed TimerWait := do
  let s ← read
  if s.timerCheckpointActive then fail (runtimeFault .timerCheckpointReentry)
  else if s.readyTimers.first.isSome then pure .ready
  else if s.cancelled then fail (runtimeFault .cancelled)
  else match wait with
    | none => pure .idle
    | some (.error message) => fail (providerFailure message)
    | some (.ok none) => if cancelled then fail (runtimeFault .cancelled) else pure .idle
    | some (.ok (some wakeup)) => do
      update (promoteTimerWakeup wakeup)
      let s ← read
      pure (if s.readyTimers.first.isNone then .stale else .ready)

end Bamts.Runtime
