import Bamts.BytecodeHandlers
import Bamts.RuntimeObject

/-! The frames of the machine with their places in the code: how a call pushes them, what is undone when one is popped, and the
search of a throw for its handler. The top of the stack comes first. -/
set_option linter.all false
namespace Bamts.Runtime.Unwind
open Effect Bytecode Linkage IntervalSweep

structure Frame where
  module : ModuleId
  function : Nat
  pc : Nat
  registers : List Value
  returnTo : Option ReturnTo
  context : Option Value
  outerContext : Option Value

-- `machine` holds the heap, the context and the last completion; what a generator or an async function suspended is
-- still counted among the live registers.
structure Stack where
  machine : Machine
  frames : List Frame
  suspended : List Frame
  callbackBoundaries : List Nat
  liveRegisters : Nat
  nativeDepth : Nat

def engineError : ThrowOrigin → Option (String × String)
  | .typeError operation => some ("TypeError",operation)
  | .rangeError operation => some ("RangeError",operation)
  | .referenceError operation => some ("ReferenceError",operation)
  | .uriError operation => some ("URIError",operation)
  | .bytecode => none

-- The functions of every module, all of them verified, the prototypes of the errors, and what a stack may grow to.
structure Code where
  function : ModuleId → Nat → Option Function
  verified : ∀ m i f, function m i = some f → ∃ index, verifyHandlers index f = .ok ()
  errorPrototype : String → Option Value
  installed : ∀ origin name message, engineError origin = some (name,message) → (errorPrototype name).isSome = true
  maxCallDepth : Nat
  maxTotalRegisters : Nat

-- An error of the run, or a panic.
inductive Raised where
  | error (error : RuntimeError)
  | panicked (site : PanicSite)

abbrev Unwinding := EStateM Raised Stack

def panic {α : Type} : Unwinding α := fail (.panicked .unexpected)

def covers (pc : Nat) (h : ExceptionHandler) : Bool := h.start.get.toNat ≤ pc && pc < h.stop.get.toNat

def deeper (left right : ExceptionHandler) : Ordering :=
  (compare left.start.get right.start.get).then (compare right.stop.get left.stop.get)

def innermostHandler (f : Function) (pc : Nat) : Option ExceptionHandler := maxBy deeper (f.handlers.filter (covers pc))

section
variable (code : Code)

def errorAtInModule (kind : RuntimeErrorKind) (module : ModuleId) (function pc : Nat) : Except Raised RuntimeError :=
  match code.function module function with
  | none => .error (.panicked .unexpected)
  | some f => if pc < f.code.length then .ok ⟨kind,.new (UInt32.ofNat function),.new (UInt32.ofNat pc)⟩ else .error (.panicked .unexpected)

def raise {α : Type} (kind : RuntimeErrorKind) (module : ModuleId) (function pc : Nat) : Unwinding α := do
  let error ← lift (errorAtInModule code kind module function pc)
  fail (.error error)

def entryRegisters (f : Function) (captures arguments : List Value) : List Value :=
  (List.range f.registerCount.toNat).map fun i =>
    if i < f.captureCount.toNat then captures.getD i .undefined
    else if i < f.captureCount.toNat+f.parameterCount.toNat then arguments.getD (i-f.captureCount.toNat) .undefined
    else .uninitialized

structure Request where
  module : ModuleId
  function : Nat
  captures : List Value
  arguments : List Value
  context : Option Value

def pushFrame (request : Request) (returnTo : Option ReturnTo) : Unwinding Unit := do
  let s ← read
  match code.function request.module request.function with
  | none => panic
  | some f =>
    let limitError (kind : RuntimeErrorKind) : Unwinding Unit := match s.frames, returnTo with
      | caller :: _, some returnTo => raise code kind caller.module caller.function returnTo.callPc
      | _, none => raise code kind request.module request.function 0
      | [], some _ => panic
    if code.maxCallDepth ≤ s.frames.length+s.nativeDepth then limitError (.callDepthExceeded code.maxCallDepth)
    else if code.maxTotalRegisters < s.liveRegisters+f.registerCount.toNat then limitError (.registerLimitExceeded code.maxTotalRegisters)
    else update fun s =>
      { s with
        frames := ⟨request.module,request.function,0,entryRegisters f request.captures request.arguments,returnTo,request.context,
          s.machine.contextGlobal⟩ :: s.frames
        machine := { s.machine with contextGlobal := request.context }
        liveRegisters := s.liveRegisters+f.registerCount.toNat }

def popFrame : Unwinding Frame := do
  let s ← read
  match s.frames with
  | [] => panic
  | frame :: rest =>
    update fun s => { s with frames := rest,machine := { s.machine with contextGlobal := frame.outerContext } }
    if s.liveRegisters < frame.registers.length then fail (.panicked .underflow)
    else do
      update fun s => { s with liveRegisters := s.liveRegisters-frame.registers.length }
      pure frame

def suspendFrame : Unwinding Unit := do
  let s ← read
  match s.frames with
  | [] => panic
  | frame :: rest =>
    update fun s =>
      { s with frames := rest,suspended := s.suspended ++ [frame],machine := { s.machine with contextGlobal := frame.outerContext } }

def releaseSuspendedActivationRegisters (count : Nat) : Unwinding Unit := do
  let s ← read
  if s.liveRegisters < count then fail (.panicked .underflow)
  else update fun s => { s with liveRegisters := s.liveRegisters-count }

-- A suspended activation put back on the stack at `pc`, with what it was resumed with in its registers.
def resumeFrame (index pc : Nat) (returnTo : Option ReturnTo) (writes : List (Nat × Value)) : Unwinding Unit := do
  let s ← read
  match s.suspended[index]? with
  | none => panic
  | some frame =>
    update fun s => { s with suspended := s.suspended.eraseIdx index }
    if code.maxCallDepth ≤ s.frames.length+s.nativeDepth then do
      releaseSuspendedActivationRegisters frame.registers.length
      fail (.error ⟨.callDepthExceeded code.maxCallDepth,.new (UInt32.ofNat frame.function),.new (UInt32.ofNat pc)⟩)
    else update fun s =>
      { s with
        frames := { frame with
          pc := pc,registers := writes.foldl (fun registers write => registers.set write.1 write.2) frame.registers,returnTo := returnTo
          outerContext := s.machine.contextGlobal } :: s.frames
        machine := { s.machine with contextGlobal := frame.context } }

def popFrames : Nat → Unwinding Unit
  | 0 => pure ()
  | n+1 => do
    let _ ← popFrame
    popFrames n

def unwindFramesTo (depth : Nat) : Unwinding Unit := do
  let s ← read
  popFrames (s.frames.length-depth)

def completeFrame (returned : Value) : Unwinding (Option Execution) := do
  let frame ← popFrame
  match frame.returnTo with
  | none => pure (some ⟨returned,returned,frame.registers⟩)
  | some returnTo => do
    let s ← read
    let value := match returnTo.constructed with
      | some object => if s.machine.isObject returned then returned else object
      | none => returned
    match returnTo.destination with
    | none => update fun s => { s with machine := { s.machine with lastCompletion := some value } }
    | some destination => match s.frames with
      | [] => panic
      | caller :: rest =>
        if destination < caller.registers.length then
          update fun s => { s with frames := { caller with registers := caller.registers.set destination value } :: rest }
        else panic
    pure none

def catchValueNeedsMaterialization (value : Value) (origin : ThrowOrigin) : Bool := origin ≠ .bytecode && value == .undefined

-- `throw_error`
def throwErrorObject (prototype : Value) (message : String) : Exec Value := do
  let message ← allocate (.string (ascii message))
  allocate (.object ⟨PropertyMap.empty.insert (.named (ascii "message")) (.data message true true true),some prototype,true⟩ none)

def materializeEngineOrigin (origin : ThrowOrigin) : Exec Value :=
  match engineError origin with
  | none => fail (.panicked .unexpected)
  | some (name,message) => match code.errorPrototype name with
    | none => fail (.panicked .unexpected)
    | some prototype => throwErrorObject prototype message

def materializeAt (origin : ThrowOrigin) (site : Frame) (faultingPc : Nat) : Unwinding Value := fun s =>
  match materializeEngineOrigin code origin s.machine with
  | .ok value m => .ok value { s with machine := m }
  | .error (.failure (.runtime kind)) m => raise code kind site.module site.function faultingPc { s with machine := m }
  | .error _ m => panic { s with machine := m }

def catchValue (value : Value) (origin : ThrowOrigin) (site : Frame) (faultingPc : Nat) : Unwinding Value :=
  if catchValueNeedsMaterialization value origin then materializeAt code origin site faultingPc else pure value

def uncaughtThrow (value : Value) (origin : ThrowOrigin) (site : Frame) (faultingPc : Nat) : Unwinding Unit :=
  raise code (.uncaughtThrow value origin none) site.module site.function faultingPc

-- The loop of `throw` at the frames that are left.
def throwFrom (value : Value) (origin : ThrowOrigin) (site : Frame) (faultingPc : Nat) : List Frame → Nat → Unwinding Unit
  | [], _ => do
    let s ← read
    if s.callbackBoundaries.head? = some 0 then uncaughtThrow code value origin site faultingPc
    else fail (.panicked .underflow)
  | frame :: rest, searchPc => do
    let s ← read
    if s.callbackBoundaries.head? = some (rest.length+1) then uncaughtThrow code value origin site faultingPc
    else match code.function frame.module frame.function with
    | none => panic
    | some f => match innermostHandler f searchPc with
      | some handler => do
        let caught ← catchValue code value origin site faultingPc
        if handler.catchRegister.get.toNat < frame.registers.length then
          update fun s =>
            { s with frames :=
              { frame with registers := frame.registers.set handler.catchRegister.get.toNat caught,pc := handler.handler.get.toNat } :: rest }
        else panic
      | none => do
        let _ ← popFrame
        match frame.returnTo with
        | some returnTo => throwFrom value origin site faultingPc rest returnTo.callPc
        | none => uncaughtThrow code value origin site faultingPc

def throw (value : Value) (origin : ThrowOrigin) (faultingPc : Nat) : Unwinding Unit := do
  let s ← read
  match s.frames with
  | [] => panic
  | site :: _ => throwFrom code value origin site faultingPc s.frames faultingPc

end

end Bamts.Runtime.Unwind
