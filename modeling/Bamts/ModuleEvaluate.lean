import Bamts.Effect
import Bamts.RuntimeHeap
import Mathlib.Logic.Function.Basic

/-! Module evaluation: the walk over static dependencies, the entries it starts, the modules that park on a promise and the
jobs that count their dependencies down. The recursion of `evaluate_module` is a stack of frames, because the code of an
entry can start a walk of its own. The log is a ghost: nothing reads it. -/
set_option linter.all false
namespace Bamts.Evaluation
open Effect Bytecode Linkage
open Bamts.Runtime (Value ThrowOrigin RuntimeErrorKind)

def isThrow : RuntimeErrorKind → Bool
  | .uncaughtThrow .. => true
  | _ => false

-- A limit, a cancellation or another failure of the machine: everything but a throw of the program.
structure Fatal where
  kind : RuntimeErrorKind
  fatal : isThrow kind = false

-- The linked program, the external modules that are installed, what `promise_rejection_value` makes of a thrown value,
-- and the values of the activation records and promises.
structure Setup where
  program : Program
  external : EcmaString → Bool
  rejection : Value → ThrowOrigin → Value
  record : Nat → Value
  promise : Nat → Value

structure ModulePending where
  record : Nat
  promise : Nat
  deriving DecidableEq

inductive ModuleState where
  | unevaluated
  | evaluating
  | evaluatingAsync (pair : ModulePending) (pendingDeps : Nat)
  | evaluated (result : Except RuntimeErrorKind Unit)

inductive ModuleStart where
  | settled
  | pending (pair : ModulePending)
  | cached

inductive Settlement where
  | fulfilled
  | rejected (value : Value) (origin : ThrowOrigin)

inductive ModulePromise where
  | pending (parents : List ModuleId)
  | settled (outcome : Settlement)

structure AsyncActivation where
  promise : Nat
  module : ModuleId
  suspended : Bool
  completion : Option (Except RuntimeErrorKind Unit)

structure ModuleJob where
  parent : ModuleId
  outcome : Settlement

inductive Caller where
  | walk | counted | resumed
  deriving DecidableEq

-- The locals of `evaluate_module` between two turns of its loop, or the code of an entry.
inductive Frame where
  | walk (module : ModuleId) (dependency : Option ModuleId) (rest : List ModuleId) (pendingDeps : Nat) (pair : Option ModulePending)
  | entry (module : ModuleId) (pair : Option ModulePending) (caller : Caller)

inductive ModuleEvent where
  | started (module : ModuleId)
  | aborted (module : ModuleId)
  | underflowed (module : ModuleId)
  deriving DecidableEq

structure Evaluator where
  modules : ModuleId → ModuleState
  records : List AsyncActivation
  promises : List ModulePromise
  jobs : List ModuleJob
  stack : List Frame
  returning : Option (Except RuntimeErrorKind ModuleStart)
  log : List ModuleEvent

abbrev Walk := EStateM RuntimeErrorKind Evaluator

inductive Site where
  | promise | activation | attach | enter | await | exports | settle
  deriving DecidableEq

abbrev Failing := Option (Site × Fatal)

def at_ (failing : Failing) (site : Site) : Walk Unit :=
  match failing with
  | none => pure ()
  | some (here,fatal) => if here = site then fail fatal.kind else pure ()

inductive Outcome where
  | returned
  | threw (value : Value) (origin : ThrowOrigin)
  | suspended
  | failed (fatal : Fatal)

def Outcome.result : Outcome → Except RuntimeErrorKind Unit
  | returned | suspended => .ok ()
  | threw value origin => .error (.uncaughtThrow value origin none)
  | failed fatal => .error fatal.kind

namespace Evaluator

def write (s : Evaluator) (module : ModuleId) (state : ModuleState) : Evaluator :=
  { s with modules := Function.update s.modules module state }

def abortModuleEvaluation (s : Evaluator) (module : ModuleId) : Evaluator :=
  match s.modules module with
  | .evaluating | .evaluatingAsync .. => { s.write module .unevaluated with log := s.log ++ [.aborted module] }
  | .unevaluated | .evaluated _ => s

def settleModuleEvaluation (s : Evaluator) (module : ModuleId) (result : Except RuntimeErrorKind Unit) : Evaluator :=
  match s.modules module with
  | .evaluated _ => s
  | _ => match result with
    | .ok () => s.write module (.evaluated (.ok ()))
    | .error kind => if isThrow kind then s.write module (.evaluated (.error kind)) else s.abortModuleEvaluation module

end Evaluator

section
variable (setup : Setup)

def Setup.available (m : ProgramModule) (edge : Edge) : Bool :=
  match string m.code edge.specifier with
  | none => false
  | some specifier => setup.external specifier

def dependenciesFrom (module : ModuleId) (m : ProgramModule) : Nat → List Edge → Except RuntimeErrorKind (List ModuleId)
  | _,[] => .ok []
  | index,edge :: rest =>
    if edge.kind.hasStatic = false then dependenciesFrom module m (index+1) rest
    else match edge.target with
      | .local dependency => (dependenciesFrom module m (index+1) rest).map (dependency :: ·)
      | .external =>
        if setup.available m edge then dependenciesFrom module m (index+1) rest
        else .error (.externalModuleUnavailable module ⟨UInt32.ofNat index⟩)

def Setup.dependencies (module : ModuleId) : Except RuntimeErrorKind (List ModuleId) :=
  match setup.program.module module with
  | none => .ok []
  | some m => dependenciesFrom setup module m 0 m.edges

def Setup.entrySuspends (module : ModuleId) : Bool :=
  match setup.program.module module with
  | none => false
  | some m => match m.code.functions[m.code.entry.get.toNat]? with
    | none => false
    | some entry => entry.code.any fun instruction => match instruction with
      | .await .. => true
      | _ => false

inductive ModuleEvaluation where
  | cycle
  | evaluated (result : Except RuntimeErrorKind Unit)
  | ready (dependencies : List ModuleId)

def beginModuleEvaluation (module : ModuleId) : Walk ModuleEvaluation := do
  let s ← read
  match s.modules module with
  | .evaluating | .evaluatingAsync .. => pure .cycle
  | .evaluated result => pure (.evaluated result)
  | .unevaluated => do
    update (·.write module .evaluating)
    match setup.dependencies module with
    | .ok dependencies => pure (.ready dependencies)
    | .error kind => do
      update (·.settleModuleEvaluation module (.error kind))
      fail kind

def push (frame : Frame) : Walk Unit := update fun s => { s with stack := frame :: s.stack }

def evaluateModule (module : ModuleId) : Walk (Option ModuleStart) := do
  let s ← read
  match s.modules module with
  | .evaluatingAsync pair _ => pure (some (.pending pair))
  | _ => match ← beginModuleEvaluation setup module with
    | .cycle => pure (some .cached)
    | .evaluated result => do
      lift result
      pure (some .cached)
    | .ready dependencies => do
      push (.walk module none dependencies 0 none)
      pure none

variable (failing : Failing)

def createModuleAsyncPair (module : ModuleId) : Walk ModulePending := do
  let s ← read
  match s.modules module with
  | .evaluatingAsync pair _ => pure pair
  | _ => do
    at_ failing .promise
    update fun t => { t with promises := t.promises ++ [.pending []] }
    at_ failing .activation
    update fun t => { t with records := t.records ++ [⟨s.promises.length,module,false,none⟩] }
    pure ⟨s.records.length,s.promises.length⟩

def attachModuleReactions (parent : ModuleId) (promise : Nat) : Walk Unit := do
  let s ← read
  match s.promises[promise]? with
  | none => fail (.invalidValue (setup.promise promise))
  | some (.settled outcome) => do
    at_ failing .attach
    update fun s => { s with jobs := s.jobs ++ [⟨parent,outcome⟩] }
  | some (.pending parents) => do
    at_ failing .attach
    update fun s => { s with promises := s.promises.set promise (.pending (parents ++ [parent])) }

def settlePromise (promise : Nat) (outcome : Settlement) : Walk Unit := do
  let s ← read
  match s.promises[promise]? with
  | none => fail (.invalidValue (setup.promise promise))
  | some (.settled _) => pure ()
  | some (.pending parents) => do
    at_ failing .settle
    update fun s => { s with promises := s.promises.set promise (.settled outcome),jobs := s.jobs ++ parents.map (⟨·,outcome⟩) }

def onRecord (record : Nat) (f : AsyncActivation → Walk AsyncActivation) : Walk Unit := do
  let s ← read
  match s.records[record]? with
  | none => fail (.invalidValue (setup.record record))
  | some activation => do
    let activation ← f activation
    update fun s => { s with records := s.records.set record activation }

def storeAsyncModuleCompletion (record : Nat) (completed : Except RuntimeErrorKind Unit) : Walk Unit :=
  onRecord setup record fun activation =>
    if activation.completion.isSome then fail (.invalidValue (setup.record record))
    else pure { activation with completion := some completed }

def asyncActivationModule (record : Nat) : Walk ModuleId := do
  let s ← read
  match s.records[record]? with
  | none => fail (.invalidValue (setup.record record))
  | some activation => pure activation.module

def settleAsyncStep (pair : ModulePending) : Outcome → Walk Unit
  | .suspended => do
    at_ failing .await
    onRecord setup pair.record fun activation => pure { activation with suspended := true }
  | .returned => do
    storeAsyncModuleCompletion setup pair.record (.ok ())
    let module ← asyncActivationModule setup pair.record
    at_ failing .exports
    settlePromise setup failing pair.promise .fulfilled
    update (·.settleModuleEvaluation module (.ok ()))
  | .threw value origin => do
    storeAsyncModuleCompletion setup pair.record (.error (.uncaughtThrow value origin none))
    let module ← asyncActivationModule setup pair.record
    update (·.settleModuleEvaluation module (.error (.uncaughtThrow value origin none)))
    settlePromise setup failing pair.promise (.rejected (setup.rejection value origin) origin)
  | .failed fatal => fail fatal.kind

inductive StartResult where
  | settled (result : Except RuntimeErrorKind Unit)
  | pending (pair : ModulePending)

def finishModuleStart (module : ModuleId) (pair : ModulePending) : Walk StartResult := do
  let s ← read
  match s.records[pair.record]? with
  | none => pure (.settled (.error (.invalidValue (setup.record pair.record))))
  | some activation => match activation.completion with
    | some completion => do
      update fun s => { s with records := s.records.set pair.record { activation with completion := none } }
      pure (.settled completion)
    | none => do
      update (·.write module (.evaluatingAsync pair 0))
      pure (.pending pair)

def enterEntry (module : ModuleId) (pair : Option ModulePending) (caller : Caller) : Walk Unit := do
  at_ failing .enter
  update fun s => { s with stack := .entry module pair caller :: s.stack,log := s.log ++ [.started module] }

def startReadyEntry (module : ModuleId) (pair : Option ModulePending) (caller : Caller) : Walk Unit :=
  match setup.entrySuspends module,pair with
  | true,none => do
    let pair ← createModuleAsyncPair failing module
    enterEntry failing module (some pair) caller
  | _,pair => enterEntry failing module pair caller

def failedStart (module : ModuleId) (kind : RuntimeErrorKind) : Walk StartResult := do
  given (!isThrow kind) (update (·.abortModuleEvaluation module))
  pure (.settled (.error kind))

def finishEntry (module : ModuleId) (pair : Option ModulePending) (outcome : Outcome) : Walk StartResult :=
  match setup.entrySuspends module,pair with
  | true,some pair => tryCatch
      (do
        settleAsyncStep setup failing pair outcome
        finishModuleStart setup module pair)
      (failedStart module)
  | _,_ => pure (.settled outcome.result)

def returns (result : Except RuntimeErrorKind ModuleStart) : Walk Unit := update fun s => { s with returning := some result }

def settleWalk (module : ModuleId) (result : Except RuntimeErrorKind Unit) : Walk Unit := do
  update (·.settleModuleEvaluation module result)
  returns (result.map fun _ => .settled)

def abortRecord (record : Nat) : Walk Unit := do
  let module ← asyncActivationModule setup record
  update (·.abortModuleEvaluation module)

def finishTurn (module : ModuleId) (pair : Option ModulePending) (outcome : Outcome) : Caller → Walk Unit
  | .walk => do
    match ← finishEntry setup failing module pair outcome with
    | .settled result => settleWalk module result
    | .pending pair => returns (.ok (.pending pair))
  | .counted => do
    match ← finishEntry setup failing module pair outcome,pair with
    | .settled (.ok ()),some pair => settleAsyncStep setup failing pair .returned
    | .settled (.error (.uncaughtThrow value origin _)),some pair => settleAsyncStep setup failing pair (.threw value origin)
    | .settled (.error _),_ => update (·.abortModuleEvaluation module)
    | _,_ => pure ()
  | .resumed => match pair with
    | none => pure ()
    | some pair => tryCatch (settleAsyncStep setup failing pair outcome) fun _ => abortRecord setup pair.record

def sharedPair (module : ModuleId) : Option ModulePending → Walk ModulePending
  | some pair => pure pair
  | none => createModuleAsyncPair failing module

-- What `evaluate_module` for a dependency came to.
def receive (module : ModuleId) (rest : List ModuleId) (pendingDeps : Nat) (pair : Option ModulePending) :
    Except RuntimeErrorKind ModuleStart → Walk Unit
  | .ok (.pending awaited) => do
    let pair ← sharedPair failing module pair
    attachModuleReactions setup failing module awaited.promise
    push (.walk module none rest (pendingDeps+1) (some pair))
  | .ok _ => push (.walk module none rest pendingDeps pair)
  | .error kind => fail kind

-- A dependency that is pending forces the pair, so the `expect` of the source never fails.
def endOfWalk (module : ModuleId) (pendingDeps : Nat) (pair : Option ModulePending) : Walk Unit :=
  match pendingDeps,pair with
  | 0,_ => startReadyEntry setup failing module none .walk
  | _,some pair => do
    update (·.write module (.evaluatingAsync pair pendingDeps))
    returns (.ok (.pending pair))
  | _,none => pure ()

-- One turn of `evaluate_module`: a dependency is called, its result is received, or the loop is over. A failure
-- becomes the failure of the module.
def walkTurn (module : ModuleId) (rest : List ModuleId) (pendingDeps : Nat) (pair : Option ModulePending) : Walk Unit := do
  let s ← read
  match s.returning,rest with
  | some result,_ => do
    update fun s => { s with returning := none }
    tryCatch (receive setup failing module rest pendingDeps pair result) fun kind => settleWalk module (.error kind)
  | none,next :: rest => do
    push (.walk module (some next) rest pendingDeps pair)
    tryCatch
      (do
        match ← evaluateModule setup next with
        | some start => returns (.ok start)
        | none => pure ())
      fun kind => returns (.error kind)
  | none,[] => tryCatch (endOfWalk setup failing module pendingDeps pair) fun kind => settleWalk module (.error kind)

def takeModuleAsyncPending (parent : ModuleId) : Walk (Option ModulePending) := do
  let s ← read
  match s.modules parent with
  | .evaluatingAsync pair pendingDeps =>
    if pendingDeps = 0 then do
      update fun s => { s with log := s.log ++ [.underflowed parent] }
      pure none
    else do
      update (·.write parent (.evaluatingAsync pair (pendingDeps-1)))
      if 0 < pendingDeps-1 then pure none else pure (some pair)
  | _ => pure none

def onModuleDepFulfilled (parent : ModuleId) : Walk Unit := do
  match ← takeModuleAsyncPending parent with
  | none => pure ()
  | some pair => tryCatch (startReadyEntry setup failing parent (some pair) .counted) fun _ => update (·.abortModuleEvaluation parent)

def onModuleDepRejected (parent : ModuleId) (value : Value) (origin : ThrowOrigin) : Walk Unit := do
  let s ← read
  match s.modules parent with
  | .evaluatingAsync pair _ => do
    storeAsyncModuleCompletion setup pair.record (.error (.uncaughtThrow value origin none))
    update (·.settleModuleEvaluation parent (.error (.uncaughtThrow value origin none)))
    settlePromise setup failing pair.promise (.rejected value origin)
  | _ => pure ()

def runJob (job : ModuleJob) : Walk Unit :=
  match job.outcome with
  | .fulfilled => onModuleDepFulfilled setup failing job.parent
  | .rejected value origin => onModuleDepRejected setup failing job.parent value origin

def resumeAsync (record : Nat) : Walk Unit := do
  let s ← read
  match s.records[record]? with
  | none => pure ()
  | some activation =>
    if activation.suspended = false then pure ()
    else do
      update fun s => { s with records := s.records.set record { activation with suspended := false } }
      at_ failing .enter
      push (.entry activation.module (some ⟨record,activation.promise⟩) .resumed)

end

inductive Choice where
  | import_ (target : ModuleId)
  | walk (failing : Failing)
  | finish (outcome : Outcome) (failing : Failing)
  | job (failing : Failing)
  | resume (record : Nat) (failing : Failing)

def turn (setup : Setup) (choice : Choice) : Walk Unit := do
  let s ← read
  match choice,s.stack with
  | .walk failing,.walk module _ rest pendingDeps pair :: below => do
    update fun s => { s with stack := below }
    walkTurn setup failing module rest pendingDeps pair
  | .walk _,_ => update fun s => { s with returning := none }
  | .import_ target,.entry .. :: _ | .import_ target,[] => if s.returning.isSome then pure () else do
      let _ ← evaluateModule setup target
      pure ()
  | .finish outcome failing,.entry module pair caller :: below =>
    match s.returning,setup.entrySuspends module,outcome with
    | some _,_,_ | _,false,.suspended => pure ()
    | _,_,_ => do
      update fun s => { s with stack := below }
      finishTurn setup failing module pair outcome caller
  | .job failing,[] => match s.returning,s.jobs with
    | none,job :: rest => do
      update fun s => { s with jobs := rest }
      runJob setup failing job
    | _,_ => pure ()
  | .resume record failing,[] => if s.returning.isSome then pure () else resumeAsync failing record
  | _,_ => pure ()

end Bamts.Evaluation
