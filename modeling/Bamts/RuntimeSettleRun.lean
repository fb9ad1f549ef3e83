import Bamts.RuntimeSettle
import Bamts.RuntimeSolvent

/-! Every promise settles at most once, and every reaction on it is queued exactly once, in every run. -/
set_option linter.all false
namespace Bamts.Runtime
open Effect

structure Onward (s t : PromiseMachine) : Prop where
  trailed : Trailed t
  grows : s.trail <+: t.trail

theorem Onward.refl {s} (good : Trailed s) : Onward s s := ⟨good,List.prefix_rfl⟩

theorem Onward.trans {s t u} (first : Onward s t) (second : Onward t u) : Onward s u :=
  ⟨second.trailed,first.grows.trans second.grows⟩

theorem Trailed.onward {s t} (good : Trailed s) (aside : Aside s.machine t) : Onward s { s with machine := t } :=
  ⟨good.aside aside,List.prefix_rfl⟩

-- A panic ends the run; every other outcome leaves the trail and the promises in step.
def Keeps {α : Type} (p : Promised α) : Prop :=
  ∀ s, Trailed s → After p s (fun _ t => Onward s t) (fun fault t => fault.isPanic = true ∨ Onward s t)

def AsideAlways {α : Type} (p : Exec α) : Prop := ∀ m, After p m (fun _ t => Aside m t) (fun fault t => fault.isPanic = true ∨ Aside m t)

section
variable {α β : Type} {p q : Promised α}

theorem Keeps.bind {f : α → Promised β} (first : Keeps p) (next : ∀ a, Keeps (f a)) : Keeps (p >>= f) := by
  intro s good
  rw [afterBind]
  refine (first s good).mono (fun a t kept => (next a t kept.trailed).mono (fun _ _ last => kept.trans last) ?_) fun _ _ failed => failed
  exact fun _ _ failed => failed.imp_right fun last => kept.trans last

theorem Keeps.ite {c} [Decidable c] (yes : Keeps p) (no : Keeps q) : Keeps (if c then p else q) := by
  split
  · exact yes
  · exact no

theorem keepsPure (a : α) : Keeps (pure a) := fun _ good => .refl good

theorem keepsFail (fault) : Keeps (fail fault : Promised α) := fun _ good => .inr (.refl good)

theorem keepsRead : Keeps (Effect.read : Promised PromiseMachine) := fun _ good => .refl good

theorem keepsLift (answer : Except Fault α) : Keeps (lift answer) := by
  cases answer with
  | ok a => exact fun _ good => .refl good
  | error fault => exact fun _ good => .inr (.refl good)

theorem Keeps.loop {xs : List α} {f : α → Promised Unit} (each : ∀ x, Keeps (f x)) : Keeps (forM xs f) := by
  induction xs with
  | nil => exact keepsPure ()
  | cons x rest ih =>
    exact (each x).bind fun _ => ih

end

theorem promiseSlotSpec (s promise incompatible) :
    After (promiseSlot promise incompatible) s
      (fun found t => t = s ∧ s.machine.heap[found.1]? = some (.promise found.2.1 found.2.2)) (fun _ t => t = s) := by
  unfold promiseSlot
  simp only [afterBind,afterRead]
  cases s.machine.slot promise with
  | error fault => exact rfl
  | ok answer => cases answer with
    | none => exact rfl
    | some index =>
      simp only [afterLiftOk]
      split
      · rename_i header state here
        refine ⟨rfl,?_⟩
        rw [Machine.entry,List.getD_eq_getElem?_getD] at here
        cases found : s.machine.heap[index]? with
        | none => rw [found] at here; cases here
        | some entry => rw [found] at here; exact congrArg some here
      · exact rfl

section
variable {setting : PromiseSetting} {s : PromiseMachine}

theorem setPromise {m : Machine} {i header before} (after) (here : m.heap[i]? = some (.promise header before)) :
    let t := { m with heap := m.heap.set i (.promise header after) }
    t.heap.length = m.heap.length ∧ t.promise i = some after ∧ ∀ j, j ≠ i → t.promise j = m.promise j := by
  have inside := (List.getElem?_eq_some_iff.mp here).1
  refine ⟨List.length_set,?_,?_⟩
  · rw [Machine.promise,List.getElem?_set_self inside]
  · intro j away
    rw [Machine.promise,Machine.promise,List.getElem?_set_ne (Ne.symm away)]

theorem registerSpec (good : Trailed s) {i fulfills rejects} (here : s.machine.promise i = some (.pending fulfills rejects)) (fulfill reject) :
    After (registerReactions setting i fulfill reject) s (fun _ t => Onward s t) (fun fault t => fault.isPanic = true ∨ Onward s t) := by
  unfold registerReactions
  rw [afterBind,onHeap,afterZoom]
  refine (chargeFrame s.machine i _).mono ?_ fun _ t only => .inr (good.onward only.aside)
  intro _ t only
  obtain ⟨header,found⟩ := promiseEntry here
  have found : t.heap[i]? = some (.promise header (.pending fulfills rejects)) := by rw [only.heap]; exact found
  have entry : t.entry i = .promise header (.pending fulfills rejects) := by
    rw [Machine.entry,List.getD_eq_getElem?_getD,found]
    rfl
  simp only [afterBind,afterRead,entry,onHeap,afterZoom,setEntry,afterUpdate,note]
  obtain ⟨size,now,away⟩ := setPromise (.pending (fulfills ++ [fulfill]) (rejects ++ [reject])) found
  exact ⟨(good.aside only.aside).registered (s := { s with machine := t }) (promiseAt found) rfl size now away,List.prefix_append _ _⟩

theorem attachSpec (good : Trailed s) {i state} (here : s.machine.promise i = some state) (fulfill reject) :
    After (attachReactions setting i state.terminal fulfill reject) s (fun _ t => Onward s t) (fun fault t => fault.isPanic = true ∨ Onward s t) := by
  have late : ∀ terminal, s.machine.promise i = some terminal.state →
      After (attachReactions setting i (some terminal) fulfill reject) s (fun _ t => Onward s t) (fun fault t => fault.isPanic = true ∨ Onward s t) := by
    intro terminal here
    simp only [attachReactions,ensureMicrotaskCapacity,afterBind,afterRead,afterIte,afterFail,afterPure,note,pushMicrotask,afterUpdate]
    exact ⟨fun _ => .inr (.refl good),fun _ => ⟨good.late here fulfill reject 0,(List.prefix_append _ _).trans (List.prefix_append _ _)⟩⟩
  cases state with
  | pending fulfills rejects => exact registerSpec good here fulfill reject
  | fulfilled value => exact late (.fulfilled value) here
  | rejected reason origin => exact late (.rejected reason origin) here

structure PromiseSetting.Apart (setting : PromiseSetting) : Prop where
  materialize : ∀ origin, AsideAlways (setting.materialize origin)
  moduleNamespace : ∀ target, AsideAlways (setting.moduleNamespace target)

theorem keepsSlot (promise incompatible) : Keeps (promiseSlot promise incompatible) := by
  intro s good
  refine (promiseSlotSpec s promise incompatible).mono (fun _ _ same => ?_) fun _ _ same => .inr ?_
  · rw [same.1]
    exact .refl good
  · rw [same]
    exact .refl good

end

def silent {α : Type} (p : Promised α) : Promised Unit := do
  let _ ← p
  pure ()

-- What the program can ask for, one after another and in any order; `outside` is everything that is not about promises.
inductive PromiseOperation where
  | create
  | chain (promise onFulfilled onRejected : Value)
  | fulfill (promise value : Value)
  | reject (promise reason : Value) (origin : ThrowOrigin)
  | rejectFailure (promise : Value) (failure : EvalFailure)
  | resolve (promise value : Value) (lookup : ThenLookup)
  | promiseResolve (value : Value) (lookup : ThenLookup)
  | awaitValue (awaited record : Value) (lookup : ThenLookup)
  | awaitForGenerator (awaited generator : Value) (lookup : ThenLookup)
  | attachModule (parent : Linkage.ModuleId) (promise : Value)
  | attachAsyncFromSync (derived resolved : Value) (done : Bool) (syncIterator : Value)
  | armAsyncDisposal (promise stack : Value) (pendingError : Option Value) (capability : Value)
  | attachDynamicImport (evaluation promise : Value) (target : Linkage.ModuleId) (lookup : ThenLookup)
  | queueCallback (callback : Value)
  | cleanupJobs
  | pop
  | collect
  | outside (machine : Machine)

namespace PromiseOperation

def run (setting : PromiseSetting) : PromiseOperation → Promised Unit
  | create => silent createPromise
  | chain promise onFulfilled onRejected => silent (promiseThen setting promise onFulfilled onRejected)
  | fulfill promise value => fulfillPromise setting promise value
  | reject promise reason origin => rejectPromise setting promise reason origin
  | rejectFailure promise failure => rejectPromiseFailure setting promise failure
  | resolve promise value lookup => resolvePromise setting promise value lookup
  | promiseResolve value lookup => silent (Runtime.promiseResolve setting value lookup)
  | awaitValue awaited record lookup => awaitPromise setting awaited record lookup
  | awaitForGenerator awaited generator lookup => awaitPromiseForGenerator setting awaited generator lookup
  | attachModule parent promise => attachModuleReactions setting parent promise
  | attachAsyncFromSync derived resolved done syncIterator => attachAsyncFromSyncReactions setting derived resolved done syncIterator
  | armAsyncDisposal promise stack pendingError capability => armAsyncDisposalReaction setting promise stack pendingError capability
  | attachDynamicImport evaluation promise target lookup => attachDynamicImportReactions setting evaluation promise target lookup
  | queueCallback callback => enqueueMicrotaskCallback setting callback
  | cleanupJobs => silent (scheduleFinalizationCleanupJobs setting)
  | pop => silent popMicrotask
  | collect => onHeap collectGarbage
  | outside machine => update fun s => { s with machine := machine }

structure Meets (setting : PromiseSetting) (op : PromiseOperation) (s : PromiseMachine) : Prop where
  calm : After (op.run setting) s (fun _ _ => True) (fun fault _ => fault.isPanic = false)
  aside : ∀ machine, op = outside machine → Aside s.machine machine

end PromiseOperation

theorem Keeps.silent {α} {p : Promised α} (kept : Keeps p) : Keeps (silent p) := kept.bind fun _ => keepsPure ()

structure PromiseMachine.Unpromised (s : PromiseMachine) : Prop where
  promises : ∀ i, s.machine.promise i = none
  queue : s.machine.microtasks = []
  trail : s.trail = []

theorem PromiseMachine.Unpromised.trailed {s} (fresh : s.Unpromised) : Trailed s := by
  refine ⟨?_,?_,?_,?_,?_⟩
  · rw [fresh.trail,fresh.queue]
    rfl
  · intro i _
    rw [fresh.trail]
    exact ⟨rfl,rfl⟩
  · intro i fulfills rejects found
    rw [fresh.promises] at found
    cases found
  · intro i terminal found
    rw [fresh.promises] at found
    cases found
  · intro i
    rw [fresh.trail]
    exact .inl ⟨rfl,rfl⟩

theorem Matched.jobs {trail i} (matched : Matched trail i) :
    (settlements trail i).length ≤ 1 ∧ jobsFrom trail i =
      (settlements trail i).flatMap fun terminal => (attachments trail i).map fun pair => terminal.job (terminal.arm pair.1 pair.2) := by
  rcases matched with ⟨unsettled,jobless⟩ | ⟨terminal,settled,jobs⟩
  · rw [unsettled,jobless]
    exact ⟨by simp,rfl⟩
  · rw [settled,jobs]
    exact ⟨by simp,by simp⟩

theorem Onward.decided {s t} (good : Trailed s) (onward : Onward s t) {i} {terminal : Terminal} {state}
    (before : s.machine.promise i = some terminal.state) (after : t.machine.promise i = some state) : state = terminal.state := by
  have kept : settlements s.trail i <+: settlements t.trail i := onward.grows.filterMap _
  rw [good.terminal i terminal before] at kept
  have once := (onward.trailed.matched i).jobs.1
  have same : settlements t.trail i = [terminal] := (kept.eq_of_length_le once).symm
  have claim : ∀ other, t.machine.promise i = some other.state → other = terminal := by
    intro other there
    have settled := onward.trailed.terminal i other there
    rw [same] at settled
    cases settled
    rfl
  cases state with
  | pending fulfills rejects =>
    have unsettled := (onward.trailed.pending i fulfills rejects after).1
    rw [same] at unsettled
    cases unsettled
  | fulfilled value => rw [← claim (.fulfilled value) after]; rfl
  | rejected reason origin => rw [← claim (.rejected reason origin) after]; rfl

def fourJobs : PromiseSetting where
  maxMicrotasks := 4
  reactionBytes := 8
  materialize := fun _ => allocate (.object ⟨.empty,none,true⟩ none)
  moduleNamespace := fun _ => allocate (.object ⟨.empty,none,true⟩ none)

def barePromises : PromiseMachine := ⟨bareMachine,[]⟩

def chained (s : PromiseMachine) : PromiseMachine := left (PromiseOperation.run fourJobs (.chain firstArray .undefined .null)) s
def promised : PromiseMachine := left (PromiseOperation.run fourJobs .create) barePromises
def fulfilled : PromiseMachine := left (PromiseOperation.run fourJobs (.fulfill firstArray .null)) (chained promised)

end Bamts.Runtime
