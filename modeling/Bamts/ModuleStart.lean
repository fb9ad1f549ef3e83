import Bamts.ModuleCount
import Bamts.ProgramLink

/-! When an entry starts: at the end of a walk that waits for nothing, or with the job that counts to zero. -/
set_option linter.all false
namespace Bamts.Evaluation
open Effect Linkage
open Bamts.Runtime (Value ThrowOrigin RuntimeErrorKind)

def Grows (s t : Evaluator) : Prop := ∃ more, t.log = s.log ++ more ∧ ∀ x, .started x ∉ more

theorem Grows.refl (s) : Grows s s := ⟨[],by simp,by simp⟩

theorem Grows.trans {s t u} (first : Grows s t) (second : Grows t u) : Grows s u := by
  obtain ⟨one,same,none_⟩ := first
  obtain ⟨two,again,neither⟩ := second
  exact ⟨one ++ two,by rw [again,same,List.append_assoc],fun x member => (List.mem_append.mp member).elim (none_ x) (neither x)⟩

theorem Grows.same {s t} (same : t.log = s.log) : Grows s t := ⟨[],by simp [same],by simp⟩

def Silent {α : Type} (p : Walk α) : Prop := ∀ s, After p s (fun _ t => Grows s t) (fun _ t => Grows s t)

section
variable {α β : Type} {p q : Walk α}

theorem Silent.bind {f : α → Walk β} (first : Silent p) (next : ∀ a, Silent (f a)) : Silent (p >>= f) := by
  intro s
  rw [afterBind]
  exact (first s).mono (fun a t grown => (next a t).mono (fun _ _ more => grown.trans more) fun _ _ more => grown.trans more) fun _ _ failed => failed

theorem Silent.ite {c} [Decidable c] (yes : Silent p) (no : Silent q) : Silent (if c then p else q) := by
  split
  · exact yes
  · exact no

theorem Silent.given {c p} (yes : Silent p) : Silent (given c p) := yes.ite fun s => .refl s

theorem Silent.caught {handler} (body : Silent p) (rescue : ∀ kind, Silent (handler kind)) :
    Silent (tryCatch p handler) := by
  intro s
  rw [afterTryCatch]
  exact (body s).mono (fun _ _ grown => grown) fun kind t grown =>
    (rescue kind t).mono (fun _ _ more => grown.trans more) fun _ _ more => grown.trans more

theorem silentPure (a : α) : Silent (pure a) := fun s => .refl s

theorem silentFail (kind) : Silent (fail kind : Walk α) := fun s => .refl s

theorem silentRead : Silent (Effect.read : Walk Evaluator) := fun s => .refl s

theorem silentLift (result : Except RuntimeErrorKind α) : Silent (lift result) := by
  cases result with
  | _ => exact fun s => .refl s

theorem silentUpdate {f} (same : ∀ s, (f s).log = s.log) : Silent (update f) := fun s => .same (same s)

theorem silentAt (failing site) : Silent (at_ failing site) := by
  unfold at_
  split
  · exact silentPure ()
  · exact (silentFail _).ite (silentPure ())

end

theorem abortGrows (s m) : Grows s (s.abortModuleEvaluation m) := by
  unfold Evaluator.abortModuleEvaluation
  split
  · exact ⟨[.aborted m],rfl,by simp⟩
  · exact ⟨[.aborted m],rfl,by simp⟩
  · exact .refl s
  · exact .refl s

theorem settleGrows (s m result) : Grows s (s.settleModuleEvaluation m result) := by
  unfold Evaluator.settleModuleEvaluation
  split
  · exact .refl s
  · split
    · exact .same rfl
    · split
      · exact .same rfl
      · exact abortGrows s m

section
variable {setup : Setup}

theorem silentBegin (m) : Silent (beginModuleEvaluation setup m) := by
  refine silentRead.bind fun s => ?_
  cases s.modules m with
  | unevaluated =>
    refine (silentUpdate (by intro _; rfl)).bind fun _ => ?_
    split
    · exact silentPure _
    · exact Silent.bind (fun s => settleGrows s m _) fun _ => silentFail _
  | _ => exact silentPure _

theorem silentPush (frame) : Silent (push frame) := silentUpdate (by intro _; rfl)

theorem silentEvaluate (m) : Silent (evaluateModule setup m) := by
  refine silentRead.bind fun s => ?_
  split
  · exact silentPure _
  · refine (silentBegin m).bind fun evaluation => ?_
    split
    · exact silentPure _
    · exact (silentLift _).bind fun _ => silentPure _
    · exact (silentPush _).bind fun _ => silentPure _

theorem silentCreate (failing m) : Silent (createModuleAsyncPair failing m) := by
  refine silentRead.bind fun s => ?_
  split
  · exact silentPure _
  · exact (silentAt _ _).bind fun _ => (silentUpdate (by intro _; rfl)).bind fun _ => (silentAt _ _).bind fun _ =>
      (silentUpdate (by intro _; rfl)).bind fun _ => silentPure _

theorem silentAttach (failing m q) : Silent (attachModuleReactions setup failing m q) := by
  refine silentRead.bind fun s => ?_
  split
  · exact silentFail _
  · exact (silentAt _ _).bind fun _ => silentUpdate (by intro _; rfl)
  · exact (silentAt _ _).bind fun _ => silentUpdate (by intro _; rfl)

theorem silentSettlePromise (failing q outcome) : Silent (settlePromise setup failing q outcome) := by
  refine silentRead.bind fun s => ?_
  split
  · exact silentFail _
  · exact silentPure _
  · exact (silentAt _ _).bind fun _ => silentUpdate (by intro _; rfl)

theorem silentRecord (record) {f} (each : ∀ a, Silent (f a)) : Silent (onRecord setup record f) := by
  refine silentRead.bind fun s => ?_
  split
  · exact silentFail _
  · exact (each _).bind fun _ => silentUpdate (by intro _; rfl)

theorem silentStore (record completed) : Silent (storeAsyncModuleCompletion setup record completed) :=
  silentRecord record fun _ => (silentFail _).ite (silentPure _)

theorem silentModule (record) : Silent (asyncActivationModule setup record) := by
  refine silentRead.bind fun s => ?_
  split
  · exact silentFail _
  · exact silentPure _

theorem silentSettle (m result) : Silent (update (·.settleModuleEvaluation m result)) := fun s => settleGrows s m result

theorem silentAbort (m) : Silent (update (·.abortModuleEvaluation m)) := fun s => abortGrows s m

theorem silentStep (failing pair outcome) : Silent (settleAsyncStep setup failing pair outcome) := by
  cases outcome with
  | suspended => exact (silentAt _ _).bind fun _ => silentRecord _ fun _ => silentPure _
  | failed fatal => exact silentFail _
  | returned =>
    exact (silentStore _ _).bind fun _ => (silentModule _).bind fun _ => (silentAt _ _).bind fun _ =>
      (silentSettlePromise _ _ _).bind fun _ => silentSettle _ _
  | threw value origin =>
    exact (silentStore _ _).bind fun _ => (silentModule _).bind fun _ => (silentSettle _ _).bind fun _ => silentSettlePromise _ _ _

theorem silentFinishStart (m pair) : Silent (finishModuleStart setup m pair) := by
  refine silentRead.bind fun s => ?_
  split
  · exact silentPure _
  · split
    · exact (silentUpdate (by intro _; rfl)).bind fun _ => silentPure _
    · exact (silentUpdate (by intro _; rfl)).bind fun _ => silentPure _

theorem silentFinishEntry (failing m pair outcome) :
    Silent (finishEntry setup failing m pair outcome) := by
  unfold finishEntry
  split
  · exact ((silentStep _ _ _).bind fun _ => silentFinishStart _ _).caught fun _ => (silentAbort m).given.bind fun _ => silentPure _
  · exact silentPure _

theorem silentReturns (result) : Silent (returns result) := silentUpdate (by intro _; rfl)

theorem silentSettleWalk (m result) : Silent (settleWalk m result) :=
  (silentSettle m result).bind fun _ => silentReturns _

theorem silentFinishTurn (failing m pair outcome caller) :
    Silent (finishTurn setup failing m pair outcome caller) := by
  cases caller with
  | walk =>
    refine (silentFinishEntry failing m pair outcome).bind fun result => ?_
    split
    · exact silentSettleWalk _ _
    · exact silentReturns _
  | counted =>
    refine (silentFinishEntry failing m pair outcome).bind fun result => ?_
    split
    · exact silentStep _ _ _
    · exact silentStep _ _ _
    · exact silentAbort m
    · exact silentPure _
  | resumed => cases pair with
    | none => exact silentPure ()
    | some p => exact (silentStep failing p outcome).caught fun _ => (silentModule _).bind fun _ => silentAbort _

theorem silentReceive (failing m rest n pair result) : Silent (receive setup failing m rest n pair result) := by
  unfold receive
  split
  · refine Silent.bind ?_ fun _ => (silentAttach _ _ _).bind fun _ => silentPush _
    cases pair with
    | some p => exact silentPure p
    | none => exact silentCreate failing m
  · exact silentPush _
  · exact silentFail _

theorem silentRejected (failing m value origin) :
    Silent (onModuleDepRejected setup failing m value origin) := by
  refine silentRead.bind fun s => ?_
  split
  · exact (silentStore _ _).bind fun _ => (silentSettle _ _).bind fun _ => silentSettlePromise _ _ _
  · exact silentPure _

theorem silentResume (failing record) : Silent (resumeAsync failing record) := by
  refine silentRead.bind fun s => ?_
  split
  · exact silentPure _
  · exact (silentPure _).ite ((silentUpdate (by intro _; rfl)).bind fun _ => (silentAt _ _).bind fun _ => silentPush _)

inductive Starts (choice : Choice) (s : Evaluator) (x : ModuleId) : Prop where
  | walked (failing : Failing) (dependency : Option ModuleId) (pair : Option ModulePending) (below : List Frame)
      (chosen : choice = .walk failing) (top : s.stack = .walk x dependency [] 0 pair :: below) (silent : s.returning = none)
  | counted (failing : Failing) (jobs : List ModuleJob) (pair : ModulePending) (chosen : choice = .job failing)
      (empty : s.stack = []) (silent : s.returning = none) (front : s.jobs = ⟨x,.fulfilled⟩ :: jobs)
      (last : s.modules x = .evaluatingAsync pair 1) (entered : ∀ fatal, failing ≠ some (.enter,fatal))

-- The log grows without a start, or it ends with the start of `x`.
def Enters (s t : Evaluator) (x : ModuleId) : Prop := ∃ more, t.log = s.log ++ more ++ [ModuleEvent.started x] ∧ ∀ y, ModuleEvent.started y ∉ more

theorem Grows.enters {s t u x} (first : Grows s t) (second : Enters t u x) : Enters s u x := by
  obtain ⟨one,same,none_⟩ := first
  obtain ⟨two,again,neither⟩ := second
  refine ⟨one ++ two,by rw [again,same,List.append_assoc s.log],?_⟩
  exact fun y member => (List.mem_append.mp member).elim (none_ y) (neither y)

def Logged (choice : Choice) (s t : Evaluator) : Prop := Grows s t ∨ ∃ x, Starts choice s x ∧ Enters s t x

theorem atPasses (failing site s) :
    After (at_ failing site) s (fun _ _ => ∀ fatal, failing ≠ some (site,fatal)) (fun _ _ => True) := by
  unfold at_
  cases failing with
  | none => exact fun _ => nofun
  | some here =>
    dsimp only
    split
    · exact trivial
    · rename_i other
      intro fatal' same
      cases same
      exact other rfl

theorem enterLogs (failing x pair caller s) :
    After (enterEntry failing x pair caller) s (fun _ t => (∀ fatal, failing ≠ some (.enter,fatal)) ∧ Enters s t x) (fun _ t => Grows s t) := by
  rw [enterEntry,afterBind]
  refine ((atSpec failing .enter s).both (atPasses failing .enter s)).mono ?_ fun _ t failed => by rw [failed.1.1]; exact .refl s
  intro _ t done
  obtain ⟨rfl,passes⟩ := done
  exact ⟨passes,[],by simp,by simp⟩

theorem startLogs (failing x pair caller s) :
    After (startReadyEntry setup failing x pair caller) s
      (fun _ t => (∀ fatal, failing ≠ some (.enter,fatal)) ∧ Enters s t x) (fun _ t => Grows s t) := by
  unfold startReadyEntry
  split
  · rw [afterBind]
    refine (silentCreate failing x s).mono (fun p t grown => ?_) fun _ _ grown => grown
    exact (enterLogs failing x (some p) caller t).mono (fun _ _ done => ⟨done.1,grown.enters done.2⟩) fun _ _ more => grown.trans more
  · exact enterLogs failing x _ caller s

theorem Silent.logged {p : Walk Unit} (silent : Silent p) (choice s) :
    After p s (fun _ t => Logged choice s t) (fun _ t => Logged choice s t) := (silent s).mono (fun _ _ grown => .inl grown) fun _ _ grown => .inl grown

theorem walkLogs (failing) {m dependency rest n pair below s} (top : s.stack = .walk m dependency rest n pair :: below) :
    After (walkTurn setup failing m rest n pair) { s with stack := below } (fun _ t => Logged (.walk failing) s t) (fun _ t => Logged (.walk failing) s t) := by
  have kept : ∀ {p : Walk Unit}, Silent p → After p { s with stack := below } (fun _ t => Logged (.walk failing) s t) (fun _ t => Logged (.walk failing) s t) :=
    fun silent => (silent _).mono (fun _ _ grown => .inl grown) fun _ _ grown => .inl grown
  unfold walkTurn
  rw [afterBind,afterRead]
  split
  · exact kept ((silentUpdate (by intro _; rfl)).bind fun _ => (silentReceive _ _ _ _ _ _).caught fun _ => silentSettleWalk _ _)
  · refine kept ((silentPush _).bind fun _ => ((silentEvaluate _).bind fun start => ?_).caught fun _ => silentReturns _)
    split
    · exact silentReturns _
    · exact silentPure _
  · rename_i silent
    rw [afterTryCatch]
    have caught : ∀ kind t, Grows s t → After (settleWalk m (.error kind)) t (fun _ t => Logged (.walk failing) s t) (fun _ t => Logged (.walk failing) s t) :=
      fun kind t grown => (silentSettleWalk m (.error kind) t).mono (fun _ _ more => .inl (grown.trans more)) fun _ _ more => .inl (grown.trans more)
    unfold endOfWalk
    split
    · refine (startLogs failing m none .walk _).mono (fun _ t done => .inr ⟨m,?_,done.2⟩) fun kind t grown => caught kind t grown
      exact .walked failing dependency _ below rfl top silent
    · exact (((silentUpdate (by intro _; rfl)).bind fun _ => silentReturns _) _).mono (fun _ _ grown => .inl grown) fun kind t grown => caught kind t grown
    · exact .inl (.refl _)

theorem jobLogs (failing) {job jobs s} (empty : s.stack = []) (silent : s.returning = none) (front : s.jobs = job :: jobs) :
    After (runJob setup failing job) { s with jobs := jobs } (fun _ t => Logged (.job failing) s t) (fun _ t => Logged (.job failing) s t) := by
  obtain ⟨m,outcome⟩ := job
  cases outcome with
  | rejected value origin => exact (silentRejected failing m value origin _).mono (fun _ _ grown => .inl grown) fun _ _ grown => .inl grown
  | fulfilled =>
    show After (onModuleDepFulfilled setup failing m) _ _ _
    unfold onModuleDepFulfilled takeModuleAsyncPending
    rw [afterBind,afterBind,afterRead]
    cases state : s.modules m with
    | evaluatingAsync p n =>
      dsimp only
      split
      · exact .inl ⟨[.underflowed m],rfl,by simp⟩
      · rename_i positive
        rw [afterBind,afterUpdate]
        split
        · exact .inl (.same rfl)
        · rename_i last
          rw [afterPure,afterTryCatch]
          refine (startLogs failing m (some p) .counted _).mono (fun _ t done => .inr ⟨m,?_,done.2⟩) fun kind t grown => .inl ?_
          · have one : n = 1 := by omega
            subst one
            exact .counted failing jobs p rfl empty silent front state done.1
          · exact Grows.trans grown (abortGrows t m)
    | _ => exact .inl (.same rfl)

theorem turnLogs (choice s) :
    After (turn setup choice) s (fun _ t => Logged choice s t) (fun _ t => Logged choice s t) := by
  have idle : Logged choice s s := .inl (.refl s)
  unfold turn
  rw [afterBind,afterRead]
  split
  · rename_i failing m dependency rest n pair below top
    exact walkLogs failing top
  · exact .inl (.same rfl)
  · exact ((silentPure ()).ite ((silentEvaluate _).bind fun _ => silentPure ())).logged _ s
  · exact ((silentPure ()).ite ((silentEvaluate _).bind fun _ => silentPure ())).logged _ s
  · refine Silent.logged ?_ _ s
    split
    · exact silentPure ()
    · exact silentPure ()
    · exact (silentUpdate (by intro _; rfl)).bind fun _ => silentFinishTurn _ _ _ _ _
  · rename_i failing empty
    split
    · rename_i job jobs silent front
      exact jobLogs failing empty silent front
    · exact idle
  · exact ((silentPure ()).ite (silentResume _ _)).logged _ s
  · exact idle

-- The turn starts the entry of `m`.
def Began (s t : Evaluator) (m : ModuleId) : Prop := ∃ more, t.log = s.log ++ more ∧ .started m ∈ more

theorem Logged.starts {choice s t m} (logged : Logged choice s t) (began : Began s t m) : Starts choice s m := by
  obtain ⟨new,same,member⟩ := began
  rcases logged with ⟨more,grown,none_⟩ | ⟨x,starts,more,grown,none_⟩
  · rw [grown] at same
    rw [← List.append_cancel_left same] at member
    exact absurd member (none_ m)
  · rw [grown,List.append_assoc] at same
    rw [← List.append_cancel_left same] at member
    rcases List.mem_append.mp member with old | last
    · exact absurd old (none_ m)
    · cases List.mem_singleton.mp last
      exact starts

structure Evaluator.Fresh (s : Evaluator) : Prop where
  modules : ∀ m, s.modules m = .unevaluated
  records : s.records = []
  promises : s.promises = []
  jobs : s.jobs = []
  stack : s.stack = []
  returning : s.returning = none
  log : s.log = []

theorem Evaluator.Fresh.counts {s : Evaluator} (fresh : s.Fresh) : s.Counts := by
  have none_ : ∀ m, owes s [] m = 0 := fun m => by simp [owes,Evaluator.outstanding,fresh.promises,fresh.jobs]
  unfold Evaluator.Counts
  rw [fresh.stack]
  refine ⟨List.nodup_nil,by rintro _ ⟨⟩,fun m _ => none_ m,?_,?_,?_,?_,?_⟩
  · intro m p n state
    rw [fresh.modules] at state
    cases state
  · intro r a found
    rw [fresh.records] at found
    cases found
  · intro r a found
    rw [fresh.records] at found
    cases found
  · intro p back
    rw [fresh.returning] at back
    cases back
  · intro m
    rw [fresh.log]
    exact List.not_mem_nil

theorem jobTurn {s job jobs Q E} (empty : s.stack = []) (silent : s.returning = none) (front : s.jobs = job :: jobs) (failing) :
    After (turn setup (.job failing)) s Q E ↔ After (runJob setup failing job) { s with jobs := jobs } Q E := by
  unfold turn
  rw [afterBind,afterRead]
  simp only [empty,silent,front,afterBind,afterUpdate]

theorem countedStarts {s m p} {failing : Failing} {jobs} (empty : s.stack = [])
    (silent : s.returning = none) (front : s.jobs = ⟨m,.fulfilled⟩ :: jobs) (last : s.modules m = .evaluatingAsync p 1)
    (entered : ∀ fatal, failing ≠ some (.enter,fatal)) : Began s (left (turn setup (.job failing)) s) m := by
  have passes : at_ failing .enter = pure () := by
    cases failing with
    | none => rfl
    | some here =>
      obtain ⟨site,fatal⟩ := here
      exact if_neg fun same => entered fatal (by rw [same])
  have started : startReadyEntry setup failing m (some p) .counted = enterEntry failing m (some p) .counted := by
    unfold startReadyEntry
    cases setup.entrySuspends m with
    | _ => rfl
  refine After.left (I := fun t => Began s t m) ((jobTurn empty silent front failing).mpr ?_)
  show After (onModuleDepFulfilled setup failing m) _ _ _
  unfold onModuleDepFulfilled takeModuleAsyncPending
  simp only [afterBind,afterRead,last,Nat.one_ne_zero,if_false,afterUpdate,Nat.sub_self,Nat.lt_irrefl,afterPure,afterTryCatch,started,enterEntry,
    passes]
  exact ⟨[.started m],rfl,List.mem_singleton_self _⟩

/-- As long as no fatal failure ends an evaluation that waits already: the count of a parked module is the number of reactions
that are outstanding for it and never underflows; its entry starts exactly with the job that counts it to zero; and the
first dependency that rejects settles it for good. -/
theorem dependenciesCounted {start s : Evaluator} (fresh : start.Fresh) (run : Runs (turn setup) Choice.Spares start s) :
    (∀ m p n, s.modules m = .evaluatingAsync p n → s.outstanding m = n) ∧
    (∀ m, .underflowed m ∉ s.log) ∧
    (∀ m p n choice, s.modules m = .evaluatingAsync p n → (Began s (left (turn setup choice) s) m ↔
      ∃ failing jobs, choice = .job failing ∧ s.stack = [] ∧ s.returning = none ∧ s.jobs = ⟨m,.fulfilled⟩ :: jobs ∧ n = 1 ∧
        ∀ fatal, failing ≠ some (.enter,fatal))) ∧
    (∀ m p n value origin jobs failing, s.modules m = .evaluatingAsync p n → s.stack = [] → s.returning = none →
      s.jobs = ⟨m,.rejected value origin⟩ :: jobs →
      (left (turn setup (.job failing)) s).modules m = .evaluated (.error (.uncaughtThrow value origin none))) := by
  have good : s.Counts := run.invariant fresh.counts fun choice t counts spares => turnSpec choice counts spares
  refine ⟨?_,good.exact_,?_,?_⟩
  · intro m p n state
    have number := (Counted.waiting good m p n state).1
    simpa [owes] using number
  · intro m p n choice state
    refine ⟨fun began => ?_,fun done => ?_⟩
    · cases (turnLogs choice s).left.starts began with
      | walked failing dependency pair below chosen top silent =>
        have counted : Counted (.walk m dependency [] 0 pair :: below) [] s := top ▸ good
        cases (counted.framed _ List.mem_cons_self).1.symm.trans state
      | counted failing jobs pair chosen empty silent front last entered =>
        rw [state] at last
        cases last
        exact ⟨failing,jobs,chosen,empty,silent,front,rfl,entered⟩
    · obtain ⟨failing,jobs,rfl,empty,silent,front,rfl,entered⟩ := done
      exact countedStarts empty silent front state entered
  · intro m p n value origin jobs failing state empty silent front
    have counted : Counted [] [] s := empty ▸ good
    refine After.left (I := fun t => t.modules m = .evaluated (.error (.uncaughtThrow value origin none)))
      ((jobTurn empty silent front failing).mpr ?_)
    exact (rejectedSpec failing (counted.popped front) empty value origin).mono (fun _ _ done => done.2 p n state) fun _ _ done => done.2 p n state

end

def Choice.sparing (choice : Choice) (s : Evaluator) : Bool :=
  match choice,s.stack,s.returning with
  | .walk failing,.walk _ _ _ n _ :: _,some result => n == 0 || failing.isNone && match result with
    | .error kind => isThrow kind
    | .ok _ => true
  | _,_,_ => true

theorem sparingSpares {choice : Choice} {s} (sparing : choice.sparing s = true) : choice.Spares s := by
  intro failing m dependency rest n pair below result chosen top back
  subst chosen
  simp only [Choice.sparing,top,back,Bool.or_eq_true,beq_iff_eq,Bool.and_eq_true,Option.isNone_iff_eq_none] at sparing
  rcases sparing with none_ | ⟨calm,kept⟩
  · exact ⟨fun _ _ _ _ => none_,fun _ _ _ => none_⟩
  · refine ⟨fun _ _ _ fails => ?_,fun kind same fatal => ?_⟩
    · rw [calm] at fails
      cases fails
    · subst same
      have kept : isThrow kind = true := kept
      rw [fatal] at kept
      cases kept

def follow (setup : Setup) (choices : List Choice) (s : Evaluator) : Evaluator := choices.foldl (fun s choice => left (turn setup choice) s) s

def sparingAll (setup : Setup) : List Choice → Evaluator → Bool
  | [],_ => true
  | choice :: rest,s => choice.sparing s && sparingAll setup rest (left (turn setup choice) s)

theorem followRuns {setup meets} (choices) {start s}
    (before : Runs (turn setup) meets start s) (met : ∀ choice ∈ choices, ∀ t, meets choice t) : Runs (turn setup) meets start (follow setup choices s) := by
  induction choices generalizing s with
  | nil => exact before
  | cons choice rest ih =>
    exact ih (before.step choice (met choice List.mem_cons_self s)) fun c member t => met c (List.mem_cons_of_mem _ member) t

theorem followSpares {setup} (choices) {start s} (before : Runs (turn setup) Choice.Spares start s)
    (spares : sparingAll setup choices s = true) : Runs (turn setup) Choice.Spares start (follow setup choices s) := by
  induction choices generalizing s with
  | nil => exact before
  | cons choice rest ih =>
    obtain ⟨first,others⟩ := Bool.and_eq_true_iff.mp spares
    exact ih (before.step choice (sparingSpares first)) others

def idleEvaluator : Evaluator := ⟨fun _ => .unevaluated,[],[],[],[],none,[]⟩

theorem idleFresh : idleEvaluator.Fresh := ⟨fun _ => rfl,rfl,rfl,rfl,rfl,rfl,rfl⟩

def awaitingCode (names : List (List UInt16)) : Bytecode.Module where
  constants := names.map fun units => .string ⟨units⟩
  functions := [⟨none,0,1,1,⟨false,false,false⟩,[.await ⟨0⟩ ⟨0⟩ ⟨1⟩,.ret ⟨0⟩],[]⟩]
  entry := ⟨0⟩

def forked : Program where
  modules := [
    ⟨⟨0⟩,stubCode [[109],[46,47,110],[46,47,111]],[⟨⟨1⟩,.local ⟨1⟩,.static⟩,⟨⟨2⟩,.local ⟨2⟩,.static⟩],[],[]⟩,
    ⟨⟨0⟩,awaitingCode [[110]],[],[],[]⟩,
    ⟨⟨0⟩,stubCode [[111]],[],[],[]⟩]
  entry := ⟨0⟩

theorem forkedLinked : Linked forked := by
  refine ⟨?_,by decide⟩
  intro m member
  rcases List.mem_cons.mp member with rfl | member
  · exact ⟨_,rfl⟩
  · rcases List.mem_cons.mp member with rfl | member
    · exact ⟨_,rfl⟩
    · rcases List.mem_singleton.mp member with rfl
      exact ⟨_,rfl⟩

def plainSetup (program : Program) : Setup := ⟨program,fun _ => false,fun value _ => value,fun _ => .undefined,fun _ => .undefined⟩

def forkedWalk (outcome : Outcome) : List Choice :=
  [.import_ ⟨0⟩,.walk none,.walk none,.finish .suspended none,.walk none,.walk none,.walk none,.finish outcome none,.walk none,.walk none]

def Evaluator.parkedWith (s : Evaluator) (m : ModuleId) (n : Nat) : Bool :=
  match s.modules m with
  | .evaluatingAsync _ k => k == n
  | _ => false

theorem parkedState {s : Evaluator} {m n} (parked : s.parkedWith m n = true) : ∃ p, s.modules m = .evaluatingAsync p n := by
  unfold Evaluator.parkedWith at parked
  split at parked
  · rename_i p k state
    exact ⟨p,by rw [state,beq_iff_eq.mp parked]⟩
  · cases parked

theorem dependenciesCountedForked :
    (follow (plainSetup forked) (forkedWalk .returned) idleEvaluator).outstanding ⟨0⟩ = 1 := by
  have run := followSpares (forkedWalk .returned) (.start : Runs (turn (plainSetup forked)) Choice.Spares idleEvaluator idleEvaluator) (by decide)
  obtain ⟨p,state⟩ := parkedState (s := follow (plainSetup forked) (forkedWalk .returned) idleEvaluator) (m := ⟨0⟩) (n := 1) (by decide)
  exact (dependenciesCounted idleFresh run).1 ⟨0⟩ p 1 state

def retriedWalk : List Choice := forkedWalk (.failed ⟨.callDepthExceeded 1,rfl⟩) ++
  ([.import_ ⟨0⟩,.walk none,.walk none,.walk none,.walk none,.finish .returned none,.walk none,.walk none,.walk none] : List Choice)

/-- The reaction that the aborted evaluation left on the promise of the second module counts for the retry as well. -/
theorem retriedMiscounts : Linked forked ∧ idleEvaluator.Fresh ∧
    ¬∀ s, Runs (turn (plainSetup forked)) (fun _ _ => True) idleEvaluator s → ∀ m p n, s.modules m = .evaluatingAsync p n → s.outstanding m = n := by
  refine ⟨forkedLinked,idleFresh,fun all => ?_⟩
  have run := followRuns retriedWalk (.start : Runs (turn (plainSetup forked)) (fun _ _ => True) idleEvaluator idleEvaluator) fun _ _ _ => trivial
  obtain ⟨p,state⟩ := parkedState (s := follow (plainSetup forked) retriedWalk idleEvaluator) (m := ⟨0⟩) (n := 1) (by decide)
  have counted := all _ run ⟨0⟩ p 1 state
  have twice : (follow (plainSetup forked) retriedWalk idleEvaluator).outstanding ⟨0⟩ = 2 := by decide
  rw [twice] at counted
  cases counted

end Bamts.Evaluation
