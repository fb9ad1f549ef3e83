import Bamts.RuntimePromise

/-! What the trail says of promises, reactions and jobs, and what each kind of event does to it. -/
set_option linter.all false
namespace Bamts.Runtime
open Effect

def Machine.promise (m : Machine) (i : Nat) : Option PromiseState :=
  match m.heap[i]? with
  | some (.promise _ state) => some state
  | _ => none

namespace PromiseEvent

@[simp] def attachment (i : Nat) : PromiseEvent → Option (PromiseReaction × PromiseReaction)
  | attached promise fulfill reject => if promise = i then some (fulfill,reject) else none
  | _ => none

@[simp] def settlement (i : Nat) : PromiseEvent → Option Terminal
  | settled promise terminal => if promise = i then some terminal else none
  | _ => none

@[simp] def jobFrom (i : Nat) : PromiseEvent → Option MicrotaskJob
  | queued source job => if source = some i then some job else none
  | _ => none

@[simp] def queuedJob : PromiseEvent → Option MicrotaskJob
  | queued _ job => some job
  | _ => none

@[simp] def poppedJob : PromiseEvent → Option MicrotaskJob
  | popped job => some job
  | _ => none

end PromiseEvent

def attachments (trail : List PromiseEvent) (i : Nat) := trail.filterMap (PromiseEvent.attachment i)
def settlements (trail : List PromiseEvent) (i : Nat) := trail.filterMap (PromiseEvent.settlement i)
def jobsFrom (trail : List PromiseEvent) (i : Nat) := trail.filterMap (PromiseEvent.jobFrom i)
def queuedJobs (trail : List PromiseEvent) := trail.filterMap PromiseEvent.queuedJob
def poppedJobs (trail : List PromiseEvent) := trail.filterMap PromiseEvent.poppedJob

def Matched (trail : List PromiseEvent) (i : Nat) : Prop :=
  settlements trail i = [] ∧ jobsFrom trail i = [] ∨
  ∃ terminal, settlements trail i = [terminal] ∧
    jobsFrom trail i = (attachments trail i).map fun pair => terminal.job (terminal.arm pair.1 pair.2)

structure Trailed (s : PromiseMachine) : Prop where
  queue : queuedJobs s.trail = poppedJobs s.trail ++ s.machine.microtasks.map (·.job)
  unborn : ∀ i, s.machine.heap.length ≤ i → attachments s.trail i = [] ∧ settlements s.trail i = []
  pending : ∀ i fulfills rejects, s.machine.promise i = some (.pending fulfills rejects) → settlements s.trail i = [] ∧
    fulfills = (attachments s.trail i).map Prod.fst ∧ rejects = (attachments s.trail i).map Prod.snd
  terminal : ∀ i terminal, s.machine.promise i = some (Terminal.state terminal) → settlements s.trail i = [terminal]
  matched : ∀ i, Matched s.trail i

-- The rest of the program leaves the queue and the promises alone; what it makes is pending, and the collector vacates.
structure Aside (m t : Machine) : Prop where
  queue : t.microtasks = m.microtasks
  grows : m.heap.length ≤ t.heap.length
  kept : ∀ i state, i < m.heap.length → t.promise i = some state → m.promise i = some state
  fresh : ∀ i state, m.heap.length ≤ i → t.promise i = some state → state = .pending [] []

section
variable {m t u : Machine} {s : PromiseMachine}

theorem promiseAt {i header state} (found : m.heap[i]? = some (.promise header state)) :
    m.promise i = some state := by rw [Machine.promise,found]

theorem promiseEntry {i state} (found : m.promise i = some state) :
    ∃ header, m.heap[i]? = some (.promise header state) := by
  unfold Machine.promise at found
  split at found
  · rename_i header other here
    cases found
    exact ⟨header,here⟩
  · cases found

theorem promiseInside {i state} (found : m.promise i = some state) : i < m.heap.length := by
  obtain ⟨_,here⟩ := promiseEntry found
  exact (List.getElem?_eq_some_iff.mp here).1

theorem OnlyLedger.aside (only : OnlyLedger m t) : Aside m t := by
  have same : ∀ i, t.promise i = m.promise i := fun i => by rw [Machine.promise,Machine.promise,only.heap]
  refine ⟨by rw [only],by rw [only.heap],fun i state _ found => by rw [← same]; exact found,?_⟩
  intro i state past found
  rw [same] at found
  exact absurd (promiseInside found) (by omega)

theorem Trailed.aside (good : Trailed s) (aside : Aside s.machine t) : Trailed { s with machine := t } := by
  have back : ∀ i state, t.promise i = some state → state = .pending [] [] ∧ s.machine.heap.length ≤ i ∨ s.machine.promise i = some state := by
    intro i state found
    by_cases inside : i < s.machine.heap.length
    · exact .inr (aside.kept i state inside found)
    · exact .inl ⟨aside.fresh i state (Nat.le_of_not_lt inside) found,Nat.le_of_not_lt inside⟩
  refine ⟨?_,?_,?_,?_,good.matched⟩
  · rw [aside.queue]
    exact good.queue
  · intro i past
    exact good.unborn i (Nat.le_trans aside.grows past)
  · intro i fulfills rejects found
    rcases back i _ found with ⟨same,past⟩ | old
    · cases same
      obtain ⟨none_,unsettled⟩ := good.unborn i past
      exact ⟨unsettled,by rw [none_]; rfl,by rw [none_]; rfl⟩
    · exact good.pending i fulfills rejects old
  · intro i terminal found
    rcases back i _ found with ⟨same,_⟩ | old
    · cases terminal with
      | _ => cases same
    · exact good.terminal i terminal old

theorem filterMapHead {α β : Type} (f : α → Option β) (x xs) : (x :: xs).filterMap f = (f x).toList ++ xs.filterMap f := by
  cases same : f x with
  | none => simp [same]
  | some y => simp [same]

@[simp] theorem attachmentsAppend (front back i) :
    attachments (front ++ back) i = attachments front i ++ attachments back i := List.filterMap_append

@[simp] theorem attachmentsCons (event trail i) :
    attachments (event :: trail) i = (event.attachment i).toList ++ attachments trail i := filterMapHead _ _ _

@[simp] theorem attachmentsNil (i) : attachments [] i = [] := rfl

@[simp] theorem settlementsAppend (front back i) :
    settlements (front ++ back) i = settlements front i ++ settlements back i := List.filterMap_append

@[simp] theorem settlementsCons (event trail i) :
    settlements (event :: trail) i = (event.settlement i).toList ++ settlements trail i := filterMapHead _ _ _

@[simp] theorem settlementsNil (i) : settlements [] i = [] := rfl

@[simp] theorem jobsFromAppend (front back i) :
    jobsFrom (front ++ back) i = jobsFrom front i ++ jobsFrom back i := List.filterMap_append

@[simp] theorem jobsFromCons (event trail i) :
    jobsFrom (event :: trail) i = (event.jobFrom i).toList ++ jobsFrom trail i := filterMapHead _ _ _

@[simp] theorem jobsFromNil (i) : jobsFrom [] i = [] := rfl

@[simp] theorem queuedJobsAppend (front back) :
    queuedJobs (front ++ back) = queuedJobs front ++ queuedJobs back := List.filterMap_append

@[simp] theorem queuedJobsCons (event trail) :
    queuedJobs (event :: trail) = event.queuedJob.toList ++ queuedJobs trail := filterMapHead _ _ _

@[simp] theorem queuedJobsNil : queuedJobs [] = [] := rfl

@[simp] theorem poppedJobsAppend (front back) :
    poppedJobs (front ++ back) = poppedJobs front ++ poppedJobs back := List.filterMap_append

@[simp] theorem poppedJobsCons (event trail) :
    poppedJobs (event :: trail) = event.poppedJob.toList ++ poppedJobs trail := filterMapHead _ _ _

@[simp] theorem poppedJobsNil : poppedJobs [] = [] := rfl

theorem Trailed.decided (good : Trailed s) {i terminal} (here : s.machine.promise i = some terminal.state) :
    settlements s.trail i = [terminal] ∧
    jobsFrom s.trail i = (attachments s.trail i).map fun pair => terminal.job (terminal.arm pair.1 pair.2) := by
  have settled := good.terminal i terminal here
  refine ⟨settled,?_⟩
  rcases good.matched i with ⟨none_,_⟩ | ⟨other,same,jobs⟩
  · rw [settled] at none_
    cases none_
  · rw [settled] at same
    cases same
    exact jobs

theorem Trailed.late (good : Trailed s) {i} {terminal : Terminal} (here : s.machine.promise i = some terminal.state) (fulfill reject bytes) : Trailed
      { machine := { s.machine with microtasks := s.machine.microtasks ++ [⟨terminal.job (terminal.arm fulfill reject),bytes⟩] }
        trail := s.trail ++ [.attached i fulfill reject] ++ [.queued (some i) (terminal.job (terminal.arm fulfill reject))] } := by
  obtain ⟨settled,jobs⟩ := good.decided here
  have inside := promiseInside here
  refine ⟨?_,?_,?_,?_,?_⟩
  · simp [good.queue]
  · intro j past
    have away : i ≠ j := by
      intro same
      subst same
      exact absurd inside (Nat.not_lt.mpr past)
    simpa [away] using good.unborn j past
  · intro j fulfills rejects found
    have away : i ≠ j := by
      intro same
      subst same
      rw [show s.machine.promise i = some (.pending fulfills rejects) from found] at here
      cases terminal with
      | _ => cases here
    simpa [away] using good.pending j fulfills rejects found
  · intro j other found
    simpa using good.terminal j other found
  · intro j
    by_cases same : i = j
    · subst same
      refine .inr ⟨terminal,?_,?_⟩
      · simpa using settled
      · simp [jobs]
    · simpa [Matched,same] using good.matched j

theorem Trailed.registered (good : Trailed s) {i fulfills rejects fulfill reject}
    (here : s.machine.promise i = some (.pending fulfills rejects)) (queue : t.microtasks = s.machine.microtasks)
    (size : t.heap.length = s.machine.heap.length) (now : t.promise i = some (.pending (fulfills ++ [fulfill]) (rejects ++ [reject])))
    (away : ∀ j, j ≠ i → t.promise j = s.machine.promise j) :
    Trailed { machine := t,trail := s.trail ++ [.attached i fulfill reject] } := by
  have inside := promiseInside here
  obtain ⟨unsettled,fulfillsAre,rejectsAre⟩ := good.pending i fulfills rejects here
  refine ⟨?_,?_,?_,?_,?_⟩
  · simp [queue,good.queue]
  · intro j past
    have past : s.machine.heap.length ≤ j := by rw [← size]; exact past
    have other : i ≠ j := by omega
    simpa [other] using good.unborn j past
  · intro j fulfills' rejects' found
    by_cases same : j = i
    · subst same
      rw [show t.promise j = some (.pending fulfills' rejects') from found] at now
      cases now
      simp [unsettled,fulfillsAre,rejectsAre]
    · have found := (away j same).symm.trans found
      simpa [Ne.symm same] using good.pending j fulfills' rejects' found
  · intro j terminal found
    by_cases same : j = i
    · subst same
      rw [show t.promise j = some terminal.state from found] at now
      cases terminal with
      | _ => cases now
    · simpa using good.terminal j terminal ((away j same).symm.trans found)
  · intro j
    by_cases same : i = j
    · subst same
      rcases good.matched i with ⟨none_,jobs⟩ | ⟨terminal,settled,_⟩
      · refine .inl ⟨?_,?_⟩
        · simpa using none_
        · simpa using jobs
      · rw [unsettled] at settled
        cases settled
    · simpa [Matched,same] using good.matched j

theorem Trailed.pushed (good : Trailed s) (queued) : Trailed
    { machine := { s.machine with microtasks := s.machine.microtasks ++ [queued] },trail := s.trail ++ [.queued none queued.job] } := by
  refine ⟨?_,?_,?_,?_,?_⟩
  · simp [good.queue]
  · intro j past
    simpa using good.unborn j past
  · intro j fulfills rejects found
    simpa using good.pending j fulfills rejects found
  · intro j terminal found
    simpa using good.terminal j terminal found
  · intro j
    simpa [Matched] using good.matched j

theorem Trailed.popped (good : Trailed s) {queued rest} (front : s.machine.microtasks = queued :: rest) : Trailed
      { machine := { s.machine with microtasks := rest },trail := s.trail ++ [.popped queued.job] } := by
  refine ⟨?_,?_,?_,?_,?_⟩
  · have queue := good.queue
    rw [front] at queue
    simpa using queue
  · intro j past
    simpa using good.unborn j past
  · intro j fulfills rejects found
    simpa using good.pending j fulfills rejects found
  · intro j terminal found
    simpa using good.terminal j terminal found
  · intro j
    simpa [Matched] using good.matched j

theorem stateOnce {one two : Terminal} (same : one.state = two.state) : one = two := by
  cases one with
  | fulfilled value => cases two with
    | fulfilled other =>
      cases same
      rfl
    | rejected reason origin => cases same
  | rejected reason origin => cases two with
    | fulfilled other => cases same
    | rejected other from_ =>
      cases same
      rfl

theorem Trailed.settled (good : Trailed s) {i fulfills rejects} (terminal bytes) (here : s.machine.promise i = some (.pending fulfills rejects))
    (queue : t.microtasks = s.machine.microtasks ++ (terminal.arm fulfills rejects).map fun reaction => ⟨terminal.job reaction,bytes⟩)
    (size : t.heap.length = s.machine.heap.length) (now : t.promise i = some terminal.state)
    (away : ∀ j, j ≠ i → t.promise j = s.machine.promise j) : Trailed
      { machine := t
        trail := s.trail ++ [.settled i terminal] ++
          (terminal.arm fulfills rejects).map fun reaction => .queued (some i) (terminal.job reaction) } := by
  have inside := promiseInside here
  obtain ⟨unsettled,fulfillsAre,rejectsAre⟩ := good.pending i fulfills rejects here
  have jobless : jobsFrom s.trail i = [] := by
    rcases good.matched i with ⟨_,jobs⟩ | ⟨_,settled,_⟩
    · exact jobs
    · rw [unsettled] at settled
      cases settled
  have jobs : ∀ reactions : List PromiseReaction, ∀ j,
      attachments (reactions.map fun reaction => .queued (some i) (terminal.job reaction)) j = [] ∧
      settlements (reactions.map fun reaction => .queued (some i) (terminal.job reaction)) j = [] ∧
      poppedJobs (reactions.map fun reaction => .queued (some i) (terminal.job reaction)) = [] ∧
      queuedJobs (reactions.map fun reaction => .queued (some i) (terminal.job reaction)) = reactions.map terminal.job ∧
      jobsFrom (reactions.map fun reaction => .queued (some i) (terminal.job reaction)) j = if i = j then reactions.map terminal.job else [] := by
    intro reactions j
    induction reactions with
    | nil => simp
    | cons reaction rest ih =>
      obtain ⟨first,second,third,fourth,fifth⟩ := ih
      simp only [List.map_cons,attachmentsCons,settlementsCons,poppedJobsCons,queuedJobsCons,jobsFromCons,first,second,third,fourth,fifth]
      by_cases same : i = j
      · simp [same]
      · simp [same]
  have reactions : (terminal.arm fulfills rejects).map terminal.job =
      (attachments s.trail i).map fun pair => terminal.job (terminal.arm pair.1 pair.2) := by
    cases terminal with
    | fulfilled value => simp [Terminal.arm,fulfillsAre]
    | rejected reason origin => simp [Terminal.arm,rejectsAre]
  refine ⟨?_,?_,?_,?_,?_⟩
  · simp [queue,good.queue,jobs _ i]
  · intro j past
    have past : s.machine.heap.length ≤ j := by rw [← size]; exact past
    have other : i ≠ j := by omega
    simpa [jobs _ j,other] using good.unborn j past
  · intro j fulfills' rejects' found
    by_cases same : j = i
    · subst same
      rw [show t.promise j = some (.pending fulfills' rejects') from found] at now
      cases terminal with
      | _ => cases now
    · have found := (away j same).symm.trans found
      simpa [jobs _ j,Ne.symm same] using good.pending j fulfills' rejects' found
  · intro j other found
    by_cases same : j = i
    · subst same
      rw [show t.promise j = some other.state from found] at now
      simp [jobs _ j,unsettled,stateOnce (Option.some.inj now)]
    · simpa [jobs _ j,Ne.symm same] using good.terminal j other ((away j same).symm.trans found)
  · intro j
    by_cases same : i = j
    · subst same
      refine .inr ⟨terminal,?_,?_⟩
      · simp [jobs _ i,unsettled]
      · simp [jobs _ i,jobless,reactions]
    · simpa [Matched,jobs _ j,same] using good.matched j

end

end Bamts.Runtime
