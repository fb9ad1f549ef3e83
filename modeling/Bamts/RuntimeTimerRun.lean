import Bamts.RuntimeTimer
import Bamts.RuntimeSolvent

/-! What holds of the timers in every interleaving of schedules, clears, polls and callbacks. -/
set_option linter.all false
namespace Bamts.Runtime
open Effect

def Later (before after : Option Nat) : Prop := ∀ n, after = some n → ∃ k, before = some k ∧ k ≤ n

theorem Later.refl (a) : Later a a := fun n found => ⟨n,found,Nat.le_refl n⟩

theorem Later.trans {a b c} (first : Later a b) (second : Later b c) : Later a c := by
  intro n found
  obtain ⟨k,there,below⟩ := second n found
  obtain ⟨l,here,under⟩ := first k there
  exact ⟨l,here,Nat.le_trans under below⟩

theorem laterNext (n) : Later (some n) (checkedNext n) := by
  intro k found
  unfold checkedNext at found
  split at found
  · cases found
    exact ⟨n,rfl,Nat.le_succ n⟩
  · cases found

theorem nextPast {n k} (found : checkedNext n = some k) : n < k := by
  unfold checkedNext at found
  split at found
  · cases found
    exact Nat.lt_succ_self n
  · cases found

def Machine.TimeoutAt (m : Machine) (handle : Value) (id generation : Nat) : Prop :=
  ∃ i header, m.slot handle = .ok (some i) ∧ m.heap[i]? = some (.timeout header id generation)

def TimeoutsKept (m t : Machine) : Prop := ∀ (i : Nat) header id generation,
  m.heap[i]? = some (.timeout header id generation) → ∃ header', t.heap[i]? = some (.timeout header' id generation)

section
variable {m t : Machine} {handle : Value} {id generation : Nat}

theorem Machine.TimeoutAt.kept (there : m.TimeoutAt handle id generation) (kept : TimeoutsKept m t) : t.TimeoutAt handle id generation := by
  obtain ⟨i,header,slot,found⟩ := there
  obtain ⟨header',later⟩ := kept i header id generation found
  exact ⟨i,header',slotStays slot later nofun,later⟩

theorem TimeoutsKept.refl (m) : TimeoutsKept m m := fun _ header _ _ found => ⟨header,found⟩

theorem appendedTimeouts {entry} (heap : t.heap = m.heap ++ [entry]) : TimeoutsKept m t := by
  intro i header id generation found
  refine ⟨header,?_⟩
  rw [heap,List.getElem?_append_left (List.getElem?_eq_some_iff.mp found).1]
  exact found

end

@[simp] theorem afterOnMachine {α} {p : Exec α} {s Q E} :
    After (onMachine p) s Q E ↔
      After p s.machine (fun a m => Q a { s with machine := m }) (fun fault m => E fault { s with machine := m }) := by
  simp only [After,onMachine]
  cases p s.machine with
  | ok a m => rfl
  | error fault m => rfl

-- The records are in order: fresh numbers lie ahead of them, their handles lead to their own timeout
-- objects, and the ready keys are theirs.
structure Armed (s : TimerMachine) : Prop where
  ids : ∀ n, s.nextTimerId = some n → ∀ id timer, s.timers.get id = some timer → id < n
  sequences : ∀ n, s.nextTimerSequence = some n → ∀ id timer, s.timers.get id = some timer → timer.sequence < n
  apart : ∀ id id' timer timer', s.timers.get id = some timer → s.timers.get id' = some timer' →
    timer.sequence = timer'.sequence → id = id'
  ready : ∀ order, s.readyTimers.get order ≠ none → ∃ id timer w, s.timers.get id = some timer ∧ timer.order = order ∧
    s.timerWatermark = some w ∧ timer.deadline ≤ w
  handles : ∀ id timer, s.timers.get id = some timer → s.machine.TimeoutAt timer.handle id timer.generation

structure Running (firing : Option (Nat × ArmedTimer)) (s : TimerMachine) : Prop where
  active : s.timerCheckpointActive = firing.isSome
  record : ∀ id timer, firing = some (id,timer) → ∀ other, s.timers.get id = some other → other = timer
  unready : ∀ id timer, firing = some (id,timer) → s.readyTimers.get timer.order = none
  watermark : firing.isSome = true → s.timerWatermark ≠ none
  old : ∀ id timer, firing = some (id,timer) → ∀ n, s.nextTimerId = some n → id < n

inductive TimerEvent where
  | fired (id : Nat) (timer : ArmedTimer)
  | cleared (id : Nat)

def TimerEvent.Retires (id : Nat) : TimerEvent → Prop
  | fired other timer => other = id ∧ timer.intervalDelay = none
  | cleared other => other = id

structure Logged (log : List TimerEvent) (firing : Option (Nat × ArmedTimer)) (s : TimerMachine) : Prop where
  order : log.Pairwise fun before after => ∀ id timer, before.Retires id → after ≠ .fired id timer
  old : ∀ event ∈ log, ∀ id, event.Retires id → ∀ n, s.nextTimerId = some n → id < n
  retired : ∀ event ∈ log, ∀ id, event.Retires id → ∀ other, s.timers.get id = some other →
    ∃ timer, firing = some (id,timer) ∧ timer.intervalDelay = none

structure Timely (log : List TimerEvent) (firing : Option (Nat × ArmedTimer)) (s : TimerMachine) : Prop where
  armed : Armed s
  running : Running firing s
  logged : Logged log firing s

structure Spent (s t : TimerMachine) : Prop where
  timers : t.timers = s.timers
  ready : t.readyTimers = s.readyTimers
  watermark : t.timerWatermark = s.timerWatermark
  ids : Later s.nextTimerId t.nextTimerId
  sequences : Later s.nextTimerSequence t.nextTimerSequence
  handles : ∀ id timer, s.timers.get id = some timer → s.machine.TimeoutAt timer.handle id timer.generation →
    t.machine.TimeoutAt timer.handle id timer.generation

section
variable {s t u : TimerMachine} {log : List TimerEvent} {firing : Option (Nat × ArmedTimer)}

theorem Spent.refl (s) : Spent s s := ⟨rfl,rfl,rfl,.refl _,.refl _,fun _ _ _ there => there⟩

theorem Spent.trans (first : Spent s t) (second : Spent t u) : Spent s u := by
  refine ⟨second.timers.trans first.timers,second.ready.trans first.ready,second.watermark.trans first.watermark,
    first.ids.trans second.ids,first.sequences.trans second.sequences,fun id timer live there => ?_⟩
  exact second.handles id timer (by rw [first.timers]; exact live) (first.handles id timer live there)

theorem Armed.spent (armed : Armed s) (spent : Spent s t) : Armed t := by
  obtain ⟨timers,ready,watermark,ids,sequences,handles⟩ := spent
  refine ⟨?_,?_,?_,?_,?_⟩
  · intro n next id timer live
    obtain ⟨k,before,below⟩ := ids n next
    rw [timers] at live
    exact Nat.lt_of_lt_of_le (armed.ids k before id timer live) below
  · intro n next id timer live
    obtain ⟨k,before,below⟩ := sequences n next
    rw [timers] at live
    exact Nat.lt_of_lt_of_le (armed.sequences k before id timer live) below
  · rw [timers]
    exact armed.apart
  · rw [timers,ready,watermark]
    exact armed.ready
  · intro id timer live
    rw [timers] at live
    exact handles id timer live (armed.handles id timer live)

theorem Timely.spent (timely : Timely log firing s) (spent : Spent s t) (active : t.timerCheckpointActive = s.timerCheckpointActive) :
    Timely log firing t := by
  obtain ⟨armed,running,logged⟩ := timely
  refine ⟨armed.spent spent,⟨active.trans running.active,?_,?_,?_,?_⟩,⟨logged.order,?_,?_⟩⟩
  · rw [spent.timers]
    exact running.record
  · rw [spent.ready]
    exact running.unready
  · rw [spent.watermark]
    exact running.watermark
  · intro id timer now n next
    obtain ⟨k,before,below⟩ := spent.ids n next
    exact Nat.lt_of_lt_of_le (running.old id timer now k before) below
  · intro event member id retires n next
    obtain ⟨k,before,below⟩ := spent.ids n next
    exact Nat.lt_of_lt_of_le (logged.old event member id retires k before) below
  · rw [spent.timers]
    exact logged.retired

def Idles (s t : TimerMachine) : Prop := Spent s t ∧ t.timerCheckpointActive = s.timerCheckpointActive

theorem Idles.refl (s) : Idles s s := ⟨.refl s,rfl⟩

theorem Idles.trans (first : Idles s t) (second : Idles t u) : Idles s u :=
  ⟨first.1.trans second.1,second.2.trans first.2⟩

theorem Timely.idles (timely : Timely log firing s) (idles : Idles s t) : Timely log firing t := timely.spent idles.1 idles.2

theorem takeIdSpec (s) : After takeTimerId s
    (fun n t => s.nextTimerId = some n ∧ t = { s with nextTimerId := checkedNext n }) (fun _ t => t = s) := by
  simp only [takeTimerId,takeNext,afterBind,afterRead]
  split
  · rfl
  · rename_i n next
    exact ⟨next,rfl⟩

theorem takeSequenceSpec (s) : After takeTimerSequence s
    (fun n t => s.nextTimerSequence = some n ∧ t = { s with nextTimerSequence := checkedNext n }) (fun _ t => t = s) := by
  simp only [takeTimerSequence,takeNext,afterBind,afterRead]
  split
  · rfl
  · rename_i n next
    exact ⟨next,rfl⟩

theorem takeGenerationSpec (s) : After takeTimerGeneration s
    (fun _ t => Idles s t ∧ t.machine = s.machine ∧ t.nextTimerId = s.nextTimerId ∧ t.nextTimerSequence = s.nextTimerSequence)
    (fun _ t => t = s) := by
  simp only [takeTimerGeneration,takeNext,afterBind,afterRead]
  split
  · rfl
  · exact ⟨⟨⟨rfl,rfl,rfl,.refl _,.refl _,fun _ _ _ there => there⟩,rfl⟩,rfl,rfl,rfl⟩

theorem idTaken {n} (next : s.nextTimerId = some n) : Idles s { s with nextTimerId := checkedNext n } :=
  ⟨⟨rfl,rfl,rfl,by rw [next]; exact laterNext n,.refl _,fun _ _ _ there => there⟩,rfl⟩

theorem sequenceTaken {n} (next : s.nextTimerSequence = some n) : Idles s { s with nextTimerSequence := checkedNext n } :=
  ⟨⟨rfl,rfl,rfl,.refl _,by rw [next]; exact laterNext n,fun _ _ _ there => there⟩,rfl⟩

theorem providedSpec {α} (answer : Option (Except String α)) (s) :
    After (provided answer) s (fun _ t => t = s) (fun _ t => t = s) := by
  cases answer with
  | none => rfl
  | some result =>
    cases result with
    | error message => rfl
    | ok a => rfl

theorem machineIdles {m} (kept : TimeoutsKept s.machine m) : Idles s { s with machine := m } :=
  ⟨⟨rfl,rfl,rfl,.refl _,.refl _,fun _ _ _ there => there.kept kept⟩,rfl⟩

def Scheduled (s : TimerMachine) (handle : Value) (t : TimerMachine) : Prop :=
  ∃ id timer u, Idles s u ∧ s.nextTimerId = some id ∧ s.nextTimerSequence = some timer.sequence ∧
    u.nextTimerId = checkedNext id ∧ u.nextTimerSequence = checkedNext timer.sequence ∧ timer.handle = handle ∧
    u.machine.TimeoutAt handle id timer.generation ∧ t = { u with timers := u.timers.insert id timer }

theorem scheduleSpec (s callback delay arguments intervalDelay schedule) :
    After (scheduleTimer callback delay arguments intervalDelay schedule) s (Scheduled s) (fun _ t => Idles s t) := by
  unfold scheduleTimer
  simp only [afterBind (p := Effect.read),afterRead,afterIte,afterFail]
  refine ⟨fun _ => .refl s,fun _ => ?_⟩
  rw [afterBind]
  refine (takeIdSpec s).mono ?_ (fun _ t same => same ▸ .refl s)
  intro id a done
  obtain ⟨nextId,rfl⟩ := done
  have first := idTaken nextId
  rw [afterBind]
  refine (takeSequenceSpec _).mono ?_ (fun _ t same => same ▸ first)
  intro sequence b done
  obtain ⟨nextSequence,rfl⟩ := done
  have second := first.trans (sequenceTaken nextSequence)
  rw [afterBind]
  refine (takeGenerationSpec _).mono ?_ (fun _ t same => same ▸ second)
  intro generation c done
  obtain ⟨third,machine,ids,sequences⟩ := done
  have third := second.trans third
  rw [afterBind]
  refine (providedSpec _ c).mono ?_ (fun _ t same => same ▸ third)
  intro deadline d same
  rw [same]
  simp only [afterBind,afterOnMachine]
  refine (allocateFrame c.machine _).mono ?_ ?_
  · intro handle m done
    obtain ⟨_,heap,value⟩ := done
    have found : m.heap[c.machine.heap.length]? =
        some (.timeout ⟨.empty,some s.machine.intrinsics.objectPrototype,true⟩ id generation) := by rw [heap]; simp
    refine ⟨id,_,{ c with machine := m },third.trans (machineIdles (appendedTimeouts heap)),nextId,nextSequence,?_,?_,rfl,?_,rfl⟩
    · rw [ids]
    · rw [sequences]
    · exact ⟨c.machine.heap.length,_,slotOfIndex value found (by rintro ⟨⟩),found⟩
  · intro fault m failed
    refine third.trans (machineIdles ?_)
    rcases failed.2 with same | heap
    · unfold TimeoutsKept
      rw [same]
      exact TimeoutsKept.refl _
    · exact appendedTimeouts heap

theorem Armed.scheduled (armed : Armed s) {handle} (scheduled : Scheduled s handle t) : Armed t := by
  obtain ⟨id,timer,u,idles,nextId,nextSequence,newId,newSequence,rfl,there,rfl⟩ := scheduled
  have base := armed.spent idles.1
  have timers := idles.1.timers
  have fresh : ∀ other old, u.timers.get other = some old → other < id ∧ old.sequence < timer.sequence := by
    intro other old live
    rw [timers] at live
    exact ⟨armed.ids id nextId other old live,armed.sequences timer.sequence nextSequence other old live⟩
  refine ⟨?_,?_,?_,?_,?_⟩
  · intro n next other old live
    have above := nextPast (newId.symm.trans next)
    rw [OrderedMap.getInsert] at live
    split at live
    · rename_i same
      rw [same]
      exact above
    · exact Nat.lt_trans (fresh other old live).1 above
  · intro n next other old live
    have above := nextPast (newSequence.symm.trans next)
    rw [OrderedMap.getInsert] at live
    split at live
    · cases live
      exact above
    · exact Nat.lt_trans (fresh other old live).2 above
  · intro x y first second liveX liveY same
    rw [OrderedMap.getInsert] at liveX liveY
    split at liveX
    · rename_i hereX
      cases liveX
      split at liveY
      · rename_i hereY
        rw [hereX,hereY]
      · have := (fresh y second liveY).2
        omega
    · split at liveY
      · cases liveY
        have := (fresh x first liveX).2
        omega
      · exact base.apart x y first second liveX liveY same
  · intro order member
    obtain ⟨other,old,w,live,at_,mark,due⟩ := base.ready order member
    refine ⟨other,old,w,?_,at_,mark,due⟩
    rw [OrderedMap.getInsert,if_neg (Nat.ne_of_lt (fresh other old live).1)]
    exact live
  · intro other old live
    rw [OrderedMap.getInsert] at live
    split at live
    · rename_i same
      cases live
      rw [same]
      exact there
    · exact base.handles other old live

theorem Timely.scheduled (timely : Timely log firing s) {handle} (scheduled : Scheduled s handle t) : Timely log firing t := by
  have armed := timely.armed.scheduled scheduled
  obtain ⟨id,timer,u,idles,nextId,nextSequence,newId,newSequence,rfl,there,rfl⟩ := scheduled
  have base := timely.idles idles
  refine ⟨armed,⟨base.running.active,?_,base.running.unready,base.running.watermark,base.running.old⟩,
    ⟨base.logged.order,base.logged.old,?_⟩⟩
  · intro other old now record live
    rw [OrderedMap.getInsert,if_neg (Nat.ne_of_lt (timely.running.old other old now id nextId))] at live
    exact base.running.record other old now record live
  · intro event member other retires record live
    rw [OrderedMap.getInsert,if_neg (Nat.ne_of_lt (timely.logged.old event member other retires id nextId))] at live
    exact base.logged.retired event member other retires record live

def cleared (s : TimerMachine) (handle : Value) : TimerMachine :=
  match s.target handle with
  | none => s
  | some (id,record) => { s with timers := s.timers.remove id,readyTimers := s.readyTimers.remove record.order }

theorem clearTimeoutSpec (s handle cancel) :
    After (clearTimeout handle cancel) s (fun _ t => t = cleared s handle) (fun _ t => t = cleared s handle) := by
  unfold clearTimeout cleared
  simp only [afterBind (p := Effect.read),afterRead]
  cases s.target handle with
  | none => exact rfl
  | some named =>
    simp only [afterBind,afterUpdate]
    split
    · exact rfl
    · exact rfl

theorem targetLive {handle id record} (target : s.target handle = some (id,record)) :
    s.timers.get id = some record := by
  unfold TimerMachine.target at target
  split at target
  · cases target
  · split at target
    · cases target
    · rename_i live
      split at target
      · cases target
      · cases target
        exact live

theorem timeoutRequest {m : Machine} {handle id generation} (there : m.TimeoutAt handle id generation) :
    m.timerRequest handle = some (id,some generation) := by
  obtain ⟨i,header,slot,found⟩ := there
  have entry : (m.slotOk handle).map m.entry = some (.timeout header id generation) := by
    rw [Machine.slotOk,slot]
    simp [Machine.entry,found]
  unfold Machine.timerRequest
  cases decoded : handle.decode with
  | none => simp [Machine.slot,decoded] at slot
  | some kind =>
    cases kind with
    | heapRef => simp only [entry]
    | _ => simp [Machine.slot,decoded] at slot

theorem Armed.named (armed : Armed s) {id timer} (live : s.timers.get id = some timer) :
    s.target timer.handle = some (id,timer) := by
  simp [TimerMachine.target,timeoutRequest (armed.handles id timer live),live]

theorem Armed.shrinks (armed : Armed s) (timers : ∀ id timer, t.timers.get id = some timer → s.timers.get id = some timer)
    (ready : ∀ order, t.readyTimers.get order ≠ none → s.readyTimers.get order ≠ none ∧
      ∀ id timer, s.timers.get id = some timer → timer.order = order → t.timers.get id = some timer)
    (machine : t.machine = s.machine) (watermark : t.timerWatermark = s.timerWatermark) (ids : t.nextTimerId = s.nextTimerId)
    (sequences : t.nextTimerSequence = s.nextTimerSequence) : Armed t := by
  refine ⟨?_,?_,?_,?_,?_⟩
  · intro n next id timer live
    exact armed.ids n (ids.symm.trans next) id timer (timers id timer live)
  · intro n next id timer live
    exact armed.sequences n (sequences.symm.trans next) id timer (timers id timer live)
  · intro x y first second liveX liveY
    exact armed.apart x y first second (timers x first liveX) (timers y second liveY)
  · intro order member
    obtain ⟨before,stay⟩ := ready order member
    obtain ⟨id,timer,w,live,same,mark,due⟩ := armed.ready order before
    exact ⟨id,timer,w,stay id timer live same,same,watermark.trans mark,due⟩
  · intro id timer live
    rw [machine]
    exact armed.handles id timer (timers id timer live)

theorem removedLive {id other timer} (live : (s.timers.remove id).get other = some timer) :
    other ≠ id ∧ s.timers.get other = some timer := by
  rw [OrderedMap.getRemove] at live
  split at live
  · cases live
  · rename_i away
    exact ⟨away,live⟩

theorem Timely.cleared (timely : Timely log firing s) {handle : Value} {id : Nat} {record : ArmedTimer}
    (target : s.target handle = some (id,record)) : Timely (log ++ [TimerEvent.cleared id]) firing (Runtime.cleared s handle) := by
  have live := targetLive target
  have shape : Runtime.cleared s handle =
      { s with timers := s.timers.remove id,readyTimers := s.readyTimers.remove record.order } := by rw [Runtime.cleared,target]
  rw [shape]
  obtain ⟨armed,running,logged⟩ := timely
  have fewer : ∀ order, (s.readyTimers.remove record.order).get order ≠ none →
      order ≠ record.order ∧ s.readyTimers.get order ≠ none := by
    intro order member
    rw [OrderedMap.getRemove] at member
    split at member
    · exact absurd rfl member
    · rename_i away
      exact ⟨away,member⟩
  refine ⟨armed.shrinks (fun _ _ live => (removedLive live).2) ?_ rfl rfl rfl rfl,⟨running.active,?_,?_,running.watermark,running.old⟩,
    ⟨?_,?_,?_⟩⟩
  · intro order member
    obtain ⟨away,before⟩ := fewer order member
    refine ⟨before,fun other timer there same => ?_⟩
    rw [OrderedMap.getRemove,if_neg]
    · exact there
    · intro here
      subst here
      rw [live] at there
      cases there
      exact away same.symm
  · intro other timer now old there
    exact running.record other timer now old (removedLive there).2
  · intro other timer now
    rw [OrderedMap.getRemove]
    split
    · rfl
    · exact running.unready other timer now
  · refine List.pairwise_append.mpr ⟨logged.order,List.pairwise_singleton _ _,?_⟩
    intro event _ last single other timer _
    rw [List.mem_singleton.mp single]
    exact nofun
  · intro event member other retires n next
    rcases List.mem_append.mp member with old | single
    · exact logged.old event old other retires n next
    · rw [List.mem_singleton.mp single] at retires
      cases retires
      exact armed.ids n next id record live
  · intro event member other retires old there
    obtain ⟨away,there⟩ := removedLive there
    rcases List.mem_append.mp member with before | single
    · exact logged.retired event before other retires old there
    · rw [List.mem_singleton.mp single] at retires
      exact absurd retires.symm away

theorem foldReadied {w} {timers : List ArmedTimer} {ready order} (member : (timers.foldl (readied w) ready).get order ≠ none) :
    ready.get order ≠ none ∨ ∃ timer ∈ timers, timer.deadline ≤ w ∧ timer.order = order := by
  induction timers generalizing ready with
  | nil => exact .inl member
  | cons timer rest ih =>
    rcases ih member with here | ⟨other,inside,due,same⟩
    · unfold readied at here
      split at here
      · rename_i due
        rw [OrderedMap.getInsert] at here
        split at here
        · rename_i same
          exact .inr ⟨timer,List.mem_cons_self,due,same.symm⟩
        · exact .inl here
      · exact .inl here
    · exact .inr ⟨other,List.mem_cons_of_mem _ inside,due,same⟩

theorem Armed.promoted (armed : Armed s) (wakeup) : Armed (promoteTimerWakeup wakeup s) := by
  unfold promoteTimerWakeup
  split
  · refine ⟨armed.ids,armed.sequences,armed.apart,?_,armed.handles⟩
    intro order member
    rcases foldReadied member with before | ⟨timer,inside,due,same⟩
    · obtain ⟨id,timer,w,live,same,mark,due⟩ := armed.ready order before
      refine ⟨id,timer,_,live,same,rfl,?_⟩
      rw [mark]
      exact Nat.le_trans due (Nat.le_max_left _ _)
    · obtain ⟨entry,listed,rfl⟩ := List.mem_map.mp inside
      exact ⟨entry.1,entry.2,_,OrderedMap.getMem.mpr listed,same,rfl,due⟩
  · exact armed

theorem Armed.polled (armed : Armed s) (wakeups) : Armed (polled wakeups s) := by
  unfold Runtime.polled
  split
  · exact armed.promoted _
  · exact armed

def OnlyReady (s t : TimerMachine) : Prop := t = { s with timerWatermark := t.timerWatermark,readyTimers := t.readyTimers }

theorem promotedOnly (wakeup s) : OnlyReady s (promoteTimerWakeup wakeup s) := by
  unfold promoteTimerWakeup
  split
  · rfl
  · rfl

theorem polledOnly (wakeups s) : OnlyReady s (polled wakeups s) := by
  unfold polled
  split
  · exact promotedOnly _ s
  · rfl

theorem Timely.rested (timely : Timely log none s) (armed : Armed t) (active : t.timerCheckpointActive = false)
    (ids : Later s.nextTimerId t.nextTimerId) (timers : t.timers = s.timers) : Timely log none t := by
  refine ⟨armed,⟨active,nofun,nofun,nofun,nofun⟩,⟨timely.logged.order,?_,?_⟩⟩
  · intro event member id retires n next
    obtain ⟨k,before,below⟩ := ids n next
    exact Nat.lt_of_lt_of_le (timely.logged.old event member id retires k before) below
  · rw [timers]
    exact timely.logged.retired

theorem Timely.onlyReady (timely : Timely log none s) (armed : Armed t) (only : OnlyReady s t) : Timely log none t := by
  refine timely.rested armed ?_ ?_ ?_
  · rw [only]
    exact timely.running.active
  · rw [only]
    exact .refl _
  · rw [only]

theorem waitSpec (timely : Timely log firing s) (wait cancelled) :
    After (waitForTimerExpiryState wait cancelled) s (fun _ t => Timely log firing t) (fun _ t => Timely log firing t) := by
  unfold waitForTimerExpiryState
  simp only [afterBind (p := Effect.read),afterRead,afterIte,afterFail,afterPure]
  refine ⟨fun _ => timely,fun idle => ⟨fun _ => timely,fun _ => ⟨fun _ => timely,fun _ => ?_⟩⟩⟩
  have rest : firing = none := by
    cases firing with
    | none => rfl
    | some now => exact absurd timely.running.active idle
  subst rest
  split
  · exact timely
  · exact timely
  · simp only [afterIte,afterFail,afterPure]
    exact ⟨fun _ => timely,fun _ => timely⟩
  · simp only [afterBind,afterUpdate,afterRead,afterPure]
    exact timely.onlyReady (timely.armed.promoted _) (promotedOnly _ s)

theorem fuelSpec (s amount) : After (consumeFuel amount) s
    (fun _ t => t = { s with fuel := t.fuel }) (fun _ t => t = { s with fuel := t.fuel }) := by
  unfold consumeFuel
  simp only [afterBind,afterRead,afterIte,afterFail,afterUpdate]
  exact ⟨fun _ => trivial,fun _ => ⟨fun _ => trivial,fun _ => trivial⟩⟩

theorem handleRooted {id timer} (live : s.timers.get id = some timer) {i}
    (index : runtimeIndex timer.handle = some i) (full : s.rooted.Occupied i) : s.rooted.Reachable i := by
  obtain ⟨e,found,some_⟩ := full
  obtain ⟨inside,_⟩ := List.getElem?_eq_some_iff.mp found
  have listed : (id,timer.toTimerRecord) ∈ s.rooted.timers := List.mem_map.mpr ⟨(id,timer),OrderedMap.getMem.mp live,rfl⟩
  have traced : i ∈ traceTimer timer.toTimerRecord := by
    simp only [traceTimer,List.mem_append]
    exact .inl (.inr (by simp [traceValue,index]))
  refine .root ?_ ?_
  · unfold traceRoots
    simp only [List.mem_append,List.mem_flatMap]
    grind
  · have here : s.rooted.heap.getD i .vacant = e := by simp [found]
    simp only [Tracing.Graph.live,heapGraph,here,some_,inside,decide_true,Bool.not_false,Bool.and_self]

theorem collectTimedSpec (s) : After collectTimed s
    (fun _ t => Idles s t ∧ t = { s with machine := t.machine }) (fun fault _ => fault.isPanic = true) := by
  have swept := (collectSwept s.rooted).both (collectPanics s.rooted)
  unfold After at swept ⊢
  unfold collectTimed
  cases result : collectGarbage s.rooted with
  | error fault m =>
    rw [result] at swept
    exact swept.2
  | ok a m =>
    rw [result] at swept
    refine ⟨⟨⟨rfl,rfl,rfl,.refl _,.refl _,?_⟩,rfl⟩,rfl⟩
    intro id timer live there
    obtain ⟨i,header,slot,found⟩ := there
    have index : runtimeIndex timer.handle = some i := by
      unfold Machine.slot at slot
      split at slot
      · cases slot
      · rename_i at_ decoded
        split at slot
        · cases slot
        · rename_i native
          split at slot
          · cases slot
          · cases slot
          · cases slot
            simp [runtimeIndex,decoded,native]
      · cases slot
    have reach := handleRooted live index ⟨_,found,rfl⟩
    have later : m.heap[i]? = some (.timeout header id timer.generation) := swept.1.reached i _ reach found
    exact ⟨i,header,slotStays slot later (by rintro ⟨⟩),later⟩

theorem pendingSpec (s) : After collectIfPending s
    (fun _ t => Idles s t ∧ t = { s with machine := t.machine }) (fun fault _ => fault.isPanic = true) := by
  unfold collectIfPending
  simp only [afterBind,afterRead,afterGiven]
  exact ⟨fun _ => collectTimedSpec s,fun _ => ⟨.refl s,trivial⟩⟩

def polledBy (poll : Option (Except String (List TimerWakeup))) (s : TimerMachine) : TimerMachine :=
  match poll with
  | some (.ok wakeups) => polled wakeups s
  | _ => s

theorem pollSpec (s poll) : After (pollTimerExpiries poll) s
    (fun _ t => t = polledBy poll s) (fun _ t => t = polledBy poll s) := by
  unfold pollTimerExpiries polledBy
  split
  · exact rfl
  · exact rfl
  · exact rfl

theorem Armed.polledBy (armed : Armed s) (poll) : Armed (polledBy poll s) := by
  unfold Runtime.polledBy
  split
  · exact armed.polled _
  · exact armed

theorem polledByOnly (poll s) : OnlyReady s (polledBy poll s) := by
  unfold polledBy
  split
  · exact polledOnly _ s
  · rfl

structure Picked (s : TimerMachine) (id : Nat) (timer : ArmedTimer) : Prop where
  live : s.timers.get id = some timer
  ready : s.readyTimers.get timer.order ≠ none
  least : ∀ order, s.readyTimers.get order ≠ none → timer.order ≤ order

theorem pickSpec (s poll) :
    After (pickExpiredTimer poll) s
      (fun picked t => (picked = none ∧ t = polledBy poll s) ∨ ∃ id timer u, picked = some (id,timer) ∧
        Picked (polledBy poll s) id timer ∧ Idles (polledBy poll s) u ∧
        t = { u with readyTimers := u.readyTimers.remove timer.order })
      (fun fault t => fault.isPanic = true ∨ t = { polledBy poll s with fuel := t.fuel }) := by
  unfold pickExpiredTimer
  rw [afterBind]
  refine (pollSpec s poll).mono ?_ (fun _ t same => .inr (by rw [same]))
  intro _ t same
  subst same
  simp only [afterBind (p := Effect.read),afterRead]
  split
  · exact .inl ⟨rfl,rfl⟩
  · rename_i order first
    split
    · exact .inr rfl
    · rename_i id timer found
      have live : (polledBy poll s).timers.get id = some timer := OrderedMap.getMem.mpr (List.mem_of_find?_eq_some found)
      have same : timer.order = order := of_decide_eq_true (List.find?_some found :)
      subst same
      have picked : Picked (polledBy poll s) id timer := ⟨live,(OrderedMap.firstLeast first).1,(OrderedMap.firstLeast first).2⟩
      rw [afterBind]
      refine (fuelSpec _ 1).mono ?_ (fun _ t same => .inr same)
      intro _ v spent
      have idles : Idles (polledBy poll s) v := by
        rw [spent]
        exact ⟨⟨rfl,rfl,rfl,.refl _,.refl _,fun _ _ _ there => there⟩,rfl⟩
      rw [afterBind]
      refine (pendingSpec v).mono ?_ (fun _ _ panic => .inl panic)
      intro _ w done
      have idles := idles.trans done.1
      have there : w.timers.get id = some timer := by rw [idles.1.timers]; exact live
      simp only [afterBind,afterUpdate,afterRead,there]
      exact .inr ⟨id,timer,w,rfl,picked,idles,rfl⟩

theorem Armed.flagged (armed : Armed s) (active) : Armed { s with timerCheckpointActive := active } :=
  ⟨armed.ids,armed.sequences,armed.apart,armed.ready,armed.handles⟩

theorem polledFlag (poll s active) :
    polledBy poll { s with timerCheckpointActive := active } = { polledBy poll s with timerCheckpointActive := active } := by
  unfold polledBy
  split
  · unfold polled
    dsimp only
    split
    · unfold promoteTimerWakeup
      split
      · rfl
      · rfl
    · rfl
  · rfl

theorem Timely.fired (timely : Timely log none s) {id timer p u} (armed : Armed p)
    (only : OnlyReady s p) (picked : Picked p id timer) (idles : Spent p u) :
    Timely (log ++ [TimerEvent.fired id timer]) (some (id,timer))
      { u with readyTimers := u.readyTimers.remove timer.order,timerCheckpointActive := true } := by
  have next := armed.spent idles
  have live : u.timers.get id = some timer := by rw [idles.timers]; exact picked.live
  have same : p.timers = s.timers := by rw [only]
  have ids : p.nextTimerId = s.nextTimerId := by rw [only]
  have bound : ∀ n, u.nextTimerId = some n → id < n := fun n found => next.ids n found id timer live
  have retired : ∀ event ∈ log, ∀ other, event.Retires other → s.timers.get other = none := by
    intro event member other retires
    cases there : s.timers.get other with
    | none => rfl
    | some old =>
      obtain ⟨_,no,_⟩ := timely.logged.retired event member other retires old there
      cases no
  have fewer : ∀ order, (u.readyTimers.remove timer.order).get order ≠ none → u.readyTimers.get order ≠ none := by
    intro order member
    rw [OrderedMap.getRemove] at member
    split at member
    · exact absurd rfl member
    · exact member
  refine ⟨next.shrinks (fun _ _ live => live) (fun order member => ⟨fewer order member,fun _ _ live _ => live⟩) rfl rfl rfl rfl,
    ⟨rfl,?_,?_,?_,?_⟩,⟨?_,?_,?_⟩⟩
  · intro other old now record there
    cases now
    rw [show u.timers.get id = some record from there] at live
    exact Option.some.inj live
  · intro other old now
    cases now
    rw [OrderedMap.getRemove,if_pos rfl]
  · intro _
    obtain ⟨_,_,w,_,_,mark,_⟩ := armed.ready timer.order picked.ready
    rw [idles.watermark,mark]
    exact nofun
  · intro other old now n found
    cases now
    exact bound n found
  · refine List.pairwise_append.mpr ⟨timely.logged.order,List.pairwise_singleton _ _,?_⟩
    intro event member last single other old retires again
    rw [List.mem_singleton.mp single] at again
    cases again
    have gone := retired event member id retires
    rw [← same,picked.live] at gone
    cases gone
  · intro event member other retires n found
    rcases List.mem_append.mp member with old | single
    · obtain ⟨k,before,below⟩ := idles.ids n found
      exact Nat.lt_of_lt_of_le (timely.logged.old event old other retires k (ids.symm.trans before)) below
    · rw [List.mem_singleton.mp single] at retires
      obtain ⟨rfl,_⟩ := retires
      exact bound n found
  · intro event member other retires old there
    rcases List.mem_append.mp member with before | single
    · have gone := retired event before other retires
      rw [← same,← idles.timers] at gone
      rw [show u.timers.get other = some old from there] at gone
      cases gone
    · rw [List.mem_singleton.mp single] at retires
      obtain ⟨rfl,oneShot⟩ := retires
      exact ⟨timer,rfl,oneShot⟩

theorem startSpec (timely : Timely log none s) (poll) :
    After (startExpiredTimer poll) s
      (fun picked t => (picked = none ∧ Timely log none t) ∨
        ∃ id timer, picked = some (id,timer) ∧ Picked (polledBy poll s) id timer ∧ Timely (log ++ [TimerEvent.fired id timer]) (some (id,timer)) t)
      (fun fault t => fault.isPanic = true ∨ Timely log none t ∧ t.timers = s.timers ∧ t.readyTimers = (polledBy poll s).readyTimers) := by
  have idle : s.timerCheckpointActive = false := timely.running.active
  have armed := timely.armed.polledBy poll
  have only := polledByOnly poll s
  unfold startExpiredTimer
  simp only [afterBind (p := Effect.read),afterRead,idle,Bool.false_eq_true,if_false,afterBind (p := Effect.update _),afterUpdate]
  rw [afterBind,afterTryCatch]
  refine (pickSpec _ poll).mono ?_ ?_
  · intro picked t done
    rcases done with ⟨rfl,rfl⟩ | ⟨id,timer,u,rfl,turn,idles,rfl⟩
    · simp only [leaveCheckpoint,afterBind,afterGiven,Option.isNone_none,afterUpdate,afterPure]
      refine ⟨fun _ => .inl ⟨trivial,?_⟩,fun no => absurd trivial no⟩
      rw [polledFlag]
      exact timely.rested (armed.flagged false) rfl (by rw [only]; exact .refl _) (by rw [only])
    · simp only [afterBind,afterGiven,Option.isNone_some,afterPure]
      refine ⟨fun no => absurd no (by decide),fun _ => .inr ⟨id,timer,rfl,?_,?_⟩⟩
      · rw [polledFlag] at turn
        exact ⟨turn.live,turn.ready,turn.least⟩
      · rw [polledFlag] at turn idles
        have active : u.timerCheckpointActive = true := idles.2
        have spent : Spent (polledBy poll s) u := ⟨idles.1.timers,idles.1.ready,idles.1.watermark,idles.1.ids,idles.1.sequences,idles.1.handles⟩
        have fired := timely.fired armed only ⟨turn.live,turn.ready,turn.least⟩ spent
        rw [show ({ u with readyTimers := u.readyTimers.remove timer.order } : TimerMachine) =
          { u with readyTimers := u.readyTimers.remove timer.order,timerCheckpointActive := true } by rw [← active]]
        exact fired
  · intro fault t failed
    rcases failed with panic | same
    · exact .inl panic
    · refine .inr ⟨?_,?_,?_⟩
      · rw [same,polledFlag]
        exact timely.rested (⟨armed.ids,armed.sequences,armed.apart,armed.ready,armed.handles⟩) rfl (by rw [only]; exact .refl _)
          (by rw [only])
      · rw [same,polledFlag,only]
      · rw [same,polledFlag]

theorem Timely.removed {id timer} (timely : Timely log (some (id,timer)) s) :
    Timely log none { s with timers := s.timers.remove id,timerCheckpointActive := false } := by
  obtain ⟨armed,running,logged⟩ := timely
  refine ⟨armed.shrinks (fun _ _ live => (removedLive live).2) ?_ rfl rfl rfl rfl,⟨rfl,nofun,nofun,nofun,nofun⟩,
    ⟨logged.order,logged.old,?_⟩⟩
  · intro order member
    refine ⟨member,fun other old live same => ?_⟩
    rw [OrderedMap.getRemove,if_neg]
    · exact live
    · intro here
      subst here
      have := running.record other timer rfl old live
      subst this
      exact member (same ▸ running.unready other old rfl)
  · intro event member other retires old live
    obtain ⟨away,live⟩ := removedLive live
    obtain ⟨_,now,_⟩ := logged.retired event member other retires old live
    cases now
    exact absurd rfl away

def Rearmed (id : Nat) (timer : ArmedTimer) (s t : TimerMachine) : Prop := ∃ next : ArmedTimer,
  next.toTimerRecord = timer.toTimerRecord ∧ next.intervalDelay = timer.intervalDelay ∧ t.timers = s.timers.insert id next

def Rested (log : List TimerEvent) (s : TimerMachine) : Prop := Timely log none { s with timerCheckpointActive := false }

theorem Rested.spent (rested : Rested log s) (spent : Spent s t) : Rested log t :=
  Timely.spent rested ⟨spent.timers,spent.ready,spent.watermark,spent.ids,spent.sequences,spent.handles⟩ rfl

theorem rearmSpec {id delay timer} (timely : Rested log s) (gone : s.timers.get id = none)
    (old : ∀ n, s.nextTimerId = some n → id < n) (there : s.machine.TimeoutAt timer.handle id timer.generation)
    (interval : timer.intervalDelay = some delay) (watermark : s.timerWatermark ≠ none) (unretired : ∀ event ∈ log, ¬event.Retires id) (schedule) :
    After (rearm id timer schedule delay) s (fun _ t => Rested log t ∧ Rearmed id timer s t) (fun _ t => Rested log t) := by
  unfold rearm
  rw [afterBind]
  refine (takeSequenceSpec s).mono ?_ (fun _ t same => same ▸ timely)
  intro sequence a done
  obtain ⟨next,rfl⟩ := done
  have first := sequenceTaken next
  rw [afterBind]
  refine (takeGenerationSpec _).mono ?_ (fun _ t same => same ▸ timely.spent first.1)
  intro generation c done
  obtain ⟨second,machine,ids,sequences⟩ := done
  have second := first.trans second
  rw [afterBind]
  refine (providedSpec _ c).mono ?_ (fun _ t same => same ▸ timely.spent second.1)
  intro deadline d same
  rw [same]
  have base := timely.spent second.1
  have timers := second.1.timers
  obtain ⟨i,header,slot,found⟩ := there
  rw [← show c.machine = s.machine from machine] at slot found
  have entry : c.machine.entry i = .timeout header id timer.generation := by simp [Machine.entry,found]
  obtain ⟨inside,_⟩ := List.getElem?_eq_some_iff.mp found
  simp only [afterBind,afterUpdate,afterRead,slot,entry,afterOnMachine,setEntry]
  obtain ⟨w,mark⟩ := Option.ne_none_iff_exists'.mp watermark
  have mark : c.timerWatermark = some w := second.1.watermark.trans mark
  have absent : c.timers.get id = none := by rw [timers]; exact gone
  have below : ∀ other old, c.timers.get other = some old → other ≠ id ∧ old.sequence < sequence := by
    intro other old live
    refine ⟨fun here => ?_,?_⟩
    · rw [here,absent] at live
      cases live
    · rw [timers] at live
      exact timely.armed.sequences sequence next other old live
  have kept : ∀ other old, c.timers.get other = some old →
      (Machine.TimeoutAt { c.machine with heap := c.machine.heap.set i (.timeout header id generation) }) old.handle other old.generation := by
    intro other old live
    obtain ⟨j,owner,slot',found'⟩ := base.armed.handles other old live
    have away : i ≠ j := by
      intro here
      subst here
      rw [found] at found'
      injection Option.some.inj found' with _ owner_ _
      exact (below other old live).1 owner_.symm
    have later : (c.machine.heap.set i (.timeout header id generation))[j]? = some (.timeout owner other old.generation) := by
      rw [List.getElem?_set_ne away]
      exact found'
    exact ⟨j,owner,slotStays slot' later (by rintro ⟨⟩),later⟩
  refine ⟨⟨⟨?_,?_,?_,?_,?_⟩,⟨rfl,by rintro _ _ ⟨⟩,by rintro _ _ ⟨⟩,by rintro ⟨⟩,by rintro _ _ ⟨⟩⟩,⟨base.logged.order,base.logged.old,?_⟩⟩,
    { timer with deadline := deadline,sequence := sequence,generation := generation,intervalDelay := some delay },rfl,interval.symm,?_⟩
  · intro n nextId other record live
    rw [OrderedMap.getInsert] at live
    split at live
    · rename_i here
      subst here
      obtain ⟨k,before,under⟩ := second.1.ids n nextId
      exact Nat.lt_of_lt_of_le (old k before) under
    · exact base.armed.ids n nextId other record live
  · intro n nextSequence other record live
    have above : sequence < n := nextPast (sequences.symm.trans nextSequence)
    rw [OrderedMap.getInsert] at live
    split at live
    · cases live
      exact above
    · exact Nat.lt_trans (below other record live).2 above
  · intro x y one two liveX liveY equal
    rw [OrderedMap.getInsert] at liveX liveY
    split at liveX
    · rename_i hereX
      cases liveX
      split at liveY
      · rename_i hereY
        rw [hereX,hereY]
      · have := (below y two liveY).2
        simp only at equal
        omega
    · split at liveY
      · cases liveY
        have := (below x one liveX).2
        simp only at equal
        omega
      · exact base.armed.apart x y one two liveX liveY equal
  · intro order member
    have choice : order = toLex (deadline,sequence) ∧ deadline ≤ w ∨ c.readyTimers.get order ≠ none := by
      rw [mark] at member
      split at member
      · rename_i due
        rw [OrderedMap.getInsert] at member
        split at member
        · rename_i here
          exact .inl ⟨here,due⟩
        · exact .inr member
      · exact .inr member
    rcases choice with ⟨rfl,due⟩ | before
    · refine ⟨id,_,w,by rw [OrderedMap.getInsert,if_pos rfl],rfl,mark,due⟩
    · obtain ⟨other,record,w',live,same,mark',due⟩ := base.armed.ready order before
      refine ⟨other,record,w',?_,same,mark',due⟩
      rw [OrderedMap.getInsert,if_neg (below other record live).1]
      exact live
  · intro other record live
    rw [OrderedMap.getInsert] at live
    split at live
    · rename_i here
      cases live
      have later : (c.machine.heap.set i (.timeout header id generation))[i]? = some (.timeout header id generation) :=
        List.getElem?_set_self inside
      rw [here]
      exact ⟨i,header,slotStays slot later (by rintro ⟨⟩),later⟩
    · exact kept other record live
  · intro event member other retires record live
    rw [OrderedMap.getInsert,if_neg] at live
    · exact base.logged.retired event member other retires record live
    · intro here
      exact unretired event member (here ▸ retires)
  · rw [timers]

def Finished (id : Nat) (timer : ArmedTimer) (s t : TimerMachine) : Prop :=
  (timer.intervalDelay = none ∨ s.timers.get id = none) ∧ t.timers = s.timers.remove id ∨
  timer.intervalDelay ≠ none ∧ s.timers.get id = some timer ∧ Rearmed id timer { s with timers := s.timers.remove id } t

theorem finishTimerSpec {id timer} (timely : Timely log (some (id,timer)) s) (schedule) :
    After (finishTimer id timer schedule) s (fun _ t => Rested log t ∧ Finished id timer s t) (fun _ t => Rested log t) := by
  have rested : Rested log { s with timers := s.timers.remove id } := timely.removed
  unfold finishTimer
  simp only [afterBind (p := Effect.read),afterRead,afterBind (p := Effect.update _),afterUpdate]
  cases live : s.timers.get id with
  | none => exact ⟨rested,.inl ⟨.inr live,rfl⟩⟩
  | some record =>
    have same := timely.running.record id timer rfl record live
    subst same
    cases interval : record.intervalDelay with
    | none => exact ⟨rested,.inl ⟨.inl interval,rfl⟩⟩
    | some delay =>
      have unretired : ∀ event ∈ log, ¬event.Retires id := by
        intro event member retires
        obtain ⟨other,now,oneShot⟩ := timely.logged.retired event member id retires record live
        cases now
        rw [interval] at oneShot
        cases oneShot
      have gone : (s.timers.remove id).get id = none := by rw [OrderedMap.getRemove,if_pos rfl]
      refine (rearmSpec rested gone (timely.running.old id record rfl) (timely.armed.handles id record live) interval
        (timely.running.watermark rfl) unretired schedule).mono ?_ fun _ _ failed => failed
      intro _ t done
      exact ⟨done.1,.inr ⟨by rw [interval]; rintro ⟨⟩,live,done.2⟩⟩

theorem finishSpec {id timer} (timely : Timely log (some (id,timer)) s) (outcome schedule) :
    After (finishExpiredTimer id timer outcome schedule) s (fun _ t => Timely log none t ∧ Finished id timer s t)
      (fun _ t => Timely log none t) := by
  have settled : After (settleExpiredTimer id timer outcome schedule) s (fun _ t => Rested log t ∧ Finished id timer s t)
      (fun _ t => Rested log t) := by
    unfold settleExpiredTimer
    split
    · rw [afterBind]
      exact finishTimerSpec timely schedule
    · rw [afterBind]
      exact finishTimerSpec timely schedule
    · simp only [afterBind,afterUpdate,afterFail]
      exact timely.removed
    · simp only [afterBind,afterUpdate,afterFail]
      exact timely.removed
    · simp only [afterBind,afterUpdate,afterFail]
      exact timely.removed
  unfold finishExpiredTimer
  rw [afterBind,afterTryCatch]
  exact settled

end

def clearEvents (s : TimerMachine) (handle : Value) : List TimerEvent := (s.target handle).toList.map fun named => .cleared named.1

-- The rest of the program: it leaves the timers alone and keeps the timeout objects that are there.
structure Elsewhere (s t : TimerMachine) : Prop where
  only : t = { s with machine := t.machine,fuel := t.fuel,cancelled := t.cancelled }
  timeouts : TimeoutsKept s.machine t.machine

-- Everything that can happen to the timers, in any order. A callback runs between `fire` and `finish`, and
-- whatever happens in between is its doing.
inductive TimerHistory (start : TimerMachine) : List TimerEvent → Option (Nat × ArmedTimer) → TimerMachine → Prop where
  | begin : TimerHistory start [] none start
  | schedule {log : List TimerEvent} {firing : Option (Nat × ArmedTimer)} {s : TimerMachine} (before : TimerHistory start log firing s)
      (callback : Value) (delay : Nat) (arguments : List Value) (intervalDelay : Option Nat)
      (answer : Nat → Nat → Option (Except String Nat)) :
      TimerHistory start log firing (left (scheduleTimer callback delay arguments intervalDelay answer) s)
  | clear {log : List TimerEvent} {firing : Option (Nat × ArmedTimer)} {s : TimerMachine} (before : TimerHistory start log firing s)
      (handle : Value) (answer : Nat → Option (Except String Bool)) :
      TimerHistory start (log ++ clearEvents s handle) firing (left (clearTimeout handle answer) s)
  | wait {log : List TimerEvent} {firing : Option (Nat × ArmedTimer)} {s : TimerMachine} (before : TimerHistory start log firing s)
      (answer : Option (Except String (Option TimerWakeup))) (cancelled : Bool) :
      TimerHistory start log firing (left (waitForTimerExpiryState answer cancelled) s)
  | fire {log : List TimerEvent} {firing picked : Option (Nat × ArmedTimer)} {s t : TimerMachine} (before : TimerHistory start log firing s)
      (poll : Option (Except String (List TimerWakeup))) (result : startExpiredTimer poll s = .ok picked t) :
      TimerHistory start (log ++ picked.toList.map fun turn => .fired turn.1 turn.2) picked t
  | refused {log : List TimerEvent} {firing : Option (Nat × ArmedTimer)} {s t : TimerMachine} {fault : Fault}
      (before : TimerHistory start log firing s) (poll : Option (Except String (List TimerWakeup)))
      (result : startExpiredTimer poll s = .error fault t) (calm : fault.isPanic = false) : TimerHistory start log firing t
  | finish {log : List TimerEvent} {id : Nat} {timer : ArmedTimer} {s : TimerMachine} (before : TimerHistory start log (some (id,timer)) s)
      (outcome : CallbackOutcome) (answer : Nat → Nat → Option (Except String Nat)) :
      TimerHistory start log none (left (finishExpiredTimer id timer outcome answer) s)
  | collect {log : List TimerEvent} {firing : Option (Nat × ArmedTimer)} {s t : TimerMachine} (before : TimerHistory start log firing s)
      (result : collectTimed s = .ok () t) : TimerHistory start log firing t
  | outside {log : List TimerEvent} {firing : Option (Nat × ArmedTimer)} {s t : TimerMachine} (before : TimerHistory start log firing s)
      (elsewhere : Elsewhere s t) : TimerHistory start log firing t

structure TimerMachine.Unscheduled (s : TimerMachine) : Prop where
  timers : s.timers = .empty
  ready : s.readyTimers = .empty
  idle : s.timerCheckpointActive = false

theorem TimerMachine.Unscheduled.timely {s} (fresh : s.Unscheduled) : Timely [] none s := by
  have none_ : ∀ id timer, s.timers.get id ≠ some timer := fun id timer found => by
    rw [fresh.timers,OrderedMap.getEmpty] at found
    cases found
  refine ⟨⟨fun _ _ id timer live => absurd live (none_ id timer),fun _ _ id timer live => absurd live (none_ id timer),
    fun id _ timer _ live => absurd live (none_ id timer),?_,fun id timer live => absurd live (none_ id timer)⟩,
    ⟨fresh.idle,nofun,nofun,nofun,nofun⟩,⟨List.Pairwise.nil,nofun,nofun⟩⟩
  intro order member
  rw [fresh.ready,OrderedMap.getEmpty] at member
  exact absurd rfl member

theorem reentry {s} (active : s.timerCheckpointActive = true) (poll) :
    startExpiredTimer poll s = .error (runtimeFault .timerCheckpointReentry) s := by
  have refused : After (startExpiredTimer poll) s (fun _ _ => False) (fun fault t => fault = runtimeFault .timerCheckpointReentry ∧ t = s) := by
    unfold startExpiredTimer
    simp only [afterBind (p := Effect.read),afterRead,active,if_true,afterFail,and_self]
  cases result : startExpiredTimer poll s with
  | ok picked t => exact (refused.ok result).elim
  | error fault t =>
    obtain ⟨rfl,rfl⟩ := refused.error result
    rfl

theorem TimerHistory.timely {start s log firing} (fresh : start.Unscheduled) (history : TimerHistory start log firing s) : Timely log firing s := by
  induction history with
  | begin => exact fresh.timely
  | schedule before callback delay arguments intervalDelay answer ih =>
    exact After.left ((scheduleSpec _ callback delay arguments intervalDelay answer).mono (fun _ _ done => ih.scheduled done)
      fun _ _ failed => ih.idles failed)
  | @clear log firing s before handle answer ih =>
    have same := After.left (clearTimeoutSpec s handle answer)
    rw [same,clearEvents]
    cases target : s.target handle with
    | none =>
      rw [cleared,target]
      simpa using ih
    | some named => exact ih.cleared target
  | wait before answer cancelled ih => exact After.left (waitSpec ih answer cancelled)
  | @fire log firing picked s t before poll result ih =>
    cases firing with
    | some now =>
      rw [reentry ih.running.active] at result
      cases result
    | none =>
      rcases (startSpec ih poll).ok result with ⟨rfl,timely⟩ | ⟨id,timer,rfl,_,timely⟩
      · simpa using timely
      · exact timely
  | @refused log firing s t fault before poll result calm ih =>
    cases firing with
    | some now =>
      rw [reentry ih.running.active] at result
      cases result
      exact ih
    | none =>
      rcases (startSpec ih poll).error result with panic | ⟨timely,_⟩
      · rw [panic] at calm
        cases calm
      · exact timely
  | finish before outcome answer ih =>
    exact After.left ((finishSpec ih outcome answer).mono (fun _ _ done => done.1) fun _ _ failed => failed)
  | collect before result ih => exact ih.idles ((collectTimedSpec _).ok result).1
  | @outside log firing s t before elsewhere ih =>
    obtain ⟨only,timeouts⟩ := elsewhere
    refine ih.spent (t := t) ⟨by rw [only],by rw [only],by rw [only],by rw [only]; exact .refl _,by rw [only]; exact .refl _,?_⟩ (by rw [only])
    exact fun _ _ _ there => there.kept timeouts

/-- In every interleaving: the ready keys belong to live timers that are due; the least of them fires; a one-shot that
fired and a timer that was cleared never fire again; a clear by its own handle finds its timer; an interval is re-armed under
its id and handle; and a checkpoint that fails before the call leaves records and ready keys as the poll left them. -/
theorem timersSound {start s : TimerMachine} {log : List TimerEvent} {firing : Option (Nat × ArmedTimer)} (fresh : start.Unscheduled)
    (history : TimerHistory start log firing s) :
    (∀ order, s.readyTimers.get order ≠ none → ∃ id timer w, s.timers.get id = some timer ∧ timer.order = order ∧
      s.timerWatermark = some w ∧ timer.deadline ≤ w ∧
      ∀ other record, s.timers.get other = some record → record.order = order → other = id) ∧
    (∀ poll id timer t, startExpiredTimer poll s = .ok (some (id,timer)) t → Picked (polledBy poll s) id timer) ∧
    (log.Pairwise fun before after => ∀ id timer, before.Retires id → after ≠ .fired id timer) ∧
    (∀ id timer answer, s.timers.get id = some timer →
      clearEvents s timer.handle = [.cleared id] ∧ (left (clearTimeout timer.handle answer) s).timers.get id = none) ∧
    (∀ id timer outcome answer, firing = some (id,timer) →
      After (finishExpiredTimer id timer outcome answer) s (fun _ t => Finished id timer s t) (fun _ _ => True)) ∧
    (∀ poll fault t, startExpiredTimer poll s = .error fault t → fault.isPanic = false →
      t.timers = s.timers ∧ t.readyTimers = if firing.isSome then s.readyTimers else (polledBy poll s).readyTimers) := by
  have timely := history.timely fresh
  refine ⟨?_,?_,timely.logged.order,?_,?_,?_⟩
  · intro order member
    obtain ⟨id,timer,w,live,same,mark,due⟩ := timely.armed.ready order member
    refine ⟨id,timer,w,live,same,mark,due,fun other record there again => ?_⟩
    refine timely.armed.apart other id record timer there live ?_
    have orders : record.order = timer.order := again.trans same.symm
    exact congrArg (fun order : Nat ×ₗ Nat => (ofLex order).2) orders
  · intro poll id timer t result
    cases firing with
    | some now =>
      rw [reentry timely.running.active] at result
      cases result
    | none =>
      rcases (startSpec timely poll).ok result with ⟨no,_⟩ | ⟨_,_,same,picked,_⟩
      · cases no
      · cases same
        exact picked
  · intro id timer answer live
    have target := timely.armed.named live
    rw [clearEvents,target,After.left (clearTimeoutSpec s timer.handle answer),cleared,target]
    exact ⟨rfl,by rw [OrderedMap.getRemove,if_pos rfl]⟩
  · intro id timer outcome answer now
    subst now
    exact (finishSpec timely outcome answer).mono (fun _ _ done => done.2) fun _ _ _ => trivial
  · intro poll fault t result calm
    cases firing with
    | some now =>
      rw [reentry timely.running.active] at result
      cases result
      exact ⟨rfl,rfl⟩
    | none =>
      rcases (startSpec timely poll).error result with panic | ⟨_,records,ready⟩
      · rw [panic] at calm
        cases calm
      · exact ⟨records,ready⟩

def bareTimers : TimerMachine where
  machine := bareMachine
  maxTimers := 4
  fuelLimit := 9
  fuel := 9
  cancelled := false
  nextTimerId := some 1
  nextTimerSequence := some 0
  nextTimerGeneration := some 0
  timers := .empty
  readyTimers := .empty
  timerWatermark := none
  timerCheckpointActive := false

def twoArmed : TimerMachine :=
  left (scheduleTimer .undefined 5 [] none fun _ _ => some (.ok 5))
    (left (scheduleTimer .undefined 7 [] none fun _ _ => some (.ok 7)) bareTimers)

def pickedId (poll : Option (Except String (List TimerWakeup))) (s : TimerMachine) : Option Nat :=
  match startExpiredTimer poll s with
  | .ok (some (id,_)) _ => some id
  | _ => none

theorem timersSoundTwo : ∃ timer, pickedId (some (.ok [⟨1,7⟩])) twoArmed = some 2 ∧ Picked (polledBy (some (.ok [⟨1,7⟩])) twoArmed) 2 timer := by
  have history : TimerHistory bareTimers [] none twoArmed := (TimerHistory.begin.schedule _ _ _ _ _).schedule _ _ _ _ _
  have second : pickedId (some (.ok [⟨1,7⟩])) twoArmed = some 2 := by decide
  have shape := second
  unfold pickedId at shape
  split at shape
  · rename_i id timer t result
    cases shape
    exact ⟨timer,second,(timersSound ⟨rfl,rfl,rfl⟩ history).2.1 _ 2 timer t result⟩
  · cases shape

end Bamts.Runtime
