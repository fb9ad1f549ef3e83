import Bamts.RuntimeCloneTransfer
import Bamts.RuntimeSolvent

/-! A clone is all or nothing exactly when no getter has taken a listed buffer away before the buffers are given away. -/
set_option linter.all false
namespace Bamts.Runtime
open Effect Bytecode Linkage Binary64

def Sane (script : Value → Value → List Value → Exec Value) : Prop :=
  ∀ (count : Nat) callee this args, Steady (fun t => Charged t ∧ count ≤ t.heap.length) (script callee this args)

inductive Observes (script : Value → Value → List Value → Exec Value) (m : Machine) : Machine → Prop where
  | start : Observes script m m
  | get {t : Machine} (before : Observes script m t) (object : Value) (key : PropertyKey) :
    Observes script m (left (readProperty script object key) t)

def RolledBack (p t : Machine) : Prop := t = { p with gc := t.gc }

def Reported : CloneFailure → Prop
  | .dataClone _ => True
  | .evaluation fault => fault.isPanic = false
  | .outOfFuel => False

section
variable {script : Value → Value → List Value → Exec Value} {fuel : Nat} {value : Value} {transfer : List Value} {m : Machine}

def AllOrNothing (script : Value → Value → List Value → Exec Value) (fuel : Nat) (value : Value) (transfer : List Value) (m : Machine) : Prop :=
  After (cloneValueWithTransfer script fuel value transfer) m (fun _ t => ∀ v ∈ transfer, Detached t v) fun failure t =>
    Reported failure → Observes script m (left (readSource script fuel value transfer) m) ∧ RolledBack (left (readSource script fuel value transfer) m) t

theorem chargedTexts (count) : MakesTexts fun t => Charged t ∧ count ≤ t.heap.length := by
  intro e text t holds
  refine (allocateSpec holds.1.balanced e).mono (fun v u done => ?_) fun fault u done => ?_
  · obtain ⟨same,balanced,-⟩ := done
    have heap : u.heap = t.heap ++ [e] := by rw [same]
    have charges : u.slotBytes = t.slotBytes ++ [initialBytes t e] := by rw [same]
    have slots : u.intrinsicSlots = t.intrinsicSlots := by rw [same]
    refine ⟨⟨balanced,fun i header bytes most key inside found past => ?_⟩,?_⟩
    · rw [heap,List.getElem?_append] at found
      split at found
      · rename_i below
        rw [slots] at past
        refine Nat.le_trans (holds.1.charge i header bytes most key below found past) (Nat.le_of_eq ?_)
        rw [Machine.held,Machine.held,charges,List.getD_eq_getElem?_getD,List.getD_eq_getElem?_getD,
          List.getElem?_append_left (by rw [holds.1.balanced.slots]; exact below)]
      · rw [← List.mem_singleton.mp (List.mem_of_getElem? found)] at text
        rcases text with kind | kind
        · cases kind
        · cases kind
    · rw [heap,List.length_append]
      exact Nat.le_trans holds.2 (Nat.le_add_right _ _)
  · rw [done.1]
    exact holds

theorem observesReads (object key) : Steady (Observes script m) (readProperty script object key) :=
  fun _ before => leftAfter (before.get object key)

theorem steadyRoot {J listed} (reads : ∀ object key, Steady J (readProperty script object key)) :
    Steady (Growing J listed 0) (planRoot script fuel value) :=
  (steadyEncode value).bind fun _ => (steadyUpdate fun _ later => ⟨later.machine,later.listed,Nat.zero_le _⟩).bind fun _ => steadyBuild reads fuel

theorem afterPlan {listed Q E} :
    After (readPlan script fuel value listed) m Q E ↔
      After (planRoot script fuel value) ⟨m,.new listed⟩ (fun _ s => Q s.plan s.machine) fun failure s => E failure s.machine := by
  unfold After readPlan
  cases planRoot script fuel value ⟨m,.new listed⟩ with
  | ok done s => rfl
  | error failure s => rfl

theorem idlePlan (listed) : After (readPlan script fuel value listed) m (fun plan p => plan.nodes = [] → p = m) fun _ _ => True := by
  have grown : ∀ root, Steady (Growing (fun _ => True) listed 1) (update (fun s : Planner => { s with plan := { s.plan with root } }) >>= fun _ =>
      buildPlan script fuel) := fun _ =>
    (steadyUpdate fun _ later => ⟨later.machine,later.listed,later.count⟩).bind fun _ => steadyBuild (fun _ _ _ _ => leftAfter trivial) fuel
  rw [afterPlan]
  unfold planRoot encode
  rw [afterBind]
  split
  · rw [afterBind,inPlanner,afterZoom,afterEvaluate]
    refine afterSlot (fun slot found => ?_) fun _ _ => trivial
    cases slot with
    | none => trivial
    | some i =>
      have rest := grown (.node 0) ⟨m,⟨.immediate .undefined,[.pending value],[(i,0)],[0],listed⟩⟩ ⟨trivial,rfl,Nat.le_refl _⟩
      exact rest.mono (fun _ s later none_ => absurd later.count (by rw [none_]; exact Nat.not_succ_le_zero 0)) fun _ _ _ => trivial
  · cases fuel with
    | zero => trivial
    | succ fuel => exact fun _ => rfl

theorem sourceObserves : Observes script m (left (readSource script fuel value transfer) m) := by
  refine After.left ?_
  rw [readSource,afterBind]
  refine (validateTransfersSpec [] transfer).mono (fun listed t done => ?_) fun _ t same => ?_
  · rw [afterPlan]
    refine ((steadyRoot observesReads) ⟨t,.new listed⟩ ⟨?_,rfl,Nat.zero_le _⟩).mono (fun _ _ later => later.machine) fun _ _ later => later.machine
    rw [done.1]
    exact .start
  · rw [same]
    exact .start

-- The source has been read, and no slot is gone.
structure ReadFrom (m : Machine) (transfer : List Value) (plan : ClonePlan) (p : Machine) : Prop where
  listed : plan.transfers = transfer
  charged : Charged p
  below : ∀ v ∈ transfer, ∀ i, named v = some i → i < p.heap.length
  nodup : (transfer.map named).Nodup
  idle : plan.nodes = [] → ∀ v ∈ transfer, Attached p v

theorem readSourceSpec (sane : Sane script) (charged : Charged m) :
    After (readSource script fuel value transfer) m (ReadFrom m transfer) fun _ _ => True := by
  rw [readSource,afterBind]
  refine (validateTransfersSpec [] transfer).mono (fun listed t done => ?_) fun _ _ _ => trivial
  obtain ⟨rfl,rfl,attached,-,nodup⟩ := done
  have reads : ∀ object key, Steady (fun u => Charged u ∧ t.heap.length ≤ u.heap.length) (readProperty script object key) :=
    steadyProperty (chargedTexts _) (sane _)
  have grows : Steady (Growing _ listed 0) (planRoot script fuel value) := steadyRoot reads
  have planned : After (readPlan script fuel value listed) t (fun plan p => (Charged p ∧ t.heap.length ≤ p.heap.length) ∧ plan.transfers = listed)
      fun _ _ => True :=
    afterPlan.mpr ((grows ⟨t,.new listed⟩ ⟨⟨charged,Nat.le_refl _⟩,rfl,Nat.zero_le _⟩).mono (fun _ s later => ⟨later.machine,later.listed⟩)
      fun _ _ _ => trivial)
  refine (planned.both (idlePlan listed)).mono (fun plan p both => ?_) fun _ _ _ => trivial
  obtain ⟨⟨⟨charged,longer⟩,same⟩,idle⟩ := both
  refine ⟨same,charged,fun v among i name => ?_,nodup,fun none_ => ?_⟩
  · obtain ⟨j,here⟩ := attached v among
    rw [here.named] at name
    cases name
    exact Nat.lt_of_lt_of_le (slotNamed here.slot).2 longer
  · rw [idle none_]
    exact attached

section
variable {plan : ClonePlan} {p t : Machine} {floor : Nat}

theorem Beside.at (beside : Beside p floor t) {i} (inside : i < p.heap.length) : t.heap[i]? = p.heap[i]? := by
  rw [← beside.heap,List.getElem?_take,if_pos inside]

theorem Beside.paid (beside : Beside p floor t) (charged : Charged p) : PaidBelow p.heap.length t := by
  refine ⟨beside.balanced,fun i header bytes most key inside found past => ?_⟩
  rw [beside.at inside] at found
  rw [beside.intrinsicSlots] at past
  refine Nat.le_trans (charged.charge i header bytes most key inside found past) (Nat.le_of_eq ?_)
  rw [Machine.held,Machine.held,List.getD_eq_getElem?_getD,List.getD_eq_getElem?_getD,← beside.slotBytes,List.getElem?_take,if_pos inside]

theorem Beside.attached (beside : Beside p floor t) {v} (below : ∀ i, named v = some i → i < p.heap.length) : Attached t v ↔ Attached p v := by
  constructor
  · rintro ⟨i,here⟩
    exact ⟨i,here.with (beside.at (below i here.named)).symm⟩
  · rintro ⟨i,here⟩
    exact ⟨i,here.with (beside.at (below i here.named))⟩

theorem Beside.rolledBack (beside : Beside p floor t) (balanced : Balanced p) : RolledBack p (rollback p t) := by
  have only := beside.only
  unfold RolledBack rollback
  rw [beside.heap,balanced.slots,beside.slotBytes]
  rw [only]

theorem allOrNothingRead (source : readSource script fuel value transfer m = .ok plan p) :
    AllOrNothing script fuel value transfer m ↔
      After (commit plan) p (fun _ t => ∀ v ∈ transfer, Detached t v) fun fault t => fault.isPanic = false → RolledBack p t := by
  have observes : Observes script m (left (readSource script fuel value transfer) m) := sourceObserves
  have reached : left (readSource script fuel value transfer) m = p := by rw [left,source]
  unfold AllOrNothing After
  rw [cloneValueWithTransfer,doneBind source,reached,evaluate]
  rw [reached] at observes
  cases commit plan p with
  | ok result t => rfl
  | error fault t => exact ⟨fun failed reported => (failed reported).2,fun failed reported => ⟨observes,failed reported⟩⟩

theorem allOrNothingFailed {failure} (source : readSource script fuel value transfer m = .error failure t) :
    AllOrNothing script fuel value transfer m := by
  have observes : Observes script m (left (readSource script fuel value transfer) m) := sourceObserves
  have reached : left (readSource script fuel value transfer) m = t := by rw [left,source]
  have failed : cloneValueWithTransfer script fuel value transfer m = .error failure t := by
    rw [cloneValueWithTransfer,failedBind source]
  unfold AllOrNothing After
  rw [failed]
  refine fun _ => ⟨observes,?_⟩
  rw [reached]
  rfl

theorem notRolledBack (read : ReadFrom m transfer plan p) (beside : Beside p (p.heap.length+plan.nodes.length) t) {v} (among : v ∈ transfer)
    (gone : ¬Attached p v) {u} (length : u.heap.length = t.heap.length) : ¬RolledBack p u := by
  intro back
  have same : u.heap = p.heap := by rw [back]
  have nodes : plan.nodes ≠ [] := fun none_ => gone (read.idle none_ v among)
  have some_ := List.length_pos_iff.mpr nodes
  have reach := beside.reach
  rw [same] at length
  omega

theorem commitExact (read : ReadFrom m transfer plan p) :
    After (commit plan) p (fun _ t => ∀ v ∈ transfer, Detached t v) (fun fault t => fault.isPanic = false → RolledBack p t) ↔
      ((∃ result t, materialize plan p = .ok result t) → ∀ v ∈ transfer, Attached p v) := by
  have made := materializeBeside read.charged.balanced plan
  unfold After commit
  cases run : materialize plan p with
  | error fault t =>
    refine ⟨fun _ some_ => ?_,fun _ => ?_⟩
    · obtain ⟨result,u,done⟩ := some_
      cases done
    · cases fault with
      | panicked site => exact fun never => by cases never
      | failure failure => exact fun _ => (made.error run).rolledBack read.charged.balanced
      | callout callee this args => exact fun _ => (made.error run).rolledBack read.charged.balanced
  | ok result t =>
    have beside := made.ok run
    have paid := beside.paid read.charged
    have below : ∀ v ∈ transfer, Attached t v ↔ Attached p v := fun v among => beside.attached (read.below v among)
    show After (detachAll plan.transfers >>= fun _ => pure result) t _ _ ↔ _
    rw [afterBind,read.listed]
    constructor
    · intro holds _ v among
      by_contra gone
      have fails := detachAllFails transfer paid read.below among fun there => gone ((below v among).mp there)
      have never : After (detachAll transfer) t (fun _ _ => False) fun _ _ => False :=
        (fails.both holds).mono (fun _ _ both => both.1) fun fault u both => notRolledBack read beside among gone both.1.2 (both.2 both.1.1)
      exact never.left
    · intro holds
      have attached := holds ⟨result,t,rfl⟩
      have there : ∀ v ∈ transfer, Attached t v := fun v among => (below v among).mpr (attached v among)
      exact (detachAllWorks transfer paid read.below there read.nodup).mono (fun _ u done => done.2) fun _ _ never => never.elim

theorem transferExact (sane : Sane script) (charged : Charged m) :
    AllOrNothing script fuel value transfer m ↔ ∀ plan p, readSource script fuel value transfer m = .ok plan p →
      (∃ result t, materialize plan p = .ok result t) → ∀ v ∈ transfer, Attached p v := by
  cases source : readSource script fuel value transfer m with
  | error failure t =>
    refine ⟨fun _ plan p read => ?_,fun _ => allOrNothingFailed source⟩
    cases read
  | ok plan p =>
    rw [allOrNothingRead source,commitExact ((readSourceSpec sane charged).ok source)]
    constructor
    · intro holds other q same
      cases same
      exact holds
    · exact fun holds => holds plan p rfl

end

end

section

def lentEntries : List HeapEntry :=
  [.nativeFunction ⟨.empty,none,true⟩ (.builtin 0),.arrayBuffer ⟨.empty,none,true⟩ ⟨some [7],none,.undefined⟩,
   .object ⟨PropertyMap.empty.insert (.named (ascii "x")) (.accessor (valueForHeapIndex 1) none true true),none,true⟩ none]

def lender : Machine :=
  { bareMachine with
    heap := bareMachine.heap ++ lentEntries
    slotBytes := bareMachine.slotBytes ++ lentEntries.map (initialBytes bareMachine)
    heapBytes := (lentEntries.map (initialBytes bareMachine)).sum }
def lent : Value := (valueForHeapIndex 2).getD .undefined
def holder : Value := (valueForHeapIndex 3).getD .undefined

def giving (_ _ : Value) (_ : List Value) : Exec Value := do
  let _ ← detachBuffer lent .undefined
  return .undefined

theorem givingSane : Sane giving := by
  intro count callee this args m holds
  unfold giving
  rw [afterBind]
  by_cases attached : Attached m lent
  · obtain ⟨i,here⟩ := attached
    refine (detachSpec holds.1 (slotNamed here.slot).2 here).mono (fun _ t done => ?_) fun _ _ never => never.elim
    obtain ⟨paid,header,most,heap⟩ := done
    have length : t.heap.length = m.heap.length := by rw [heap,List.length_set]
    have charged : Charged t := by
      unfold Charged
      rw [length]
      exact paid
    exact ⟨charged,by rw [length]; exact holds.2⟩
  · refine (detachFails attached).mono (fun _ _ never => never.elim) fun _ t done => ?_
    rw [done.2]
    exact holds

theorem lenderCharged : Charged lender := by
  refine ⟨⟨rfl,rfl,rfl,by decide⟩,fun i header bytes most key inside found past => ?_⟩
  have two : i = 2 := by
    have small : i < 4 := inside
    interval_cases i
    · cases found
    · cases found
    · rfl
    · cases found
  subst two
  cases found
  decide

theorem transferExactLender : AllOrNothing giving 4 holder [lent] lender ↔ ∀ plan p, readSource giving 4 holder [lent] lender = .ok plan p →
    (∃ result t, materialize plan p = .ok result t) → ∀ v ∈ [lent], Attached p v :=
  transferExact givingSane lenderCharged

def failsReported (p : Clone Value) (m : Machine) : Bool :=
  match p m with
  | .error (.evaluation fault) _ => !fault.isPanic
  | _ => false

theorem transferFails : ¬AllOrNothing giving 4 holder [lent] lender := by
  intro holds
  have fails : failsReported (cloneValueWithTransfer giving 4 holder [lent]) lender = true := by decide +kernel
  have beside : (left (cloneValueWithTransfer giving 4 holder [lent]) lender).heap.length ≠
      (left (readSource giving 4 holder [lent]) lender).heap.length := by decide +kernel
  unfold failsReported at fails
  split at fails
  · rename_i fault t run
    have back := (holds.error run (by simpa [Reported] using fails)).2
    refine beside ?_
    rw [show left (cloneValueWithTransfer giving 4 holder [lent]) lender = t by rw [left,run],back]
  · cases fails

end

end Bamts.Runtime
