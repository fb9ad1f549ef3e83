import Bamts.RuntimePromiseAllStep
import Bamts.RuntimeSolvent

/-! Promise.all over whole runs: the capability is resolved when its history is complete. -/
set_option linter.all false
namespace Bamts.Runtime.PromiseAll
open Effect

section

variable {s t : Running}

theorem advanceCloses (activation stage reply) (closed : stage.isOpen = false) :
    After (advance activation stage reply) s (fun next _ => next.isOpen = false) fun _ _ => True := by
  unfold advance
  split
  all_goals first | exact rfl | exact trivial | cases closed

theorem historyInside (inv : Inv s) {v h} (known : s.histories v = some h) : valueForHeapIndex s.machine.heap.length ≠ some v := by
  intro place
  obtain ⟨_,i,index,inside,_⟩ := inv.aggregates v h known
  exact absurd (indexInjective index place) (Nat.ne_of_lt inside)

theorem startSpec (inv : Inv s) (resolveMethod receiver capabilityResolve capabilityReject) :
    After (Operation.run (.start resolveMethod receiver capabilityResolve capabilityReject)) s (fun _ t => Inv t) Safe := by
  unfold Operation.run
  rw [afterBind]
  refine afterMachine.mpr ((allocateSpecs s.machine _).mono ?_ fun _ _ denied => denied.fatal.safe)
  rintro aggregate m ⟨heap,place⟩
  have inside : ∀ i, i < s.machine.heap.length → m.entry i = s.machine.entry i := by
    intro i short
    rw [Machine.entry,Machine.entry,heap,List.getD_eq_getElem?_getD,List.getD_eq_getElem?_getD,List.getElem?_append_left short]
  have last : m.entry s.machine.heap.length = .promiseAll capabilityResolve capabilityReject [] 1 false := by
    rw [Machine.entry,heap,List.getD_eq_getElem?_getD,List.getElem?_append_right (Nat.le_refl _),Nat.sub_self]
    rfl
  have length : m.heap.length = s.machine.heap.length+1 := by rw [heap,List.length_append]; rfl
  have element : ∀ j u k, m.entry j = .promiseAllElement u k false → s.machine.entry j = .promiseAllElement u k false := by
    intro j u k at_
    rcases Nat.lt_trichotomy j s.machine.heap.length with short | same | long
    · exact (inside j short).symm.trans at_
    · rw [same,last] at at_
      cases at_
    · rw [Machine.entry,entryOutside (by omega)] at at_
      cases at_
  have older : ∀ u h, s.histories u = some h → u ≠ aggregate := by
    rintro u h known rfl
    exact historyInside inv known place
  have kept : ∀ u h, s.histories u = some h → (if u = aggregate then some ⟨capabilityResolve,Gather.fresh,[]⟩ else s.histories u) = some h := by
    intro u h known
    rw [if_neg (older u h known)]
    exact known
  have loop : ∀ (n : Nat) (activation : Activation) (stage : Stage),
      (s.loops ++ [(⟨aggregate,resolveMethod,receiver,capabilityResolve,capabilityReject⟩,Stage.createIterator)])[n]? = some (activation,stage) →
      s.loops[n]? = some (activation,stage) ∨ n = s.loops.length ∧ activation.aggregate = aggregate ∧ activation.capabilityResolve = capabilityResolve := by
    intro n activation stage at_
    rcases Nat.lt_trichotomy n s.loops.length with short | same | long
    · rw [List.getElem?_append_left short] at at_
      exact Or.inl at_
    · rw [same,List.getElem?_append_right (Nat.le_refl _),Nat.sub_self] at at_
      cases at_
      exact Or.inr ⟨same,rfl,rfl⟩
    · rw [List.getElem?_eq_none (by rw [List.length_append]; exact long)] at at_
      cases at_
  constructor
  · intro u h found
    dsimp only at found
    split at found
    · rename_i same
      cases found
      subst same
      exact ⟨⟨Gather.freshLawful,rfl,by rintro callee ⟨⟩⟩,s.machine.heap.length,place,by dsimp only; omega,
        last.symm ▸ ⟨rfl,fun _ => ⟨rfl,rfl,Gather.freshCounted⟩,by rintro ⟨⟩⟩⟩
    · obtain ⟨sound,i,index,short,same⟩ := inv.aggregates u h found
      exact ⟨sound,i,index,by dsimp only; omega,(inside i short).symm ▸ same⟩
  · intro j u k at_
    obtain ⟨h,known,asked⟩ := inv.uncalled j u k (element j u k at_)
    exact ⟨h,kept u h known,asked⟩
  · intro i j u k first second
    exact inv.apart i j u k (element i u k first) (element j u k second)
  · intro n activation stage at_ open_
    rcases loop n activation stage at_ with before | ⟨_,name,resolve⟩
    · obtain ⟨h,known,rest⟩ := inv.loops n activation stage before open_
      exact ⟨h,kept _ h known,rest⟩
    · exact ⟨⟨capabilityResolve,Gather.fresh,[]⟩,if_pos name,resolve.symm,rfl,rfl⟩
  · intro i j a b x y first second openA openB same
    rcases loop i a x first with left | ⟨placeA,nameA,_⟩
    · rcases loop j b y second with right | ⟨_,nameB,_⟩
      · exact inv.alone i j a b x y left right openA openB same
      · obtain ⟨h,known,_⟩ := inv.loops i a x left openA
        exact absurd (same.trans nameB) (older _ h known)
    · rcases loop j b y second with right | ⟨placeB,_,_⟩
      · obtain ⟨h,known,_⟩ := inv.loops j b y right openB
        exact absurd (same.symm.trans nameA) (older _ h known)
      · exact placeA.trans placeB.symm

theorem Inv.put (inv : Inv s) {k activation next}
    (asks : next.isOpen = true → Asks s.histories activation ∧ ∀ (n : Nat) (other : Activation) (stage : Stage), n ≠ k →
      s.loops[n]? = some (other,stage) → stage.isOpen = true → other.aggregate ≠ activation.aggregate) :
    Inv { s with loops := s.loops.set k (activation,next) } := by
  have loop : ∀ (n : Nat) (other : Activation) (stage : Stage), (s.loops.set k (activation,next))[n]? = some (other,stage) →
      n = k ∧ other = activation ∧ stage = next ∨ n ≠ k ∧ s.loops[n]? = some (other,stage) := by
    intro n other stage at_
    rw [List.getElem?_set] at at_
    split at at_
    · rename_i same
      split at at_
      · cases at_
        exact Or.inl ⟨same.symm,rfl,rfl⟩
      · cases at_
    · rename_i away
      exact Or.inr ⟨Ne.symm away,at_⟩
  refine ⟨inv.aggregates,inv.uncalled,inv.apart,?_,?_⟩
  · intro n other stage at_ open_
    rcases loop n other stage at_ with ⟨_,rfl,rfl⟩ | ⟨_,before⟩
    · exact (asks open_).1
    · exact inv.loops n other stage before open_
  · intro i j a b x y first second openA openB same
    rcases loop i a x first with ⟨placeA,nameA,stageA⟩ | ⟨awayA,left⟩
    · rcases loop j b y second with ⟨placeB,_,_⟩ | ⟨awayB,right⟩
      · exact placeA.trans placeB.symm
      · subst nameA stageA
        exact absurd same.symm ((asks openA).2 j b y awayB right openB)
    · rcases loop j b y second with ⟨placeB,nameB,stageB⟩ | ⟨awayB,right⟩
      · subst nameB stageB
        exact absurd same ((asks openB).2 i a x awayA left openA)
      · exact inv.alone i j a b x y left right openA openB same

theorem resumeSpec (inv : Inv s) (k reply) :
    After (Operation.run (.resume k reply)) s (fun _ t => Inv t) Safe := by
  unfold Operation.run
  rw [afterBind,afterRead]
  split
  · exact inv
  · rename_i activation stage at_
    rw [afterBind,afterUpdate,afterBind]
    have parked : Inv { s with loops := s.loops.set k (activation,.returned) } := inv.put (by rintro ⟨⟩)
    have inside : k < s.loops.length := (List.getElem?_eq_some_iff.mp at_).1
    have others : ∀ (n : Nat) (other : Activation) (later : Stage), n ≠ k →
        (s.loops.set k (activation,.returned))[n]? = some (other,later) → stage.isOpen = true → later.isOpen = true → other.aggregate ≠ activation.aggregate := by
      intro n other later away found openStage openLater same
      rw [List.getElem?_set_ne (Ne.symm away)] at found
      exact away (inv.alone n k other activation later stage found at_ openLater openStage same)
    have asks : stage.isOpen = true → Asks s.histories activation ∧ Only { s with loops := s.loops.set k (activation,.returned) } activation.aggregate := by
      intro openStage
      refine ⟨inv.loops k activation stage at_ openStage,?_⟩
      intro n other later found openLater
      by_cases same : n = k
      · subst same
        rw [List.getElem?_set_self inside] at found
        cases found
        cases openLater
      · exact others n other later same found openStage openLater
    by_cases openStage : stage.isOpen = true
    · refine (advanceSpec parked activation stage reply asks).mono ?_ fun _ _ safe => safe
      rintro next t ⟨good,loops,asksAfter⟩
      refine good.put fun openNext => ⟨asksAfter openNext,?_⟩
      intro n other later away found openLater
      rw [loops] at found
      exact others n other later away found openStage openLater
    · have closed := advanceCloses (s := { s with loops := s.loops.set k (activation,.returned) }) activation stage reply (Bool.not_eq_true _ ▸ openStage)
      refine ((advanceSpec parked activation stage reply asks).both closed).mono ?_ fun _ _ safe => safe.1
      rintro next t ⟨⟨good,_,_⟩,shut⟩
      exact good.put fun openNext => absurd (shut.symm.trans openNext) Bool.false_ne_true

theorem runSpec (inv : Inv s) (o : Operation) : After o.run s (fun _ t => Inv t) Safe := by
  cases o with
  | start resolveMethod receiver capabilityResolve capabilityReject => exact startSpec inv ..
  | resume k reply => exact resumeSpec inv k reply
  | call element value => exact (callSpec inv element value).mono (fun _ _ done => done.1) fun _ _ safe => safe

theorem runsInv {m} (bare : ∀ i, isRecord (m.entry i) = false) (runs : Runs m s) : Inv s := by
  induction runs with
  | start =>
    refine ⟨by rintro v h ⟨⟩,?_,?_,by rintro n activation stage ⟨⟩,by rintro i j a b x y ⟨⟩⟩
    · intro i v k at_
      have none := bare i
      rw [at_] at none
      cases none
    · intro i j v k at_
      have none := bare i
      rw [at_] at none
      cases none
  | done before o result ih => exact (runSpec ih o).ok result
  | caught before o fault result caught ih => exact ((runSpec ih o).error result).2 caught
  | elsewhere before t aside ih => exact ih.aside aside rfl rfl

/-- The capability is resolved at most once, exactly when the iteration is over and every element was called, with the
values in the order of the iteration, and never after an abrupt end; the counter never underflows. -/
theorem resolvedWhenComplete {m : Machine} (bare : ∀ i, isRecord (m.entry i) = false) (runs : Runs m s) :
    (∀ aggregate h, s.histories aggregate = some h →
      h.gathered.delivered.length ≤ 1 ∧ h.callees.length = h.gathered.delivered.length ∧
      (h.gathered.delivered ≠ [] ↔ h.gathered.closed = true ∧ ∀ first ∈ h.gathered.answers, first.isSome = true) ∧
      (∀ values ∈ h.gathered.delivered, h.gathered.answers = values.map some) ∧ (∀ callee ∈ h.callees, callee = h.resolve) ∧
      (h.gathered.dropped = true → h.gathered.delivered = [])) ∧
    ∀ (o : Operation) (fault : Fault) (t : Running), o.run s = .error fault t → fault ≠ .panicked .underflow := by
  have inv := runsInv bare runs
  refine ⟨fun aggregate h known => ?_,fun o fault t failed => ((runSpec inv o).error failed).1⟩
  obtain ⟨sound,_⟩ := inv.aggregates aggregate h known
  have lawful := sound.lawful
  refine ⟨?_,sound.calls,lawful.exactly,?_,sound.callees,fun gone => lawful.undelivered (lawful.dropped gone)⟩
  · rcases lawful.once with none | ⟨values,one,_⟩
    · rw [none]
      exact Nat.zero_le _
    · rw [one]
      exact Nat.le_refl _
  · intro values at_
    rcases lawful.once with none | ⟨only,one,all⟩
    · rw [none] at at_
      cases at_
    · rw [one] at at_
      rw [List.mem_singleton.mp at_]
      exact all

end

section

def callbackMachine : Machine :=
  { bareMachine with intrinsics := { bareMachine.intrinsics with builtins := { bareMachine.intrinsics.builtins with slot := fun _ => some prototypeOnly } } }

theorem callbackBare (i) : isRecord (callbackMachine.entry i) = false := by
  cases i with
  | zero => rfl
  | succ i => rfl

def succeeds (o : Operation) (s : Running) : Bool :=
  match o.run s with
  | .ok .. => true
  | .error .. => false

theorem Runs.perform {m s} (before : Runs m s) (o) (done : succeeds o s = true) : Runs m (left o.run s) := by
  unfold succeeds at done
  split at done
  · rename_i result
    refine before.done o ?_
    rw [left,result]
  · cases done

def undefinedStep : Except EvalFailure (Bool × Value) := .ok (false,.undefined)

def firstAggregate : Value := (valueForHeapIndex 1).getD .undefined
def firstElement : Value := (valueForHeapIndex 2).getD .undefined

def asked : Running := left (Operation.run (.resume 0 undefinedStep))
  (left (Operation.run (.resume 0 undefinedStep)) (left (Operation.run (.start .undefined .undefined .undefined .null)) ⟨callbackMachine,fun _ => none,[]⟩))

def answeredTwice : Running := left (Operation.run (.call firstElement (.int32 8))) (left (Operation.run (.call firstElement (.int32 7))) asked)

def gatheredOne : Running := left (Operation.run (.resume 0 (.ok (true,.undefined))))
  (left (Operation.run (.resume 0 undefinedStep)) (left (Operation.run (.resume 0 undefinedStep)) (left (Operation.run (.resume 0 undefinedStep)) answeredTwice)))

theorem gatheredRuns : Runs callbackMachine gatheredOne :=
  (((((((((Runs.start.perform _ (by decide)).perform _ (by decide)).perform _ (by decide)).perform _ (by decide)).perform _
    (by decide)).perform _ (by decide)).perform _ (by decide)).perform _ (by decide)).perform _ (by decide))

theorem resolvedOneElement : (gatheredOne.histories firstAggregate).map (·.gathered.delivered) = some [[.int32 7]] ∧
    (gatheredOne.histories firstAggregate).map (·.gathered.delivered.length ≤ 1) = some True := by
  refine ⟨by decide,?_⟩
  cases known : gatheredOne.histories firstAggregate with
  | none =>
    have some_ : (gatheredOne.histories firstAggregate).isSome = true := by decide
    rw [known] at some_
    cases some_
  | some h => exact congrArg some (eq_true ((resolvedWhenComplete callbackBare gatheredRuns).1 firstAggregate h known).1)

end

end Bamts.Runtime.PromiseAll
