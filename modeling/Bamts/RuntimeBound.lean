import Bamts.HopChain
import Bamts.RuntimeSolvent

/-! Bound functions: a call through a chain of them is flattened in one loop, from the outside in. -/
set_option linter.all false
namespace Bamts.Runtime
open Effect HopChain Relation

structure BoundCall where
  target : Value
  thisValue : Value
  arguments : List Value
  newTarget : Value
  deriving DecidableEq

def Machine.boundOf (m : Machine) (target : Value) : Except Fault (Option BoundCallable) := do
  match (← m.slot target).map m.entry with
  | some (.nativeFunction _ (.bound bound)) => .ok (some bound)
  | _ => .ok none

structure Flattening where
  target : Value
  receiver : Value
  newTarget : Value
  total : Nat
  segments : List (List Value)

def argumentLimitExceeded (limit : UInt32) (requested : Nat) : Fault :=
  runtimeFault (.argumentLimitExceeded limit (if requested < 2^32 then .ofNat requested else .ofNat (2^32-1)))

def Flattening.next (s : Flattening) (bound : BoundCallable) (total : Nat) : Flattening where
  target := bound.target
  receiver := bound.thisValue
  newTarget := if s.newTarget = s.target then bound.target else s.newTarget
  total := total
  segments := s.segments ++ [bound.arguments]

-- The fuel runs out on a round of bound functions only, where the loop goes on until the arguments reach the limit.
def Machine.flatten (m : Machine) (limit : UInt32) : Nat → Flattening → Except Fault Flattening
  | 0, _ => .error (.panicked .unexpected)
  | fuel+1, s => do
    match ← m.boundOf s.target with
    | none => .ok s
    | some bound =>
      let total := s.total+bound.arguments.length
      if 2^64 ≤ total then .error (runtimeFault (.argumentLimitExceeded limit (.ofNat (2^32-1))))
      else if limit.toNat < total then .error (argumentLimitExceeded limit total)
      else m.flatten limit fuel (s.next bound total)

def Machine.flattenBound (m : Machine) (limit : UInt32) (callee thisValue : Value) (arguments : List Value) (newTarget : Value) :
    Except Fault BoundCall := do
  let s ← m.flatten limit (m.heap.length+2) ⟨callee,thisValue,newTarget,arguments.length,[]⟩
  .ok ⟨s.target,s.receiver,s.segments.reverse.flatten ++ arguments,s.newTarget⟩

-- `[[Call]]` and `[[Construct]]` of one bound function.
inductive Unwraps (m : Machine) : BoundCall → BoundCall → Prop where
  | wrapper {call : BoundCall} {bound : BoundCallable} (found : m.boundOf call.target = .ok (some bound)) :
    Unwraps m call ⟨bound.target,bound.thisValue,bound.arguments ++ call.arguments,
      if call.newTarget = call.target then bound.target else call.newTarget⟩

def Innermost (m : Machine) (call : BoundCall) : Prop := m.boundOf call.target = .ok none

def WithinLimit (m : Machine) (limit : UInt32) (call last : BoundCall) : Prop :=
  Innermost m call ∨ last.arguments.length ≤ limit.toNat

def Machine.boundNext (m : Machine) (target : Value) : Except Fault (Option Value) :=
  (m.boundOf target).map (Option.map BoundCallable.target)

section
variable {m : Machine} {limit : UInt32} {call last : BoundCall} {s : Flattening}

theorem boundEntry {target bound} (found : m.boundOf target = .ok (some bound)) :
    ∃ header, HeapEntry.nativeFunction header (.bound bound) ∈ m.heap := by
  unfold Machine.boundOf at found
  cases slot : m.slot target with
  | error fault =>
    rw [slot] at found
    cases found
  | ok index =>
    rw [slot] at found
    cases index with
    | none => cases found
    | some index =>
      replace found : (match some (m.entry index) with
        | some (.nativeFunction _ (.bound bound)) => Except.ok (some bound)
        | _ => .ok none) = Except.ok (ε := Fault) (some bound) := found
      cases entry : m.entry index with
      | nativeFunction header callable => cases callable with
        | bound other =>
          rw [entry] at found
          cases found
          refine ⟨header,?_⟩
          unfold Machine.entry at entry
          rw [List.getD_eq_getElem?_getD] at entry
          cases there : m.heap[index]? with
          | none =>
            rw [there] at entry
            cases entry
          | some at_ =>
            rw [there] at entry
            exact List.mem_of_getElem? (there.trans (congrArg some entry))
        | builtin id =>
          rw [entry] at found
          cases found
      | _ =>
        rw [entry] at found
        cases found

theorem unwrapNext {next} (unwraps : Unwraps m call next) : m.boundNext call.target = .ok (some next.target) := by
  cases unwraps with
  | wrapper found =>
    rw [Machine.boundNext,found]
    rfl

theorem chainEnds (chain : ReflTransGen (Unwraps m) call last) (innermost : Innermost m last) :
    ∃ n, Ends m.boundNext call.target n last.target := by
  induction chain using ReflTransGen.head_induction_on with
  | refl =>
    refine ⟨0,.stop ?_⟩
    rw [Machine.boundNext,show m.boundOf last.target = .ok none from innermost]
    rfl
  | head first _ ih =>
    obtain ⟨n,ends⟩ := ih
    exact ⟨n+1,.hop (unwrapNext first) ends⟩

def boundTargets : List HeapEntry → List Value
  | [] => []
  | .nativeFunction _ (.bound bound) :: rest => bound.target :: boundTargets rest
  | _ :: rest => boundTargets rest

theorem boundTargetsLength (heap) : (boundTargets heap).length ≤ heap.length := by
  fun_induction boundTargets heap with
  | case1 => exact Nat.le_refl _
  | case2 header bound rest ih => exact Nat.succ_le_succ ih
  | case3 entry rest other ih => exact Nat.le_succ_of_le ih

theorem boundTargetsMem {header bound heap} (inside : .nativeFunction header (.bound bound) ∈ heap) :
    bound.target ∈ boundTargets heap := by
  fun_induction boundTargets heap with
  | case1 => cases inside
  | case2 header bound rest ih =>
    obtain same | later := List.mem_cons.mp inside
    · cases same
      exact List.mem_cons_self
    · exact List.mem_cons_of_mem _ (ih later)
  | case3 entry rest other ih =>
    obtain same | later := List.mem_cons.mp inside
    · exact absurd same.symm (other _ _)
    · exact ih later

theorem boundChainShort {target end_ n} (ends : Ends m.boundNext target n end_) : n < m.heap.length+1 := by
  suffices closed : ∀ v ∈ target :: boundTargets m.heap, ∀ next, m.boundNext v = .ok (some next) → next ∈ target :: boundTargets m.heap from
    (ends.bound closed List.mem_cons_self).trans_le (Nat.succ_le_succ (boundTargetsLength m.heap))
  intro v _ next hop
  unfold Machine.boundNext at hop
  cases found : m.boundOf v with
  | error fault =>
    rw [found] at hop
    cases hop
  | ok bound => cases bound with
    | none =>
      rw [found] at hop
      cases hop
    | some bound =>
      rw [found] at hop
      cases hop
      obtain ⟨header,inside⟩ := boundEntry found
      exact List.mem_cons_of_mem _ (boundTargetsMem inside)

structure At (s : Flattening) (given : List Value) (call : BoundCall) : Prop where
  target : s.target = call.target
  receiver : s.receiver = call.thisValue
  newTarget : s.newTarget = call.newTarget
  total : s.total = call.arguments.length
  arguments : s.segments.reverse.flatten ++ given = call.arguments

theorem At.next {given bound} (here : At s given call) :
    At (s.next bound (s.total+bound.arguments.length)) given ⟨bound.target,bound.thisValue,bound.arguments ++ call.arguments,
      if call.newTarget = call.target then bound.target else call.newTarget⟩ := by
  refine ⟨rfl,rfl,?_,?_,?_⟩
  · rw [Flattening.next,here.newTarget,here.target]
  · rw [Flattening.next,here.total,List.length_append,Nat.add_comm]
  · rw [Flattening.next,List.reverse_append,← here.arguments]
    simp

theorem argumentsGrow (chain : ReflTransGen (Unwraps m) call last) : call.arguments.length ≤ last.arguments.length := by
  induction chain with
  | refl => exact Nat.le_refl _
  | tail _ step ih =>
    cases step with
    | wrapper found =>
      rw [List.length_append]
      omega

theorem withinNext {next} (first : Unwraps m call next) (rest : ReflTransGen (Unwraps m) next last) :
    WithinLimit m limit call last ↔ last.arguments.length ≤ limit.toNat := by
  refine ⟨fun within => within.resolve_left fun innermost => ?_,Or.inr⟩
  cases first with
  | wrapper found =>
    rw [Innermost,found] at innermost
    cases innermost

theorem flattenRun {given fuel n} (chain : ReflTransGen (Unwraps m) call last) (innermost : Innermost m last) (here : At s given call)
    (ends : Ends m.boundNext call.target n last.target) (enough : n < fuel) :
    (WithinLimit m limit call last → ∃ t, m.flatten limit fuel s = .ok t ∧ At t given last) ∧
    (¬WithinLimit m limit call last → ∃ requested, m.flatten limit fuel s = .error (argumentLimitExceeded limit requested)) := by
  induction chain using ReflTransGen.head_induction_on generalizing s fuel n with
  | refl =>
    obtain ⟨fuel,rfl⟩ := Nat.exists_eq_succ_of_ne_zero (Nat.ne_of_gt (Nat.zero_lt_of_lt enough))
    refine ⟨fun _ => ⟨s,?_,here⟩,fun beyond => absurd (Or.inl innermost) beyond⟩
    rw [Machine.flatten,here.target,show m.boundOf last.target = .ok none from innermost]
    rfl
  | @head call next first rest ih =>
    obtain ⟨fuel,rfl⟩ := Nat.exists_eq_succ_of_ne_zero (Nat.ne_of_gt (Nat.zero_lt_of_lt enough))
    rw [withinNext first rest]
    have grow := argumentsGrow rest
    obtain ⟨n,rfl,ends⟩ := ends.after (unwrapNext first)
    cases first with
    | @wrapper bound found =>
      have after : At (s.next bound (s.total+bound.arguments.length)) given _ := here.next
      have total := after.total
      simp only [Flattening.next] at total grow
      have result : m.flatten limit (fuel+1) s = if 2^64 ≤ s.total+bound.arguments.length then
          .error (runtimeFault (.argumentLimitExceeded limit (.ofNat (2^32-1))))
        else if limit.toNat < s.total+bound.arguments.length then .error (argumentLimitExceeded limit (s.total+bound.arguments.length))
        else m.flatten limit fuel (s.next bound (s.total+bound.arguments.length)) := by
        rw [Machine.flatten,here.target,found]
        rfl
      have limited : limit.toNat < 2^32 := limit.toNat_lt
      rw [result]
      by_cases large : 2^64 ≤ s.total+bound.arguments.length
      · rw [if_pos large]
        refine ⟨fun within => by omega,fun _ => ⟨2^64,?_⟩⟩
        rw [argumentLimitExceeded,if_neg (by decide)]
      · rw [if_neg large]
        by_cases beyond : limit.toNat < s.total+bound.arguments.length
        · rw [if_pos beyond]
          exact ⟨fun within => by omega,fun _ => ⟨_,rfl⟩⟩
        · rw [if_neg beyond]
          have left : n < fuel := Nat.lt_of_succ_lt_succ enough
          obtain ⟨within,over_⟩ := ih after ends left
          refine ⟨fun fits => within (Or.inr fits),fun exceeds => over_ fun fits => ?_⟩
          obtain stop | fits := fits
          · obtain same | ⟨_,step,later⟩ := rest.cases_head
            · rw [← same,← total] at exceeds
              omega
            · exact exceeds ((withinNext step later).mp (Or.inl stop))
          · exact exceeds fits

/- A chain of bound functions is flattened to what unwrapping it one at a time comes to, as long as the arguments stay within the limit; else the
call fails with that limit. -/
theorem flattenUnwraps (chain : ReflTransGen (Unwraps m) call last) (innermost : Innermost m last) :
    (m.flattenBound limit call.target call.thisValue call.arguments call.newTarget = .ok last ↔ WithinLimit m limit call last) ∧
    (¬WithinLimit m limit call last → ∃ requested,
      m.flattenBound limit call.target call.thisValue call.arguments call.newTarget = .error (argumentLimitExceeded limit requested)) := by
  obtain ⟨n,ends⟩ := chainEnds chain innermost
  have enough : n < m.heap.length+2 := Nat.lt_succ_of_lt (boundChainShort ends)
  have start : At ⟨call.target,call.thisValue,call.newTarget,call.arguments.length,[]⟩ call.arguments call := ⟨rfl,rfl,rfl,rfl,rfl⟩
  have run : (WithinLimit m limit call last → _) ∧ _ := flattenRun chain innermost start ends enough
  obtain ⟨fits,exceeds⟩ := run
  have fails : ¬WithinLimit m limit call last → ∃ requested,
      m.flattenBound limit call.target call.thisValue call.arguments call.newTarget = .error (argumentLimitExceeded limit requested) := by
    intro beyond
    obtain ⟨requested,result⟩ := exceeds beyond
    refine ⟨requested,?_⟩
    rw [Machine.flattenBound,result]
    rfl
  refine ⟨⟨fun same => ?_,fun within => ?_⟩,fails⟩
  · by_contra beyond
    obtain ⟨requested,result⟩ := fails beyond
    rw [result] at same
    cases same
  · obtain ⟨t,result,there⟩ := fits within
    rw [Machine.flattenBound,result]
    show Except.ok (BoundCall.mk t.target t.receiver (t.segments.reverse.flatten ++ call.arguments) t.newTarget) = .ok last
    rw [there.target,there.receiver,there.arguments,there.newTarget]

end

def innerBound : BoundCallable := ⟨(valueForHeapIndex 1).getD .undefined,.null,[.int32 1]⟩
def outerBound : BoundCallable := ⟨(valueForHeapIndex 2).getD .undefined,.undefined,[.int32 2]⟩
def boundTwice : Machine :=
  { bareMachine with heap := bareMachine.heap ++ [.nativeFunction ⟨.empty,none,true⟩ (.builtin 0),
      .nativeFunction ⟨.empty,none,true⟩ (.bound innerBound),.nativeFunction ⟨.empty,none,true⟩ (.bound outerBound)] }

def constructTwice : BoundCall := ⟨(valueForHeapIndex 3).getD .undefined,.undefined,[.int32 3],(valueForHeapIndex 3).getD .undefined⟩
def unwrappedTwice : BoundCall := ⟨innerBound.target,.null,[.int32 1,.int32 2,.int32 3],innerBound.target⟩

theorem twiceUnwrapped : ReflTransGen (Unwraps boundTwice) constructTwice unwrappedTwice := by
  have outer : boundTwice.boundOf constructTwice.target = .ok (some outerBound) := rfl
  have inner : boundTwice.boundOf outerBound.target = .ok (some innerBound) := rfl
  have second : Unwraps boundTwice ⟨outerBound.target,.undefined,[.int32 2,.int32 3],outerBound.target⟩ unwrappedTwice := .wrapper inner
  exact .head (.wrapper outer) (.single second)

theorem flattenUnwrapsTwice :
    (boundTwice.flattenBound 3 constructTwice.target constructTwice.thisValue constructTwice.arguments constructTwice.newTarget = .ok unwrappedTwice ↔
      WithinLimit boundTwice 3 constructTwice unwrappedTwice) ∧
    (¬WithinLimit boundTwice 3 constructTwice unwrappedTwice → ∃ requested,
      boundTwice.flattenBound 3 constructTwice.target constructTwice.thisValue constructTwice.arguments constructTwice.newTarget =
        .error (argumentLimitExceeded 3 requested)) :=
  flattenUnwraps twiceUnwrapped rfl

theorem overLimit :
    ¬∀ (m : Machine) (limit : UInt32) (call last : BoundCall), ReflTransGen (Unwraps m) call last → Innermost m last →
      m.flattenBound limit call.target call.thisValue call.arguments call.newTarget = .ok last := by
  intro always
  have same := always boundTwice 2 constructTwice unwrappedTwice twiceUnwrapped rfl
  have failed : boundTwice.flattenBound 2 constructTwice.target constructTwice.thisValue constructTwice.arguments constructTwice.newTarget =
      .error (argumentLimitExceeded 2 3) := rfl
  rw [failed] at same
  cases same

end Bamts.Runtime
