import Bamts.RuntimeForInStep

/-! Whole runs of the iteration: the program asks for one key after the other, and deletes and adds properties in between. -/
set_option linter.all false
namespace Bamts.Runtime.ForIn
open Effect Bytecode Linkage LayerWalk

def stateAt (m : Machine) (index : Nat) : ForInIteratorState :=
  match m.entry index with
  | .iterator (.keys state) => state
  | _ => fresh none

def ahead (levels : List Nat) (s : ForInIteratorState) : List Nat := (s.current.bind place).elim [] fun i => levels.dropWhile (· != i)

structure Asked where
  machine : Machine
  turn : Turn
  after : Machine

def Turn.name : Turn → Option EcmaString
  | .yields name => some name
  | _ => none

def Asked.yielded (a : Asked) : Option EcmaString := a.turn.name

def Asked.visits (index : Nat) (levels : List Nat) (a : Asked) (i : Nat) : Prop :=
  i ∈ ahead levels (stateAt a.machine index) ∧ i ∉ (ahead levels (stateAt a.after index)).tail

/- What the program leaves alone between two requests: the iterator, and the chain of the objects it walks. What the objects own
is free. -/
structure Leaves (index : Nat) (levels : List Nat) (m t : Machine) : Prop where
  iterator : t.heap[index]? = m.heap[index]?
  chain : ∀ current rest, rest <:+ levels → Chain m current rest → Chain t current rest

inductive Enumeration (index : Nat) (levels : List Nat) (start : Machine) : List Asked → Machine → Prop
  | start : Enumeration index levels start [] start
  | edit {asked : List Asked} {m t : Machine} : Enumeration index levels start asked m → Leaves index levels m t →
    Enumeration index levels start asked t
  | ask {asked : List Asked} {m t : Machine} {turn : Turn} : Enumeration index levels start asked m → forInNext index m = .ok turn t →
    Enumeration index levels start (asked ++ [⟨m,turn,t⟩]) t

section
variable {m t start : Machine} {index i : Nat} {v : Value} {current : Option Value} {levels rest : List Nat} {s : ForInIteratorState}
  {asked : List Asked}

def Asked.call (index : Nat) (levels : List Nat) (a : Asked) : Call Nat EcmaString :=
  ⟨view a.machine,cursor (stateAt a.machine index) (ahead levels (stateAt a.machine index))⟩

theorem At.stateAt (at_ : At index m s) : ForIn.stateAt m index = s := by
  rw [ForIn.stateAt,Machine.entry,List.getD_eq_getElem?_getD,show m.heap[index]? = _ from at_]
  rfl

theorem dropTo {near far} (distinct : (near ++ i :: far).Nodup) : (near ++ i :: far).dropWhile (· != i) = i :: far := by
  induction near with
  | nil => simp
  | cons first near ih =>
    have apart : first ≠ i := fun same => (List.nodup_cons.mp distinct).1 (same ▸ List.mem_append_right _ List.mem_cons_self)
    have differs : (first != i) = true := bne_iff_ne.mpr apart
    rw [List.cons_append,List.dropWhile_cons,if_pos differs]
    exact ih (List.nodup_cons.mp distinct).2

theorem Stands.ahead (stands : Stands index m s rest) (distinct : levels.Nodup) (part : rest <:+ levels) : ForIn.ahead levels s = rest := by
  have chain := stands.chain
  unfold ForIn.ahead
  generalize s.current = at_ at chain
  cases chain with
  | ends => rfl
  | level there _ _ _ =>
    obtain ⟨near,rfl⟩ := part
    rw [Option.bind_some,(slotPlace.mp there).1]
    exact dropTo distinct

theorem Stands.leaves (stands : Stands index m s rest) (leaves : Leaves index levels m t) (part : rest <:+ levels) : Stands index t s rest :=
  ⟨leaves.iterator.trans stands.at_,leaves.chain _ _ part stands.chain,stands.unvisited,stands.idle,stands.over_⟩

-- How a run stands: at a cursor of the walk over the levels, after the calls of the walk that its requests are.
structure Running (index : Nat) (levels : List Nat) (asked : List Asked) (m : Machine) : Prop where
  part : ahead levels (stateAt m index) <:+ levels
  stands : Stands index m (stateAt m index) (ahead levels (stateAt m index))
  calls : Calls (.start levels) (asked.map (Asked.call index levels)) (cursor (stateAt m index) (ahead levels (stateAt m index)))
  answers : ∀ a ∈ asked, a.turn = .of (a.call index levels).yielded ∧
    (a.call index levels).after.layers = ahead levels (stateAt a.after index)

theorem Running.first (at_ : At index m (fresh current)) (chain : Chain m current levels) : Running index levels [] m := by
  have stands : Stands index m (fresh current) levels := ⟨at_,chain,fun _ member => absurd member List.not_mem_nil,fun _ => rfl,fun _ => rfl⟩
  have here := stands.ahead chain.distinct (List.suffix_refl _)
  have state := at_.stateAt
  refine ⟨?_,?_,?_,fun _ member => absurd member List.not_mem_nil⟩
  · rw [state,here]
  · rw [state,here]
    exact stands
  · rw [state,here]
    exact .none

theorem Running.edit (running : Running index levels asked m) (leaves : Leaves index levels m t) : Running index levels asked t := by
  have stands := running.stands.leaves leaves running.part
  have same : stateAt t index = stateAt m index := stands.at_.stateAt
  refine ⟨?_,?_,?_,running.answers⟩
  · rw [same]
    exact running.part
  · rw [same]
    exact stands
  · rw [same]
    exact running.calls

theorem Running.ask (running : Running index levels asked m) (distinct : levels.Nodup) {turn} (done : forInNext index m = .ok turn t) :
    Running index levels (asked ++ [⟨m,turn,t⟩]) t := by
  have spec := forInNextSpec running.stands
  rw [After,done] at spec
  obtain ⟨answer,_,s',stands,here⟩ := spec
  have state := stands.at_.stateAt
  have walked := walkSpec (view m) (ahead levels (stateAt m index))
    ((cursor (stateAt m index) (ahead levels (stateAt m index))).pending (view m)) (stateAt m index).visitedNames
  have part := walked.parts.trans running.part
  have left := stands.ahead distinct part
  refine ⟨?_,?_,?_,fun a member => ?_⟩
  · rw [state,left]
    exact part
  · rw [state,left]
    exact stands
  · rw [state,left,here,List.map_append]
    exact .more running.calls (view m)
  · rcases List.mem_append.mp member with old | now
    · exact running.answers a old
    · obtain rfl := List.mem_singleton.mp now
      refine ⟨answer,?_⟩
      rw [state,left]
      rfl

theorem Enumeration.running (run : Enumeration index levels start asked m) (distinct : levels.Nodup) (begun : Running index levels [] start) :
    Running index levels asked m := by
  induction run with
  | start => exact begun
  | edit _ leaves ih => exact ih.edit leaves
  | ask _ done ih => exact ih.ask distinct done

theorem yieldedIs {a : Asked} (answer : a.turn = .of (a.call index levels).yielded) : a.yielded = (a.call index levels).yielded := by
  rw [Asked.yielded,answer]
  cases (a.call index levels).yielded with
  | none => rfl
  | some name => rfl

theorem Running.once (running : Running index levels asked m) (distinct : levels.Nodup) : (asked.filterMap Asked.yielded).Nodup := by
  have once := (callsTold distinct running.calls).once
  rw [List.filterMap_map] at once
  have same : asked.filterMap Asked.yielded = asked.filterMap (Call.yielded ∘ Asked.call index levels) :=
    List.filterMap_congr fun a member => yieldedIs (running.answers a member).1
  rw [same]
  exact once

theorem Enumeration.upTo (run : Enumeration index levels start asked m) :
    ∀ (first : List Asked) (a : Asked) (later : List Asked), asked = first ++ a :: later → Enumeration index levels start first a.machine ∧ forInNext index a.machine = .ok a.turn a.after := by
  induction run with
  | start => exact fun first a later parts => absurd parts.symm (List.append_ne_nil_of_right_ne_nil first (List.cons_ne_nil _ _))
  | edit _ _ ih => exact ih
  | ask before done ih =>
    intro first a later parts
    rcases List.eq_nil_or_concat later with rfl | ⟨later,last,rfl⟩
    · obtain ⟨rfl,same⟩ := List.append_inj' parts rfl
      cases same
      exact ⟨before,done⟩
    · rw [List.concat_eq_append,← List.cons_append,← List.append_assoc] at parts
      obtain ⟨same,_⟩ := List.append_inj' parts rfl
      exact ih first a later same

theorem Running.visits (running : Running index levels asked m) {a} (member : a ∈ asked) :
    (a.call index levels).visits i ↔ a.visits index levels i := by
  rw [Call.visits,(running.answers a member).2]
  rfl

theorem yieldedFrom {a : Asked} {name : EcmaString} (distinct : levels.Nodup) (before : Running index levels asked a.machine)
    (done : forInNext index a.machine = .ok a.turn a.after) (yields : a.turn = .yields name) :
    ∃ near i far, levels = near ++ i :: far ∧ described a.machine i name = some true ∧
      ∀ e ∈ near, ∃ b ∈ asked ++ [a], b.visits index levels e ∧ (view b.machine).shows e name = none := by
  have running : Running index levels (asked ++ [a]) a.after := before.ask distinct done
  have last : a ∈ asked ++ [a] := List.mem_append_right _ (List.mem_singleton.mpr rfl)
  have answered : (next (view a.machine) (cursor (stateAt a.machine index) (ahead levels (stateAt a.machine index)))).1 = some name := by
    have same := yieldedIs (running.answers a last).1
    rw [Asked.yielded,yields] at same
    exact same.symm
  obtain ⟨near,i,far,whole,_,shown,lacks⟩ := answeredFrom distinct before.calls answered
  refine ⟨near,i,far,whole,shown,fun e member => ?_⟩
  obtain ⟨k,inside,visits,none_⟩ := lacks e member
  have inside : k ∈ (asked ++ [a]).map (Asked.call index levels) := by
    rw [List.map_append]
    exact inside
  obtain ⟨b,here,rfl⟩ := List.mem_map.mp inside
  exact ⟨b,here,(running.visits here).mp visits,none_⟩

theorem shownYielded {near far : List Nat} {a : Asked} {name : EcmaString} (whole : levels = near ++ i :: far) (distinct : levels.Nodup)
    (before : Running index levels asked a.machine) (done : forInNext index a.machine = .ok a.turn a.after) (over_ : a.turn = .ended)
    (shown : ∀ b ∈ asked ++ [a], (view b.machine).shows i name = some true)
    (lacks : ∀ b ∈ asked ++ [a], ∀ e ∈ near, described b.machine e name = none) : ∃ b ∈ asked ++ [a], b.turn = .yields name := by
  have running : Running index levels (asked ++ [a]) a.after := before.ask distinct done
  have last : a ∈ asked ++ [a] := List.mem_append_right _ (List.mem_singleton.mpr rfl)
  obtain ⟨answer,behind⟩ := running.answers a last
  have ends : (a.call index levels).yielded = none := by
    rw [← yieldedIs answer,Asked.yielded,over_]
    rfl
  have left : ahead levels (stateAt a.after index) = [] := behind.symm.trans ((walkSpec _ _ _ _).done ends)
  have calls := running.calls
  rw [left] at calls
  subst whole
  have shown' : ∀ k ∈ (asked ++ [a]).map (Asked.call index (near ++ i :: far)), k.view.shows i name = some true := by
    intro k member
    obtain ⟨b,inside,rfl⟩ := List.mem_map.mp member
    exact shown b inside
  have lacks' : ∀ k ∈ (asked ++ [a]).map (Asked.call index (near ++ i :: far)), ∀ e ∈ near, k.view.described e name = none := by
    intro k member
    obtain ⟨b,inside,rfl⟩ := List.mem_map.mp member
    exact lacks b inside
  obtain ⟨k,member,yields⟩ := shownAnswered calls shown' lacks' rfl
  obtain ⟨b,inside,rfl⟩ := List.mem_map.mp member
  refine ⟨b,inside,?_⟩
  rw [(running.answers b inside).1,yields]
  rfl

theorem runsEnd (distinct : levels.Nodup) (begun : Running index levels [] start) (calls)
    (runs : ∀ n, ∃ t, Enumeration index levels start ((List.range n).map calls) t) : ∃ n, (calls n).turn = .ended := by
  have at_ : ∀ n, Running index levels ((List.range n).map calls) (calls n).machine ∧
      forInNext index (calls n).machine = .ok (calls n).turn (calls n).after := by
    intro n
    obtain ⟨t,run⟩ := runs (n+1)
    rw [List.range_succ,List.map_append] at run
    obtain ⟨before,done⟩ := run.upTo _ _ [] rfl
    exact ⟨before.running distinct begun,done⟩
  have follows : ∀ n, ((calls (n+1)).call index levels).before = ((calls n).call index levels).after := by
    intro n
    have calls := (at_ (n+1)).1.calls
    rw [List.range_succ,List.map_append,List.map_append] at calls
    exact callsLast calls
  obtain ⟨n,over_⟩ := answersEnd (fun n => view (calls n).machine) (fun n => ((calls n).call index levels).before) follows
  refine ⟨n,?_⟩
  have running := (at_ n).1.ask distinct (at_ n).2
  have answer := (running.answers _ (List.mem_append_right _ (List.mem_singleton.mpr rfl))).1
  have none_ : ((calls n).call index levels).yielded = none := over_
  rw [none_] at answer
  exact answer

end

end Bamts.Runtime.ForIn
