import Bamts.RegexpModel
import Bamts.FirstKept

/-! The matcher that drops equal states at each level of a repetition, against the one that keeps them all. -/
set_option linter.all false
namespace Bamts.Regexp
open FirstKept

inductive Agree {α : Type} (R : α → α → Prop) : Except Stop α → Except Stop α → Prop where
  | left (y : Except Stop α) : Agree R (.error .budgetExhausted) y
  | right (x : Except Stop α) : Agree R x (.error .budgetExhausted)
  | stopped (e f : Stop) : Agree R (.error e) (.error f)
  | done {a b : α} (related : R a b) : Agree R (.ok a) (.ok b)

section
variable {α β : Type} {R : α → α → Prop} {S : β → β → Prop} {x y : Except Stop α}

theorem Agree.bind {f g} (first : Agree R x y) (later : ∀ a b, R a b → Agree S (f a) (g b)) : Agree S (x >>= f) (y >>= g) := by
  cases first with
  | left => exact .left _
  | right => exact .right _
  | stopped e f => exact .stopped e f
  | done related => exact later _ _ related

theorem Agree.map {f g} (first : Agree R x y) (later : ∀ a b, R a b → S (f a) (g b)) : Agree S (x.map f) (y.map g) := by
  cases first with
  | left => exact .left _
  | right => exact .right _
  | stopped e f => exact .stopped e f
  | done related => exact .done (later _ _ related)

theorem Agree.same (x) (refl : ∀ a, R a a) : Agree R x x := by
  cases x with
  | ok a => exact .done (refl a)
  | error e => exact .stopped e e

end

section
variable {α β : Type} {f g : α → Except Stop (List β)} {xs ys : List α}

def found (f : α → Except Stop (List β)) (a : α) : List β :=
  match f a with
  | .ok l => l
  | .error _ => []

theorem collectCases (f : α → Except Stop (List β)) (xs) :
    ((∀ a ∈ xs, f a = .ok (found f a)) ∧ collect f xs = .ok (xs.flatMap (found f))) ∨ ∃ a ∈ xs, ∃ e, f a = .error e ∧ collect f xs = .error e := by
  induction xs with
  | nil => exact .inl ⟨fun _ none => absurd none List.not_mem_nil,rfl⟩
  | cons a xs ih =>
    cases answer : f a with
    | error e => exact .inr ⟨a,List.mem_cons_self,e,answer,by rw [collect,answer]; rfl⟩
    | ok l =>
      have here : f a = .ok (found f a) := by rw [found,answer]
      rcases ih with ⟨all,done⟩ | ⟨b,among,e,stops,done⟩
      · refine .inl ⟨List.forall_mem_cons.mpr ⟨here,all⟩,?_⟩
        rw [collect,here,done]
        rfl
      · refine .inr ⟨b,List.mem_cons_of_mem _ among,e,stops,?_⟩
        rw [collect,answer,done]
        rfl

theorem Agree.collect [DecidableEq α] [DecidableEq β] (alike : Alike xs ys) (pointwise : ∀ a, Agree Alike (f a) (g a)) : Agree Alike (collect f xs) (collect g ys) := by
  rcases collectCases f xs with ⟨all,done⟩ | ⟨a,among,e,stops,done⟩
  · rcases collectCases g ys with ⟨all',done'⟩ | ⟨b,among',e',stops',done'⟩
    · rw [done,done']
      refine .done (alike.flatMap fun a among => ?_)
      have both := pointwise a
      rw [all a among,all' a ((alike.mem a).mp among)] at both
      cases both with
      | done related => exact related
    · have both := pointwise b
      rw [all b ((alike.mem b).mpr among'),stops'] at both
      rw [done']
      cases both with
      | right => exact .right _
  · rcases collectCases g ys with ⟨all',done'⟩ | ⟨b,among',e',stops',done'⟩
    · have both := pointwise a
      rw [stops,all' a ((alike.mem a).mp among)] at both
      rw [done]
      cases both with
      | left => exact .left _
    · rw [done,done']
      exact .stopped _ _

end

namespace Run

def collapsing (run : Run) (collapse : Bool) : Run := { run with collapse := collapse }

section
variable (run : Run) {f g : State → Except Stop (List State)}

def goesOn (min count : Nat) (prior matched : State) : Bool := !(decide (matched.position = prior.position) && decide (min ≤ count+1))

def advances (body : State → Except Stop (List State)) (min count : Nat) (prior : State) : Except Stop (List State) :=
  (body prior).map (List.filter (goesOn min count prior))

theorem nextLevelCollect (body min count level next) :
    run.nextLevel body min count level next = (collect (advances body min count) level).map (List.foldl run.keep next) := by
  induction level generalizing next with
  | nil => rfl
  | cons prior rest ih =>
    rw [nextLevel,collect]
    cases answer : body prior with
    | error e =>
      rw [advances,answer]
      rfl
    | ok matches_ =>
      have taken : advances body min count prior = .ok (matches_.filter (goesOn min count prior)) := by rw [advances,answer]; rfl
      rw [taken]
      have step := ih ((matches_.filter (goesOn min count prior)).foldl run.keep next)
      refine Eq.trans step ?_
      cases collect (advances body min count) rest with
      | error e => rfl
      | ok later => exact congrArg Except.ok (List.foldl_append).symm

theorem keepCollapsing (next) : (run.collapsing true).keep next = FirstKept.keep next := by
  unfold Run.keep FirstKept.keep
  simp only [collapsing,Bool.true_and,List.elem_eq_mem,decide_eq_true_eq]

theorem keepPlain (next found : List State) : found.foldl (run.collapsing false).keep next = next ++ found := by
  induction found generalizing next with
  | nil => exact (List.append_nil _).symm
  | cons matched found ih =>
    rw [List.foldl_cons,ih,show (run.collapsing false).keep next matched = next ++ [matched] from rfl,List.append_assoc,List.singleton_append]

theorem nextLevelAgrees (bodies : ∀ s, Agree Alike (f s) (g s)) (min count) {level level'} (alike : Alike level level') :
    Agree Alike ((run.collapsing true).nextLevel f min count level []) ((run.collapsing false).nextLevel g min count level' []) := by
  rw [nextLevelCollect,nextLevelCollect]
  have taken : ∀ prior, Agree Alike (advances f min count prior) (advances g min count prior) := fun prior =>
    (bodies prior).map fun _ _ related => related.filter _
  refine (Agree.collect alike taken).map fun found found' related => ?_
  have kept : found.foldl (run.collapsing true).keep [] = keepAll [] found :=
    congrArg (fun step => List.foldl step [] found) (funext fun next => run.keepCollapsing next)
  rw [kept,keepPlain,List.nil_append]
  exact (Alike.firsts _).trans related

theorem levelsAgree (bodies : ∀ s, Agree Alike (f s) (g s)) (min remaining count) {level level'} (alike : Alike level level') (total total') :
    Agree (List.Forall₂ Alike) ((run.collapsing true).levels f min remaining count level total)
      ((run.collapsing false).levels g min remaining count level' total') := by
  induction remaining generalizing count level level' total total' with
  | zero => exact .done (.cons alike .nil)
  | succ remaining ih =>
    refine (run.nextLevelAgrees bodies min count alike).bind fun next next' related => ?_
    rw [related.isEmpty]
    cases next'.isEmpty with
    | true => exact .done (.cons alike .nil)
    | false =>
      simp only [Bool.false_eq_true,if_false]
      split
      · exact .left _
      · split
        · exact .right _
        · exact (ih (count+1) related _ _).bind fun _ _ later => .done (.cons alike later)

theorem inOrderAlike (greedy) {levels levels'} (alike : List.Forall₂ Alike levels levels') :
    Alike (inOrder greedy levels) (inOrder greedy levels') := by
  cases greedy with
  | true => exact Alike.flatten (List.forall₂_reverse_iff.mpr alike)
  | false => exact Alike.flatten alike

theorem repeatedAgrees (bodies : ∀ s, Agree Alike (f s) (g s)) (min max greedy s) :
    Agree Alike ((run.collapsing true).repeated f min max greedy s) ((run.collapsing false).repeated g min max greedy s) := by
  exact (run.levelsAgree bodies min _ 0 (.refl [s]) 1 1).bind fun _ _ related => .done (inOrderAlike greedy (List.forall₂_drop min related))

theorem lookBehindAgrees (bodies : ∀ s, Agree Alike (f s) (g s)) (s fuel begin) :
    Agree Alike ((run.collapsing true).lookBehind f s fuel begin) ((run.collapsing false).lookBehind g s fuel begin) := by
  induction fuel generalizing begin with
  | zero =>
    refine (bodies _).bind fun found found' related => ?_
    have kept := related.filter fun matched => decide (matched.position = s.position)
    split <;> exact .done kept
  | succ fuel ih =>
    refine (bodies _).bind fun found found' related => ?_
    have kept := related.filter fun matched => decide (matched.position = s.position)
    split
    · exact .done kept
    · refine (Agree.same (R := Eq) _ fun _ => rfl).bind fun first first' same => ?_
      subst same
      dsimp only
      split
      · exact .done kept
      · exact (ih _).bind fun _ _ later => .done (kept.append later)

theorem backreferenceLoopSame (stop fuel captured candidate) :
    (run.collapsing true).backreferenceLoop stop fuel captured candidate = (run.collapsing false).backreferenceLoop stop fuel captured candidate := by
  induction fuel generalizing captured candidate with
  | zero => rfl
  | succ fuel ih =>
    simp only [backreferenceLoop,ih]
    rfl

theorem matchReferenceSame (index s) : (run.collapsing true).matchReference index s = (run.collapsing false).matchReference index s := by
  unfold matchReference matchBackreference
  simp only [backreferenceLoopSame]

theorem matchNamedSame (name s) : (run.collapsing true).matchNamed name s = (run.collapsing false).matchNamed name s := by
  unfold matchNamed
  rw [show (run.collapsing true).names = (run.collapsing false).names from rfl]
  split
  · exact run.matchReferenceSame _ s
  · rfl

theorem lookedAlike (positive s) {candidates candidates'} (alike : Alike candidates candidates') :
    Alike (looked positive s candidates) (looked positive s candidates') := by
  unfold looked
  rw [alike.isEmpty]
  split
  · exact alike.map _
  · exact .refl _

theorem mapMCollect {α} (f : α → Except Stop α) (xs) : xs.mapM f = collect (fun x => (f x).map fun y => [y]) xs := by
  induction xs with
  | nil => rfl
  | cons x xs ih =>
    rw [List.mapM_cons,collect,ih]
    cases f x with
    | error e => rfl
    | ok y =>
      cases collect (fun x => (f x).map fun y => [y]) xs with
      | error e => rfl
      | ok ys => rfl

theorem capturesAgree (index begin) {found found'} (alike : Alike found found') :
    Agree Alike (found.mapM (capture index begin)) (found'.mapM (capture index begin)) := by
  rw [mapMCollect,mapMCollect]
  exact Agree.collect alike fun _ => Agree.same _ Alike.refl

end

section
variable (run : Run)

mutual

theorem matchNodeAgrees (node : Node) (s : State) : Agree Alike ((run.collapsing true).matchNode node s) ((run.collapsing false).matchNode node s) := by
  cases node with
  | sequence nodes => exact matchSequenceAgrees nodes s
  | alternation branches => exact matchBranchesAgrees branches s
  | literal expected => exact .same _ Alike.refl
  | dot => exact .same _ Alike.refl
  | class_ set => exact .same _ Alike.refl
  | start => exact .same _ Alike.refl
  | end_ => exact .same _ Alike.refl
  | wordBoundary positive => exact .same _ Alike.refl
  | group index body =>
    rw [matchNode,matchNode]
    exact (matchNodeAgrees body s).bind fun _ _ related => capturesAgree index s.position related
  | backReference index =>
    rw [matchNode,matchNode,run.matchReferenceSame]
    exact .same _ Alike.refl
  | namedBackReference name =>
    rw [matchNode,matchNode,run.matchNamedSame]
    exact .same _ Alike.refl
  | look body behind positive =>
    rw [matchNode,matchNode]
    have later : ∀ found found' : List State, Alike found found' →
        Agree Alike (pure (looked positive s found)) (pure (looked positive s found')) := fun _ _ related => .done (lookedAlike positive s related)
    cases behind with
    | true => exact (run.lookBehindAgrees (matchNodeAgrees body) s _ 0).bind later
    | false => exact (matchNodeAgrees body s).bind later
  | repeat_ => exact .stopped _ _

theorem matchBranchesAgrees (branches : List Node) (s : State) :
    Agree Alike ((run.collapsing true).matchBranches branches s) ((run.collapsing false).matchBranches branches s) := by
  cases branches with
  | nil => exact .done (.refl [])
  | cons branch rest =>
    rw [matchBranches,matchBranches]
    exact (matchNodeAgrees branch s).bind fun _ _ first => (matchBranchesAgrees rest s).bind fun _ _ later => .done (first.append later)

theorem matchSequenceAgrees (nodes : List Node) (s : State) :
    Agree Alike ((run.collapsing true).matchSequence nodes s) ((run.collapsing false).matchSequence nodes s) := by
  cases nodes with
  | nil => exact .done (.refl [s])
  | cons first rest =>
    have later : ∀ found found' : List State, Alike found found' → Agree Alike (collect ((run.collapsing true).matchSequence rest) found)
        (collect ((run.collapsing false).matchSequence rest) found') := fun _ _ related => Agree.collect related (matchSequenceAgrees rest)
    cases first with
    | repeat_ body min max greedy =>
      rw [matchSequence,matchSequence]
      exact (run.repeatedAgrees (matchNodeAgrees body) min max greedy s).bind later
    | _ =>
      rw [matchSequence,matchSequence]
      · exact (matchNodeAgrees _ s).bind later
      all_goals
        intros
        contradiction

end

end

end Run

end Bamts.Regexp
