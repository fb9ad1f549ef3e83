import Bamts.Effect
import Mathlib.Data.List.Perm.Basic
import Mathlib.Tactic.Linarith

/-! Stable arrangements of a list, and merging with a comparison that runs code: it may change a state,
answer as it likes, or fail. -/
set_option linter.all false
namespace Bamts.StableSort
open Effect

variable {α σ ε : Type}

def alike (le : α → α → Bool) (x y : α) : Bool := le x y && le y x

def Sorted (le : α → α → Bool) (xs : List α) : Prop := xs.Pairwise fun x y => le x y = true

structure Arranged (inside : α → Prop) (le : α → α → Bool) (source out : List α) : Prop where
  perm : out.Perm source
  sorted : Sorted le out
  stable : ∀ x, inside x → out.filter (alike le x) = source.filter (alike le x)

structure Preorder (inside : α → Prop) (le : α → α → Bool) : Prop where
  total : ∀ x y, inside x → inside y → le x y = true ∨ le y x = true
  trans : ∀ x y z, inside x → inside y → inside z → le x y = true → le y z = true → le x z = true

section Unique
variable {inside : α → Prop} {le : α → α → Bool} {xs ys : List α}

theorem Preorder.refl (order : Preorder inside le) {x} (insideX : inside x) : le x x = true :=
  (order.total x x insideX insideX).elim id id

theorem Preorder.alikeSelf (order : Preorder inside le) {x} (insideX : inside x) : alike le x x = true := by
  rw [alike,order.refl insideX,Bool.true_and]

theorem headLeast {x y} (order : Preorder inside le) (all : ∀ z ∈ x :: xs, inside z) (first : Sorted le (x :: xs)) (among : y ∈ x :: xs) :
    le x y = true := by
  rcases List.mem_cons.mp among with same | later
  · rw [same]
    exact order.refl (all x List.mem_cons_self)
  · exact (List.pairwise_cons.mp first).1 y later

theorem filterMember (order : Preorder inside le) (same : ∀ z, inside z → xs.filter (alike le z) = ys.filter (alike le z)) {y}
    (insideY : inside y) (among : y ∈ ys) : y ∈ xs := by
  have within : y ∈ ys.filter (alike le y) := List.mem_filter.mpr ⟨among,order.alikeSelf insideY⟩
  rw [← same y insideY] at within
  exact (List.mem_filter.mp within).1

theorem sortedUnique (order : Preorder inside le) (allX : ∀ x ∈ xs, inside x) (allY : ∀ y ∈ ys, inside y) (first : Sorted le xs)
    (second : Sorted le ys) (same : ∀ z, inside z → xs.filter (alike le z) = ys.filter (alike le z)) : xs = ys := by
  induction xs generalizing ys with
  | nil =>
    refine (List.eq_nil_iff_forall_not_mem.mpr fun y among => ?_).symm
    exact absurd (filterMember order same (allY y among) among) List.not_mem_nil
  | cons x xs ih =>
    have insideX := allX x List.mem_cons_self
    have amongY := filterMember order (fun z insideZ => (same z insideZ).symm) insideX List.mem_cons_self
    cases ys with
    | nil => exact absurd amongY List.not_mem_nil
    | cons y ys =>
      have insideY := allY y List.mem_cons_self
      have below := headLeast order allX first (filterMember order same insideY List.mem_cons_self)
      have above := headLeast order allY second amongY
      have heads := same x insideX
      have near : alike le x y = true := by rw [alike,below,above,Bool.true_and]
      rw [List.filter_cons,List.filter_cons,if_pos (order.alikeSelf insideX),if_pos near] at heads
      obtain ⟨head,-⟩ := List.cons.inj heads
      subst head
      refine congrArg (List.cons x) (ih (fun z among => allX z (List.mem_cons_of_mem x among)) (fun z among => allY z (List.mem_cons_of_mem x among))
        (List.pairwise_cons.mp first).2 (List.pairwise_cons.mp second).2 fun z insideZ => ?_)
      have rows := same z insideZ
      rw [List.filter_cons,List.filter_cons] at rows
      split at rows
      · exact (List.cons.inj rows).2
      · exact rows

theorem arrangedUnique (order : Preorder inside le) {source} (all : ∀ x ∈ source, inside x) (first : Arranged inside le source xs)
    (second : Arranged inside le source ys) : xs = ys :=
  sortedUnique order (fun x among => all x (first.perm.mem_iff.mp among)) (fun y among => all y (second.perm.mem_iff.mp among))
    first.sorted second.sorted fun z insideZ => (first.stable z insideZ).trans (second.stable z insideZ).symm

end Unique

theorem afterAlways {β} (p : EStateM ε σ β) (s) : After p s (fun _ _ => True) fun _ _ => True := by
  unfold After
  cases p s with
  | ok a t => exact True.intro
  | error e t => exact True.intro

abbrev Comparison (α σ ε : Type) := α → α → EStateM ε σ Ordering

def merge (compare : Comparison α σ ε) : List α → List α → EStateM ε σ (List α)
  | [], ys => pure ys
  | x :: xs, [] => pure (x :: xs)
  | x :: xs, y :: ys => do
    let order ← compare x y
    if order ≠ .gt then
      let rest ← merge compare xs (y :: ys)
      pure (x :: rest)
    else
      let rest ← merge compare (x :: xs) ys
      pure (y :: rest)
termination_by xs ys => xs.length+ys.length

-- On these elements, and while the state is as it should be, every answer is by the preorder.
structure Consistent (inside : α → Prop) (steady : σ → Prop) (compare : Comparison α σ ε) (le : α → α → Bool) (E : ε → σ → Prop) : Prop
    extends Preorder inside le where
  answers : ∀ x y, inside x → inside y → ∀ s, steady s → After (compare x y) s (fun order t => steady t ∧ (order ≠ .gt ↔ le x y = true)) E

section Merge
variable {inside : α → Prop} {steady : σ → Prop} {compare : Comparison α σ ε} {le : α → α → Bool} {E : ε → σ → Prop} {xs ys : List α} {s : σ}

theorem mergePerm (xs ys s) : After (merge compare xs ys) s (fun out _ => out.Perm (xs ++ ys)) fun _ _ => True := by
  induction xs, ys using merge.induct generalizing s with
  | case1 ys =>
    rw [merge]
    exact List.Perm.refl _
  | case2 x xs =>
    rw [merge,List.append_nil]
    exact List.Perm.refl _
  | case3 x xs y ys left right =>
    rw [merge,afterBind]
    refine (afterAlways (compare x y) s).mono (fun order t _ => ?_) fun _ _ _ => True.intro
    rw [afterIte,afterBind,afterBind]
    exact ⟨fun _ => (left t).mono (fun rest _ perm => perm.cons x) fun _ _ _ => True.intro,
      fun _ => (right t).mono (fun rest _ perm => (perm.cons y).trans List.perm_middle.symm) fun _ _ _ => True.intro⟩

theorem passedOver (order : Preorder inside le) {x y z} (all : ∀ w ∈ x :: xs, inside w) (insideY : inside y) (insideZ : inside z)
    (first : Sorted le (x :: xs)) (above : ¬le x y = true) :
    (y :: (x :: xs ++ ys)).filter (alike le z) = (x :: xs ++ y :: ys).filter (alike le z) := by
  rw [List.filter_append,List.filter_cons,List.filter_append,@List.filter_cons _ y ys]
  split
  · rename_i near
    have none_ : (x :: xs).filter (alike le z) = [] := by
      refine List.filter_eq_nil_iff.mpr fun w among alike_ => above ?_
      rw [alike,Bool.and_eq_true] at near alike_
      have insideW := all w among
      exact order.trans x w y (all x List.mem_cons_self) insideW insideY (headLeast order all first among)
        (order.trans w z y insideW insideZ insideY alike_.2 near.1)
    rw [none_,List.nil_append,List.nil_append]
  · rfl

theorem mergeArranged (consistent : Consistent inside steady compare le E) (allX : ∀ x ∈ xs, inside x) (allY : ∀ y ∈ ys, inside y)
    (first : Sorted le xs) (second : Sorted le ys) (holds : steady s) :
    After (merge compare xs ys) s (fun out t => steady t ∧ Arranged inside le (xs ++ ys) out) E := by
  have order := consistent.toPreorder
  induction xs, ys using merge.induct generalizing s with
  | case1 ys =>
    rw [merge]
    exact ⟨holds,List.Perm.refl _,second,fun _ _ => rfl⟩
  | case2 x xs =>
    rw [merge,List.append_nil]
    exact ⟨holds,List.Perm.refl _,first,fun _ _ => rfl⟩
  | case3 x xs y ys left right =>
    have insideX := allX x List.mem_cons_self
    have insideY := allY y List.mem_cons_self
    obtain ⟨leastX,first'⟩ := List.pairwise_cons.mp first
    obtain ⟨leastY,second'⟩ := List.pairwise_cons.mp second
    rw [merge,afterBind]
    refine (consistent.answers x y insideX insideY s holds).mono ?_ fun _ _ failed => failed
    rintro answer t ⟨holds',means⟩
    rw [afterIte,afterBind,afterBind]
    refine ⟨fun takes => ?_,fun takes => ?_⟩
    · have below := means.mp takes
      refine (left (fun z among => allX z (List.mem_cons_of_mem x among)) allY first' second holds').mono ?_ fun _ _ failed => failed
      rintro out u ⟨holds'',arranged⟩
      refine ⟨holds'',arranged.perm.cons x,List.pairwise_cons.mpr ⟨fun z among => ?_,arranged.sorted⟩,fun z insideZ => ?_⟩
      · rcases List.mem_append.mp (arranged.perm.mem_iff.mp among) with left | right
        · exact leastX z left
        · exact order.trans x y z insideX insideY (allY z right) below (headLeast order allY second right)
      · rw [List.cons_append,List.filter_cons,List.filter_cons,arranged.stable z insideZ]
    · have above : ¬le x y = true := fun below => takes (means.mpr below)
      have below := (order.total x y insideX insideY).resolve_left above
      refine (right allX (fun z among => allY z (List.mem_cons_of_mem y among)) first second' holds').mono ?_ fun _ _ failed => failed
      rintro out u ⟨holds'',arranged⟩
      refine ⟨holds'',(arranged.perm.cons y).trans List.perm_middle.symm,List.pairwise_cons.mpr ⟨fun z among => ?_,arranged.sorted⟩,
        fun z insideZ => ?_⟩
      · rcases List.mem_append.mp (arranged.perm.mem_iff.mp among) with left | right
        · exact order.trans y x z insideY insideX (allX z left) below (headLeast order allX first left)
        · exact leastY z right
      · rw [← passedOver order allX insideY insideZ first above,List.filter_cons,arranged.stable z insideZ,List.filter_cons]

end Merge

-- One pass: neighbouring runs of `width` elements become one.
def mergeRuns (compare : Comparison α σ ε) (width : Nat) (positive : 0 < width) (xs : List α) : EStateM ε σ (List α) :=
  if xs = [] then pure []
  else do
    let run ← merge compare (xs.take width) ((xs.drop width).take width)
    let rest ← mergeRuns compare width positive (xs.drop (2*width))
    pure (run ++ rest)
termination_by xs.length
decreasing_by
  have some_ := List.length_pos_iff.mpr ‹¬xs = []›
  rw [List.length_drop]
  omega

def Runs (le : α → α → Bool) (width : Nat) (xs : List α) : Prop := ∀ k, Sorted le ((xs.drop (k*width)).take width)

structure Passed (inside : α → Prop) (le : α → α → Bool) (width : Nat) (source out : List α) : Prop where
  perm : out.Perm source
  runs : Runs le width out
  stable : ∀ x, inside x → out.filter (alike le x) = source.filter (alike le x)

section Runs
variable {inside : α → Prop} {steady : σ → Prop} {compare : Comparison α σ ε} {le : α → α → Bool} {E : ε → σ → Prop} {width : Nat}
  {positive : 0 < width} {xs : List α} {s : σ}

theorem runsParts (xs : List α) (width) : xs.take width ++ (xs.drop width).take width ++ xs.drop (2*width) = xs := by
  have behind : xs.drop (2*width) = (xs.drop width).drop width := by rw [List.drop_drop,Nat.two_mul]
  rw [behind,List.append_assoc,List.take_append_drop,List.take_append_drop]

theorem mergeRunsPerm (xs s) : After (mergeRuns compare width positive xs) s (fun out _ => out.Perm xs) fun _ _ => True := by
  induction xs using mergeRuns.induct width positive generalizing s with
  | case1 =>
    rw [mergeRuns,if_pos rfl]
    exact List.Perm.refl _
  | case2 xs some_ ih =>
    rw [mergeRuns,if_neg some_,afterBind]
    refine (mergePerm _ _ s).mono (fun run t perm => ?_) fun _ _ _ => True.intro
    rw [afterBind]
    refine (ih t).mono (fun rest _ perm' => ?_) fun _ _ _ => True.intro
    have whole := perm.append perm'
    rwa [runsParts] at whole

theorem runsDrop (runs : Runs le width xs) : Runs le width (xs.drop (2*width)) := by
  intro k
  have later := runs (k+2)
  rwa [Nat.add_mul,Nat.add_comm,← List.drop_drop] at later

theorem runsAppend {run rest} (sorted : Sorted le run) (runs : Runs le width rest)
    (full : run.length = width ∨ run.length ≤ width ∧ rest = []) : Runs le width (run ++ rest) := by
  intro k
  rcases full with full | ⟨short,rfl⟩
  · cases k with
    | zero =>
      rw [Nat.zero_mul,List.drop_zero,← full,List.take_left]
      exact sorted
    | succ k =>
      have skips : (run ++ rest).drop ((k+1)*width) = rest.drop (k*width) := by
        rw [Nat.succ_mul,Nat.add_comm,← List.drop_drop,← full,List.drop_left]
      rw [skips]
      exact runs k
  · rw [List.append_nil]
    exact (sorted.sublist ((List.take_sublist _ _).trans (List.drop_sublist _ _)))

theorem mergeRunsPassed (consistent : Consistent inside steady compare le E) (all : ∀ x ∈ xs, inside x) (runs : Runs le width xs) (holds : steady s) :
    After (mergeRuns compare width positive xs) s (fun out t => steady t ∧ Passed inside le (2*width) xs out) E := by
  induction xs using mergeRuns.induct width positive generalizing s with
  | case1 =>
    rw [mergeRuns,if_pos rfl]
    refine ⟨holds,List.Perm.refl _,fun k => ?_,fun _ _ => rfl⟩
    rw [List.drop_nil,List.take_nil]
    exact List.Pairwise.nil
  | case2 xs some_ ih =>
    have first := runs 0
    have second := runs 1
    rw [Nat.zero_mul,List.drop_zero] at first
    rw [Nat.one_mul] at second
    rw [mergeRuns,if_neg some_,afterBind]
    refine (mergeArranged consistent (fun x among => all x (List.mem_of_mem_take among))
      (fun x among => all x (List.mem_of_mem_drop (List.mem_of_mem_take among))) first second holds).mono ?_ fun _ _ failed => failed
    rintro run t ⟨holds',arranged⟩
    rw [afterBind]
    refine (ih (fun x among => all x (List.mem_of_mem_drop among)) (runsDrop runs) holds').mono ?_ fun _ _ failed => failed
    rintro rest u ⟨holds'',passed⟩
    have size := arranged.perm.length_eq
    have size' := passed.perm.length_eq
    rw [List.length_append,List.length_take,List.length_take,List.length_drop] at size
    rw [List.length_drop] at size'
    refine ⟨holds'',?_,runsAppend arranged.sorted passed.runs ?_,fun z insideZ => ?_⟩
    · have whole := arranged.perm.append passed.perm
      rwa [runsParts] at whole
    · by_cases full : run.length = 2*width
      · exact .inl full
      · exact .inr ⟨by omega,List.length_eq_zero_iff.mp (by omega)⟩
    · rw [List.filter_append,arranged.stable z insideZ,passed.stable z insideZ,← List.filter_append,runsParts]

theorem runsWhole (runs : Runs le width xs) (long : xs.length ≤ width) : Sorted le xs := by
  have whole := runs 0
  rwa [Nat.zero_mul,List.drop_zero,List.take_of_length_le long] at whole

theorem runsSingle (le : α → α → Bool) (xs) : Runs le 1 xs := by
  intro k
  cases xs.drop (k*1) with
  | nil => exact List.Pairwise.nil
  | cons x rest => exact List.pairwise_singleton _ _

theorem Passed.whole {source out} (passed : Passed inside le width source out) (long : out.length ≤ width) : Arranged inside le source out :=
  ⟨passed.perm,runsWhole passed.runs long,passed.stable⟩

theorem sortedRuns (sorted : Sorted le xs) (width) : Runs le width xs := fun _ =>
  sorted.sublist ((List.take_sublist _ _).trans (List.drop_sublist _ _))

theorem Passed.after {first second third width'} (next : Passed inside le width' second third) (passed : Passed inside le width first second) :
    Passed inside le width' first third :=
  ⟨next.perm.trans passed.perm,next.runs,fun x insideX => (next.stable x insideX).trans (passed.stable x insideX)⟩

theorem Passed.widths {source out width'} (passed : Passed inside le width source out)
    (same : width' = width ∨ out.length ≤ width) : Passed inside le width' source out := by
  rcases same with rfl | long
  · exact passed
  · exact ⟨passed.perm,sortedRuns (runsWhole passed.runs long) width',passed.stable⟩

end Runs

end Bamts.StableSort
