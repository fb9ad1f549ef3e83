import Mathlib.Order.Defs.LinearOrder
import Mathlib.Order.Lattice
import Mathlib.Data.List.Basic
import Mathlib.Data.List.Induction

/-! Nested families of half-open ranges. One sweep over the ranges in the order of their starts, with a stack of the
ends that are still open, decides whether any two of them are disjoint or one inside the other. -/
set_option linter.all false
namespace Bamts.IntervalSweep

variable {α : Type} [LinearOrder α]

-- `(a,b)` stands for the range `[a,b)`.
def Nested (a b : α × α) : Prop :=
  a.2 ≤ b.1 ∨ b.2 ≤ a.1 ∨ b.1 ≤ a.1 ∧ a.2 ≤ b.2 ∨ a.1 ≤ b.1 ∧ b.2 ≤ a.2

theorem Nested.symm {a b : α × α} (nested : Nested a b) : Nested b a := by
  rcases nested with apart | apart | inside | inside
  · exact .inr (.inl apart)
  · exact .inl apart
  · exact .inr (.inr (.inr inside))
  · exact .inr (.inr (.inl inside))

def Before (a b : α × α) : Prop := a.1 < b.1 ∨ a.1 = b.1 ∧ b.2 ≤ a.2

theorem Before.start {a b : α × α} (before : Before a b) : a.1 ≤ b.1 := by
  rcases before with less | same
  · exact le_of_lt less
  · exact le_of_eq same.1

theorem Before.nested {a b : α × α} (before : Before a b) (proper : b.1 < b.2) : Nested a b ↔ a.2 ≤ b.1 ∨ b.2 ≤ a.2 := by
  constructor
  · intro nested
    rcases nested with apart | apart | inside | inside
    · exact .inl apart
    · exact absurd (lt_of_lt_of_le proper apart) (not_lt_of_ge before.start)
    · rcases before with less | same
      · exact absurd less (not_lt_of_ge inside.1)
      · exact .inr same.2
    · exact .inr inside.2
  · intro sweep
    rcases sweep with apart | inside
    · exact .inl apart
    · exact .inr (.inr (.inr ⟨before.start,inside⟩))

def close (start : α) (opened : List α) : List α := opened.dropWhile (· ≤ start)

def sweep : List α → List (α × α) → Bool
  | _, [] => true
  | opened, range :: rest =>
    (close range.1 opened).head?.all (range.2 ≤ ·) && sweep (range.2 :: close range.1 opened) rest

theorem memClose {start : α} {opened} (sorted : opened.Pairwise (· ≤ ·)) {e} :
    e ∈ close start opened ↔ e ∈ opened ∧ start < e := by
  induction opened with
  | nil => simp [close]
  | cons first rest ih =>
    obtain ⟨least,sorted⟩ := List.pairwise_cons.mp sorted
    unfold close at ih ⊢
    by_cases shut : first ≤ start
    · rw [List.dropWhile_cons_of_pos (by simpa using shut),ih sorted]
      constructor
      · exact fun open_ => ⟨List.mem_cons_of_mem _ open_.1,open_.2⟩
      · rintro ⟨member,later⟩
        rcases List.mem_cons.mp member with rfl | old
        · exact absurd shut (not_le_of_gt later)
        · exact ⟨old,later⟩
    · rw [List.dropWhile_cons_of_neg (by simpa using shut)]
      refine ⟨fun member => ⟨member,?_⟩,fun open_ => open_.1⟩
      rcases List.mem_cons.mp member with rfl | old
      · exact lt_of_not_ge shut
      · exact lt_of_lt_of_le (lt_of_not_ge shut) (least e old)

theorem closeSorted {start : α} {opened} (sorted : opened.Pairwise (· ≤ ·)) : (close start opened).Pairwise (· ≤ ·) :=
  sorted.sublist (List.dropWhile_sublist _)

theorem headAll {stop} {opened : List α} (sorted : opened.Pairwise (· ≤ ·)) :
    opened.head?.all (stop ≤ ·) = true ↔ ∀ e ∈ opened, stop ≤ e := by
  cases opened with
  | nil => simp
  | cons first rest =>
    obtain ⟨least,_⟩ := List.pairwise_cons.mp sorted
    simp only [List.head?_cons,Option.all_some,decide_eq_true_eq,List.mem_cons,forall_eq_or_imp]
    exact ⟨fun fits => ⟨fits,fun e member => le_trans fits (least e member)⟩,fun all => all.1⟩

/- What carries the induction is that the open ends stand for every earlier range that a later one could still cross. -/
theorem sweepOpen {opened : List α} {ranges} (sorted : opened.Pairwise (· ≤ ·))
    (ordered : ranges.Pairwise Before) (proper : ∀ r ∈ ranges, r.1 < r.2) :
    sweep opened ranges = true ↔ ranges.Pairwise Nested ∧ ∀ e ∈ opened, ∀ r ∈ ranges, e ≤ r.1 ∨ r.2 ≤ e := by
  induction ranges generalizing opened with
  | nil => simp [sweep]
  | cons range rest ih =>
    obtain ⟨first,ordered⟩ := List.pairwise_cons.mp ordered
    have properRest : ∀ r ∈ rest, r.1 < r.2 := fun r member => proper r (List.mem_cons_of_mem _ member)
    have inner : (close range.1 opened).Pairwise (· ≤ ·) := closeSorted sorted
    rw [sweep,Bool.and_eq_true,headAll inner,List.pairwise_cons]
    constructor
    · rintro ⟨fits,swept⟩
      obtain ⟨nested,apart⟩ := (ih (List.pairwise_cons.mpr ⟨fits,inner⟩) ordered properRest).mp swept
      refine ⟨⟨fun r member => ?_,nested⟩,fun e member r inside => ?_⟩
      · exact ((first r member).nested (properRest r member)).mpr (apart range.2 List.mem_cons_self r member)
      · rcases le_or_gt e range.1 with shut | still
        · rcases List.mem_cons.mp inside with rfl | later
          · exact .inl shut
          · exact .inl (le_trans shut (first r later).start)
        · have here : e ∈ close range.1 opened := (memClose sorted).mpr ⟨member,still⟩
          rcases List.mem_cons.mp inside with rfl | later
          · exact .inr (fits e here)
          · exact apart e (List.mem_cons_of_mem _ here) r later
    · rintro ⟨⟨own,nested⟩,apart⟩
      have fits : ∀ e ∈ close range.1 opened, range.2 ≤ e := by
        intro e here
        obtain ⟨member,still⟩ := (memClose sorted).mp here
        exact (apart e member range List.mem_cons_self).resolve_left (not_le_of_gt still)
      refine ⟨fits,(ih (List.pairwise_cons.mpr ⟨fits,inner⟩) ordered properRest).mpr ⟨nested,fun e member r later => ?_⟩⟩
      rcases List.mem_cons.mp member with rfl | here
      · exact ((first r later).nested (properRest r later)).mp (own r later)
      · exact apart e ((memClose sorted).mp here).1 r (List.mem_cons_of_mem _ later)

theorem sweepExact {ranges : List (α × α)} (ordered : ranges.Pairwise Before) (proper : ∀ r ∈ ranges, r.1 < r.2) :
    sweep [] ranges = true ↔ ranges.Pairwise Nested := by
  rw [sweepOpen List.Pairwise.nil ordered proper]
  simp

def Contains (range : α × α) (point : α) : Prop := range.1 ≤ point ∧ point < range.2

theorem Before.inside {a b : α × α} {point} (before : Before a b) (nested : Nested a b) (around : Contains a point) (at_ : Contains b point) :
    a.1 ≤ b.1 ∧ b.2 ≤ a.2 := by
  refine ⟨before.start,?_⟩
  rcases (before.nested (lt_of_le_of_lt at_.1 at_.2)).mp nested with apart | inside
  · exact absurd (lt_of_lt_of_le around.2 (le_trans apart at_.1)) (lt_irrefl _)
  · exact inside

theorem Before.trans {a b c : α × α} (first : Before a b) (second : Before b c) : Before a c := by
  rcases first with less | ⟨same,wide⟩
  · exact .inl (lt_of_lt_of_le less second.start)
  · rcases second with less | ⟨equal,wider⟩
    · exact .inl (same ▸ less)
    · exact .inr ⟨same.trans equal,le_trans wider wide⟩

def maxBy {β : Type} (compare : β → β → Ordering) (xs : List β) : Option β :=
  xs.foldl (fun best x => match best with
    | none => some x
    | some best => if compare best x = .gt then some best else some x) none

-- `after` is what the comparison decides, for every two elements.
theorem maxByIs {β compare} {after : β → β → Prop} (decides : ∀ a b, if compare a b = .gt then after b a else after a b)
    (refl : ∀ a, after a a) (trans : ∀ a b c, after a b → after b c → after a c) {xs} :
    (maxBy compare xs = none ↔ xs = []) ∧ ∀ best, maxBy compare xs = some best → best ∈ xs ∧ ∀ x ∈ xs, after x best := by
  induction xs using List.reverseRecOn with
  | nil => exact ⟨⟨fun _ => rfl,fun _ => rfl⟩,fun best found => (by cases found)⟩
  | append_singleton xs x ih =>
    have step : maxBy compare (xs ++ [x]) = match maxBy compare xs with
        | none => some x
        | some best => if compare best x = .gt then some best else some x := by
      rw [maxBy,List.foldl_append]
      rfl
    rw [step]
    cases before : maxBy compare xs with
    | none =>
      have empty := ih.1.mp before
      subst empty
      refine ⟨⟨fun found => (by cases found),fun found => (by cases found)⟩,fun best found => ?_⟩
      cases found
      exact ⟨List.mem_singleton.mpr rfl,fun y at_ => List.mem_singleton.mp at_ ▸ refl x⟩
    | some best =>
      obtain ⟨member,most⟩ := ih.2 best before
      have decided := decides best x
      dsimp only
      split
      · rename_i greater
        rw [if_pos greater] at decided
        refine ⟨⟨fun found => (by cases found),fun found => absurd found (List.append_ne_nil_of_right_ne_nil _ (List.cons_ne_nil _ _))⟩,fun most_ found => ?_⟩
        cases found
        refine ⟨List.mem_append_left _ member,fun y at_ => ?_⟩
        rcases List.mem_append.mp at_ with at_ | at_
        · exact most y at_
        · exact List.mem_singleton.mp at_ ▸ decided
      · rename_i other
        rw [if_neg other] at decided
        refine ⟨⟨fun found => (by cases found),fun found => absurd found (List.append_ne_nil_of_right_ne_nil _ (List.cons_ne_nil _ _))⟩,fun most_ found => ?_⟩
        cases found
        refine ⟨List.mem_append_right _ (List.mem_singleton.mpr rfl),fun y at_ => ?_⟩
        rcases List.mem_append.mp at_ with at_ | at_
        · exact trans y best x (most y at_) decided
        · exact List.mem_singleton.mp at_ ▸ refl x

end Bamts.IntervalSweep
