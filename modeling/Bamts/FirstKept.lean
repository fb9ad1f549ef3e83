import Mathlib.Data.List.Basic
import Mathlib.Data.List.Forall2
import Mathlib.Data.List.Induction

/-! Lists of which only the first of equal elements counts. Two lists are alike when they keep the same elements in the same order;
running on from every element of alike lists gives alike lists again. -/
set_option linter.all false
namespace Bamts.FirstKept

variable {α β : Type} [DecidableEq α] [DecidableEq β]

def keep (kept : List α) (x : α) : List α := if x ∈ kept then kept else kept ++ [x]

def keepAll (kept xs : List α) : List α := xs.foldl keep kept

def Alike (xs ys : List α) : Prop := keepAll [] xs = keepAll [] ys

section
variable {kept xs ys : List α} {x : α}

theorem keepMem (old : x ∈ kept) : keep kept x = kept := if_pos old

theorem keepNew (new : x ∉ kept) : keep kept x = kept ++ [x] := if_neg new

theorem memKeep {y} : y ∈ keep kept x ↔ y ∈ kept ∨ y = x := by
  by_cases old : x ∈ kept
  · rw [keepMem old]
    exact ⟨.inl,fun either => either.elim id fun same => same ▸ old⟩
  · rw [keepNew old,List.mem_append,List.mem_singleton]

theorem keepAllAppend (kept xs ys : List α) : keepAll kept (xs ++ ys) = keepAll (keepAll kept xs) ys := List.foldl_append

theorem memKeepAll {y} : y ∈ keepAll kept xs ↔ y ∈ kept ∨ y ∈ xs := by
  induction xs generalizing kept with
  | nil => simp [keepAll]
  | cons x xs ih => rw [show keepAll kept (x :: xs) = keepAll (keep kept x) xs from rfl,ih,memKeep,List.mem_cons,or_assoc]

theorem keepAllHead (kept xs : List α) : (keepAll kept xs).head? = (kept ++ xs).head? := by
  induction xs generalizing kept with
  | nil => rw [List.append_nil]; rfl
  | cons x xs ih =>
    rw [show keepAll kept (x :: xs) = keepAll (keep kept x) xs from rfl,ih]
    by_cases old : x ∈ kept
    · rw [keepMem old,List.head?_append_of_ne_nil _ (List.ne_nil_of_mem old),List.head?_append_of_ne_nil _ (List.ne_nil_of_mem old)]
    · rw [keepNew old,List.append_assoc,List.singleton_append]

theorem keepAllKnown (known : ∀ y ∈ xs, y ∈ kept) : keepAll kept xs = kept := by
  induction xs with
  | nil => rfl
  | cons x xs ih =>
    rw [show keepAll kept (x :: xs) = keepAll (keep kept x) xs from rfl,keepMem (known x List.mem_cons_self)]
    exact ih fun y among => known y (List.mem_cons_of_mem _ among)

theorem Alike.refl (xs : List α) : Alike xs xs := rfl

theorem Alike.trans {zs} (first : Alike xs ys) (later : Alike ys zs) : Alike xs zs := Eq.trans first later

theorem Alike.mem (alike : Alike xs ys) (x) : x ∈ xs ↔ x ∈ ys := by
  have same : x ∈ keepAll [] xs ↔ x ∈ [] ∨ x ∈ xs := memKeepAll
  rw [show keepAll [] xs = keepAll [] ys from alike,memKeepAll] at same
  simpa using same.symm

theorem Alike.head (alike : Alike xs ys) : xs.head? = ys.head? := by
  have first := keepAllHead [] xs
  have last := keepAllHead [] ys
  rw [show keepAll [] xs = keepAll [] ys from alike] at first
  exact first.symm.trans last

theorem Alike.isEmpty (alike : Alike xs ys) : xs.isEmpty = ys.isEmpty := by
  have same := alike.head
  cases xs with
  | nil =>
    cases ys with
    | nil => rfl
    | cons y ys => cases same
  | cons x xs =>
    cases ys with
    | nil => cases same
    | cons y ys => rfl

theorem keepAllFlatMap (f : α → List β) (kept xs) : keepAll kept ((keepAll [] xs).flatMap f) = keepAll kept (xs.flatMap f) := by
  induction xs using List.reverseRecOn with
  | nil => rfl
  | append_singleton xs x ih =>
    rw [keepAllAppend,List.flatMap_append,keepAllAppend,show keepAll (keepAll [] xs) [x] = keep (keepAll [] xs) x from rfl,List.flatMap_singleton]
    by_cases old : x ∈ keepAll [] xs
    · have member : x ∈ xs := by simpa using memKeepAll.mp old
      rw [keepMem old,ih,keepAllKnown fun y among => memKeepAll.mpr (.inr (List.mem_flatMap.mpr ⟨x,member,among⟩))]
    · rw [keepNew old,List.flatMap_append,keepAllAppend,ih,List.flatMap_singleton]

theorem keepAllTwice (kept xs : List α) : keepAll kept (keepAll [] xs) = keepAll kept xs := by
  simpa using keepAllFlatMap (fun x => [x]) kept xs

theorem Alike.onto (alike : Alike xs ys) (kept) : keepAll kept xs = keepAll kept ys := by
  rw [← keepAllTwice kept xs,← keepAllTwice kept ys,show keepAll [] xs = keepAll [] ys from alike]

theorem Alike.append {xs' ys'} (first : Alike xs ys) (later : Alike xs' ys') : Alike (xs ++ xs') (ys ++ ys') := by
  unfold Alike
  rw [keepAllAppend,keepAllAppend,show keepAll [] xs = keepAll [] ys from first,later.onto]

theorem Alike.firsts (xs : List α) : Alike (keepAll [] xs) xs := keepAllTwice [] xs

theorem Alike.flatMap {f g : α → List β} (alike : Alike xs ys) (pointwise : ∀ x ∈ xs, Alike (f x) (g x)) : Alike (xs.flatMap f) (ys.flatMap g) := by
  have moved : Alike (xs.flatMap f) (ys.flatMap f) := by
    unfold Alike
    rw [← keepAllFlatMap,← keepAllFlatMap f [] ys,show keepAll [] xs = keepAll [] ys from alike]
  have changed : ∀ zs : List α, (∀ z ∈ zs, z ∈ xs) → Alike (zs.flatMap f) (zs.flatMap g) := by
    intro zs
    induction zs with
    | nil => exact fun _ => .refl _
    | cons z zs ih =>
      intro inside
      exact (pointwise z (inside z List.mem_cons_self)).append (ih fun y among => inside y (List.mem_cons_of_mem _ among))
  exact moved.trans (changed ys fun y among => (alike.mem y).mpr among)

theorem Alike.filter (alike : Alike xs ys) (p) : Alike (xs.filter p) (ys.filter p) := by
  have split : ∀ zs : List α, zs.filter p = zs.flatMap fun z => if p z then [z] else [] := by
    intro zs
    induction zs with
    | nil => rfl
    | cons z zs ih =>
      rw [List.flatMap_cons,← ih]
      cases hold : p z with
      | true => rw [List.filter_cons_of_pos hold]; rfl
      | false => rw [List.filter_cons_of_neg (by rw [hold]; decide)]; rfl
  rw [split,split]
  exact alike.flatMap fun _ _ => .refl _

theorem Alike.map (alike : Alike xs ys) (f : α → β) : Alike (xs.map f) (ys.map f) := by
  rw [List.map_eq_flatMap,List.map_eq_flatMap]
  exact alike.flatMap fun _ _ => .refl _

theorem Alike.flatten {xss yss : List (List α)} (levels : List.Forall₂ Alike xss yss) : Alike xss.flatten yss.flatten := by
  induction levels with
  | nil => exact .refl _
  | cons first later ih => exact first.append ih

end

end Bamts.FirstKept
