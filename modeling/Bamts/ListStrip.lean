import Mathlib.Data.List.Basic
import Mathlib.Data.List.TakeWhile

/-! A list without its leading and trailing elements of a kind, and the longest prefix of a kind. -/
set_option linter.all false
namespace Bamts.Strip

variable {α : Type} {p q : α → Bool} {front word back units : List α}

def strip (p : α → Bool) (units : List α) : List α := ((units.dropWhile p).reverse.dropWhile p).reverse

theorem splits (p : α → Bool) (units) :
    ∃ front back, (∀ u ∈ front, p u = true) ∧ (∀ u ∈ back, p u = true) ∧ units = front ++ strip p units ++ back := by
  have ends : ((units.dropWhile p).reverse.takeWhile p) ++ ((units.dropWhile p).reverse.dropWhile p) = (units.dropWhile p).reverse :=
    List.takeWhile_append_dropWhile
  refine ⟨units.takeWhile p,((units.dropWhile p).reverse.takeWhile p).reverse,fun u at_ => List.mem_takeWhile_imp at_,?_,?_⟩
  · intro u at_
    exact List.mem_takeWhile_imp (List.mem_reverse.mp at_)
  · have rest : strip p units ++ ((units.dropWhile p).reverse.takeWhile p).reverse = units.dropWhile p := by
      rw [strip,← List.reverse_append,ends,List.reverse_reverse]
    rw [List.append_assoc,rest,List.takeWhile_append_dropWhile]

theorem dropsAll (all : ∀ u ∈ word, p u = true) (rest) : (word ++ rest).dropWhile p = rest.dropWhile p :=
  List.dropWhile_append_of_pos all

theorem takesAll (all : ∀ u ∈ word, p u = true) (ends : ∀ u, rest.head? = some u → p u = false) :
    (word ++ rest).takeWhile p = word ∧ (word ++ rest).dropWhile p = rest := by
  rw [List.takeWhile_append_of_pos all,dropsAll all]
  cases rest with
  | nil => exact ⟨List.append_nil _,rfl⟩
  | cons u rest =>
    have other : ¬p u = true := Bool.eq_false_iff.mp (ends u rfl)
    rw [List.takeWhile_cons_of_neg other,List.dropWhile_cons_of_neg other]
    exact ⟨List.append_nil _,rfl⟩

theorem keepsClean (clean : ∀ u ∈ word, p u = false) : word.dropWhile p = word := by
  cases word with
  | nil => rfl
  | cons u rest => exact List.dropWhile_cons_of_neg (Bool.eq_false_iff.mp (clean u (List.mem_cons_self ..)))

theorem stripBetween (clean : ∀ u ∈ word, p u = false) (before : ∀ u ∈ front, p u = true) (after : ∀ u ∈ back, p u = true) :
    strip p (front ++ word ++ back) = word := by
  rw [strip,List.append_assoc,dropsAll before]
  cases word with
  | nil =>
    have none : back.dropWhile p = [] := List.dropWhile_eq_nil_iff.mpr after
    rw [List.nil_append,none]
    rfl
  | cons u rest =>
    rw [List.cons_append,List.dropWhile_cons_of_neg (Bool.eq_false_iff.mp (clean u (List.mem_cons_self ..))),← List.cons_append,List.reverse_append]
    rw [dropsAll fun v at_ => after v (List.mem_reverse.mp at_),keepsClean,List.reverse_reverse]
    intro v at_
    exact clean v (List.mem_reverse.mp at_)

theorem stripLess (less : ∀ u, p u = true → q u = true) (clean : ∀ u ∈ word, q u = false) :
    strip p units = word ↔ strip q units = word ∧ ∀ u ∈ units, q u = true → p u = true := by
  have cleaner : ∀ u ∈ word, p u = false := by
    intro u at_
    have out := clean u at_
    cases kept : p u with
    | false => rfl
    | true => rw [less u kept] at out; cases out
  constructor
  · intro left
    obtain ⟨front,back,before,after,split⟩ := splits p units
    rw [left] at split
    refine ⟨split ▸ stripBetween clean (fun u at_ => less u (before u at_)) (fun u at_ => less u (after u at_)),?_⟩
    intro u at_ kind
    rw [split,List.mem_append,List.mem_append] at at_
    rcases at_ with (at_ | at_) | at_
    · exact before u at_
    · rw [clean u at_] at kind
      cases kind
    · exact after u at_
  · rintro ⟨left,none⟩
    obtain ⟨front,back,before,after,split⟩ := splits q units
    rw [left] at split
    have inFront : ∀ u ∈ front, u ∈ units := fun u at_ => by rw [split]; simp [at_]
    have inBack : ∀ u ∈ back, u ∈ units := fun u at_ => by rw [split]; simp [at_]
    rw [split]
    exact stripBetween cleaner (fun u at_ => none u (inFront u at_) (before u at_)) (fun u at_ => none u (inBack u at_) (after u at_))

end Bamts.Strip
