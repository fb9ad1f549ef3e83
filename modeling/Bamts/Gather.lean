import Mathlib.Data.List.Basic

/-! Answers gathered for a list of questions: asked while the list is open, answered once each in any order,
delivered together when the list is closed and nothing is pending. A counter stands for what is pending. -/
set_option linter.all false
namespace Bamts

structure Gather (α : Type) where
  answers : List (Option α)
  closed : Bool
  dropped : Bool
  delivered : List (List α)

namespace Gather

variable {α : Type} {g : Gather α} {i : Nat} {a default : α} {values : List α} {remaining : Nat}

def fresh : Gather α := ⟨[],false,false,[]⟩

def ask (g : Gather α) : Gather α := { g with answers := g.answers ++ [none] }
def answer (g : Gather α) (i : Nat) (a : α) : Gather α := { g with answers := g.answers.set i (some a) }
def close (g : Gather α) : Gather α := { g with closed := true }
def drop (g : Gather α) : Gather α := { g with dropped := true }
def deliver (g : Gather α) (values : List α) : Gather α := { g with delivered := g.delivered ++ [values] }

def pending (g : Gather α) : Nat := g.answers.countP (·.isNone)

def Complete (g : Gather α) : Prop := g.closed = true ∧ ∀ a ∈ g.answers, a.isSome = true

structure Lawful (g : Gather α) : Prop where
  once : g.delivered = [] ∨ ∃ values, g.delivered = [values] ∧ g.answers = values.map some
  exactly : g.delivered ≠ [] ↔ g.Complete
  dropped : g.dropped = true → g.closed = false

-- What a counter and a list of values say about answers that may still come.
structure Counted (default : α) (g : Gather α) (values : List α) (remaining : Nat) : Prop where
  values : values = g.answers.map (·.getD default)
  remaining : remaining = g.pending+if g.closed then 0 else 1

theorem nonePending : g.pending = 0 ↔ ∀ a ∈ g.answers, a.isSome = true := by
  rw [pending,List.countP_eq_zero]
  simp only [Bool.not_eq_true,Option.isNone_eq_false_iff]

theorem pendingAsk : g.ask.pending = g.pending+1 := by
  rw [pending,ask,List.countP_append]
  rfl

theorem pendingAnswer (open_ : g.answers[i]? = some none) : (g.answer i a).pending+1 = g.pending := by
  obtain ⟨inside,at_⟩ := List.getElem?_eq_some_iff.mp open_
  have positive : 0 < g.answers.countP (·.isNone) := List.countP_pos_iff.mpr ⟨none,at_ ▸ List.getElem_mem inside,rfl⟩
  rw [pending,pending,answer]
  rw [List.countP_set inside,at_,Option.isNone_none,if_pos rfl,Option.isNone_some,if_neg Bool.false_ne_true]
  omega

theorem freshLawful : (fresh : Gather α).Lawful :=
  ⟨Or.inl rfl,⟨fun some_ => absurd rfl some_,fun complete => absurd complete.1 Bool.false_ne_true⟩,fun _ => rfl⟩

theorem freshCounted : Counted default fresh [] 1 := ⟨rfl,rfl⟩

theorem Lawful.undelivered (lawful : g.Lawful) (open_ : g.closed = false) : g.delivered = [] := by
  by_contra some_
  have closed := (lawful.exactly.mp some_).1
  rw [open_] at closed
  cases closed

theorem incompleteOpen (open_ : g.closed = false) : ¬g.Complete := by
  intro complete
  have closed := complete.1
  rw [open_] at closed
  cases closed

theorem lawfulWaiting (none : g.delivered = []) (incomplete : ¬g.Complete) (dropped : g.dropped = true → g.closed = false) : g.Lawful :=
  ⟨Or.inl none,⟨fun some_ => absurd none some_,fun complete => absurd complete incomplete⟩,dropped⟩

theorem Lawful.ask (lawful : g.Lawful) (open_ : g.closed = false) : g.ask.Lawful :=
  lawfulWaiting (lawful.undelivered open_) (incompleteOpen open_) fun _ => open_

theorem Lawful.drop (lawful : g.Lawful) (open_ : g.closed = false) : g.drop.Lawful :=
  lawfulWaiting (lawful.undelivered open_) (incompleteOpen open_) fun _ => open_

theorem Lawful.waits (lawful : g.Lawful) (open_ : g.answers[i]? = some none) : g.delivered = [] := by
  by_contra some_
  have all := (lawful.exactly.mp some_).2 none (List.mem_of_getElem? open_)
  cases all

theorem Lawful.answer (lawful : g.Lawful) (open_ : g.answers[i]? = some none) (incomplete : ¬(g.answer i a).Complete) : (g.answer i a).Lawful :=
  lawfulWaiting (lawful.waits open_) incomplete lawful.dropped

theorem lawfulDelivery (none : g.delivered = []) (complete : g.Complete) (kept : g.dropped = false) (all : g.answers = values.map some) :
    (g.deliver values).Lawful := by
  have one : (g.deliver values).delivered = [values] := by rw [deliver,none]; rfl
  refine ⟨Or.inr ⟨values,one,all⟩,⟨fun _ => complete,fun _ => ?_⟩,fun dropped => ?_⟩
  · rw [one]
    exact List.cons_ne_nil _ _
  · exact absurd (dropped : g.dropped = true) (Bool.eq_false_iff.mp kept)

theorem Counted.length (counted : Counted default g values remaining) : values.length = g.answers.length := by
  rw [counted.values,List.length_map]

theorem Counted.ask (counted : Counted default g values remaining) : Counted default g.ask (values ++ [default]) (remaining+1) := by
  constructor
  · rw [counted.values,Gather.ask,List.map_append]
    rfl
  · rw [counted.remaining,pendingAsk]
    exact Nat.add_right_comm _ _ _

theorem Counted.positive (counted : Counted default g values remaining) (open_ : g.closed = false) : 0 < remaining := by
  rw [counted.remaining,open_,if_neg Bool.false_ne_true]
  exact Nat.succ_pos _

theorem Counted.close (counted : Counted default g values remaining) (open_ : g.closed = false) : Counted default g.close values (remaining-1) := by
  constructor
  · exact counted.values
  · rw [counted.remaining,open_,if_neg Bool.false_ne_true,Gather.close,if_pos rfl]
    rfl

theorem Counted.awaited (counted : Counted default g values remaining) (open_ : g.answers[i]? = some none) : 0 < remaining ∧ i < values.length := by
  have one := pendingAnswer (a := default) open_
  rw [counted.length,counted.remaining]
  exact ⟨by omega,(List.getElem?_eq_some_iff.mp open_).1⟩

theorem Counted.answer (counted : Counted default g values remaining) (open_ : g.answers[i]? = some none) :
    Counted default (g.answer i a) (values.set i a) (remaining-1) := by
  constructor
  · rw [counted.values,Gather.answer,List.map_set]
    rfl
  · have one := pendingAnswer (a := a) open_
    have same : (g.answer i a).closed = g.closed := rfl
    rw [counted.remaining,same]
    omega

theorem Counted.complete (counted : Counted default g values 0) : g.Complete ∧ g.answers = values.map some := by
  have both := counted.remaining
  have closed : g.closed = true := by
    by_contra open_
    rw [if_neg open_] at both
    cases both
  rw [if_pos closed] at both
  have all := nonePending.mp both.symm
  refine ⟨⟨closed,all⟩,?_⟩
  rw [counted.values,List.map_map]
  refine (List.map_id _).symm.trans (List.map_congr_left fun a at_ => ?_)
  obtain ⟨value,rfl⟩ := Option.isSome_iff_exists.mp (all a at_)
  rfl

theorem Counted.incomplete (counted : Counted default g values remaining) (some_ : remaining ≠ 0) : ¬g.Complete := by
  rintro ⟨closed,all⟩
  rw [counted.remaining,closed,nonePending.mpr all] at some_
  exact some_ rfl

end Gather
end Bamts
