import Bamts.RuntimeIterate

/-! What a machine shows of its tables and iterators, and what a collection leaves of it. -/
set_option linter.all false
namespace Bamts.Runtime
open Effect Insertion

namespace View

end View

section
variable {m t : Machine}

end

structure Swept (m t : Machine) : Prop where
  platform : t.platform = m.platform
  reached : ∀ (i : Nat) e, m.Reachable i → m.heap[i]? = some e → t.heap[i]? = some (survivor m (isMarkedValue (marksOf m)) e)
  gone : ∀ (i : Nat) e, ¬m.Reachable i → t.heap[i]? = some e → e = .vacant
  old : ∀ (i : Nat) e, t.heap[i]? = some e → ∃ before, m.heap[i]? = some before
  slots : ∀ (i : Nat) e, m.heap[i]? = some e → ∃ after, t.heap[i]? = some after

theorem collectSwept (m : Machine) : After collectGarbage m (fun _ t => Swept m t) (fun _ _ => True) := by
  refine (collectSlots weakRefundable m).mono ?_ (fun _ _ _ => trivial)
  intro _ t done
  obtain ⟨only,_,heap⟩ := done
  refine ⟨only.platform,?_,?_,?_,?_⟩
  · intro i e reach found
    rw [heap,found,Option.map_some,if_pos ((marksExact m i).mpr reach)]
  · intro i e lost found
    rw [heap] at found
    obtain ⟨before,at_,same⟩ := Option.map_eq_some_iff.mp found
    rw [if_neg fun marked => lost ((marksExact m i).mp marked)] at same
    split at same
    · exact same.symm
    · rename_i native
      subst same
      by_contra full
      refine lost (reachIntrinsic (by omega) ⟨before,at_,?_⟩)
      cases before with
      | vacant => exact absurd rfl full
      | _ => rfl
  · intro i e found
    rw [heap] at found
    obtain ⟨before,at_,_⟩ := Option.map_eq_some_iff.mp found
    exact ⟨before,at_⟩
  · intro i e found
    rw [heap,found]
    exact ⟨_,rfl⟩

section
variable {m t : Machine}

end

-- A computation whose every failure is a broken expectation of the source.
def Panics {α : Type} (p : Exec α) : Prop := ∀ t, After p t (fun _ _ => True) (fun fault _ => fault.isPanic = true)

section
variable {α β : Type} {p q : Exec α}

theorem Panics.bind {f : α → Exec β} (first : Panics p) (next : ∀ a, Panics (f a)) : Panics (p >>= f) := by
  intro t
  rw [afterBind]
  exact (first t).mono (fun a u _ => next a u) fun _ _ failed => failed

theorem Panics.ite {c : Prop} [Decidable c] (yes : Panics p) (no : Panics q) : Panics (if c then p else q) := by
  split
  · exact yes
  · exact no

theorem Panics.given {c : Bool} {p : Exec Unit} (yes : Panics p) : Panics (given c p) := yes.ite fun _ => trivial

theorem Panics.loop {xs : List α} {f : α → Exec Unit} (each : ∀ x, Panics (f x)) : Panics (forM xs f) := fun _ =>
  (afterForM (I := fun _ _ => True) (fun x _ u _ => each x u) trivial).mono (fun _ _ _ => trivial) fun _ _ failed => failed

theorem refundPanics (i n : Nat) : Panics (refundSlot i n) := fun t =>
  (refundFails t i n).mono (fun _ _ _ => trivial) fun _ _ failed => failed.2

theorem collectPanics : Panics collectGarbage := by
  have read_ : Panics (Effect.read : Exec Machine) := fun _ => trivial
  have update_ : ∀ f, Panics (Effect.update f : Exec Unit) := fun _ _ => trivial
  have process : ∀ marks i, Panics (processWeakTarget marks i) := by
    intro marks i
    refine read_.bind fun m => .ite ((update_ _).bind fun _ => (refundPanics _ _).given.bind fun _ => .given ?_) fun _ => trivial
    split
    · exact update_ _
    · exact fun _ => rfl
  have purge : ∀ marks i, Panics (purgeWeakCollection marks i) := by
    intro marks i
    refine read_.bind fun m => .ite ?_ fun _ => trivial
    split
    · exact .ite (.ite (fun _ => rfl) ((update_ _).bind fun _ => refundPanics _ _)) (refundPanics _ _)
    · exact refundPanics _ _
  have sweep : ∀ marks i, Panics (sweepSlot marks i) := by
    intro marks i
    refine read_.bind fun m => .ite (fun _ => trivial) ?_
    split
    · exact fun _ => rfl
    · exact .ite (fun _ => rfl) (update_ _)
  unfold collectGarbage processWeakTargetsAfterMarking
  refine read_.bind fun m => (read_.bind fun _ => .loop (process _)).bind fun _ => ?_
  exact (Panics.loop (purge _)).bind fun _ => (Panics.loop (sweep _)).bind fun _ => update_ _

end

section
variable {m t : Machine} {entry : HeapEntry}

end

end Bamts.Runtime
