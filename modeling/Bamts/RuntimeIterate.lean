import Bamts.InsertionList
import Bamts.RuntimeCollection
import Bamts.RuntimeKey

/-! What the tables of a machine and the iterators over them depend on in its heap, and what every operation
does to them. -/
set_option linter.all false
namespace Bamts.Runtime
open Effect Insertion

section
variable {m t u : Machine}

end

section
variable {m t : Machine}

end

def Fault.isPanic : Fault → Bool
  | .panicked _ => true
  | _ => false

section
variable {m : Machine} {object key v : Value} {expected : CollectionKind}

theorem refundFails (m : Machine) (i n : Nat) :
    After (refundSlot i n) m (fun _ t => OnlyLedger m t) (fun fault t => OnlyLedger m t ∧ fault.isPanic = true) := by
  unfold refundSlot
  simp only [afterBind,syncSlotLedger,afterUpdate,afterRead]
  split
  · exact ⟨rfl,rfl⟩
  · simp only [afterIte,afterFail,afterUpdate]
    exact ⟨fun _ => ⟨fun _ => ⟨rfl,rfl⟩,fun _ => rfl⟩,fun _ => ⟨fun _ => ⟨rfl,rfl⟩,fun _ => rfl⟩⟩

end

theorem afterLift {α : Type} {m : Machine} {x : Except Fault α} {Q : α → Machine → Prop} {E : Fault → Machine → Prop}
    (ok : ∀ a, x = .ok a → Q a m) (error : ∀ fault, x = .error fault → E fault m) : After (lift x) m Q E := by
  cases x with
  | ok a => exact ok a rfl
  | error fault => exact error fault rfl

theorem allocateFrame (m : Machine) (entry : HeapEntry) :
    After (allocate entry) m
      (fun v t => OnlyHeap m t ∧ t.heap = m.heap ++ [entry] ∧ valueForHeapIndex m.heap.length = some v)
      (fun _ t => OnlyHeap m t ∧ (t.heap = m.heap ∨ t.heap = m.heap ++ [entry])) := by
  unfold allocate
  simp only [afterBind,afterRead]
  apply afterCapacity
  · intro _
    simp only [syncSlotLedger,afterUpdate]
    split
    · rename_i v value
      exact ⟨rfl,rfl,value⟩
    · exact ⟨rfl,.inr rfl⟩
  · exact fun _ _ => ⟨rfl,.inl rfl⟩

theorem slotOfIndex {m : Machine} {i : Nat} {v : Value} {e : HeapEntry} (value : valueForHeapIndex i = some v)
    (found : m.heap[i]? = some e) (full : e ≠ .vacant) : m.slot v = .ok (some i) := by
  have small : i+1 < 2^32 := by
    unfold valueForHeapIndex at value
    split at value
    · assumption
    · cases value
  obtain ⟨id,known,segment,slot⟩ := valueForIndex small
  rw [known] at value
  cases value
  have back : id.slot.toNat-1 = i := by omega
  simp only [Machine.slot,Value.decodeHeapRef,segment,back,found,ne_eq,not_true,if_false]

section
variable {m : Machine} {i : Nat} {v object : Value} {properties : PropertyMap} {key : PropertyKey}

end

section
variable {m t : Machine} {i : Nat} {source : Value} {kind : IterationKind} {position : Option Nat}

end

end Bamts.Runtime
