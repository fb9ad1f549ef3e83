import Bamts.RuntimeObject
import Bamts.RuntimeMap

/-! What the slots of the heap have to be charged for, and how the ledger follows a slot that is rewritten. -/
set_option linter.all false
namespace Bamts.Runtime
open Effect

def sizeMatches : HeapEntry → Prop
  | .collection _ _ entries _ size _ => size = entries.countP (·.live)
  | _ => True

-- `charge` is the part of an entry that its slot is never charged less than.
structure Accounted (charge : HeapEntry → Nat) (m : Machine) : Prop where
  balanced : Balanced m
  bounded : m.heap.length < 2^32
  covered : ∀ (i : Nat) e, m.heap[i]? = some e → m.intrinsicSlots ≤ i → charge e ≤ m.held i
  sized : ∀ (i : Nat) e, m.heap[i]? = some e → sizeMatches e

def OnlyHeap (m t : Machine) : Prop :=
  t = { m with gc := t.gc,heap := t.heap,slotBytes := t.slotBytes,intrinsicSlotCredits := t.intrinsicSlotCredits,
               machineBytes := t.machineBytes,heapBytes := t.heapBytes }

theorem OnlyHeap.trans {m t u} (first : OnlyHeap m t) (second : OnlyHeap t u) : OnlyHeap m u := by
  unfold OnlyHeap at *
  rw [second,first]

theorem OnlyHeap.intrinsic {m t} (same : OnlyHeap m t) : t.intrinsicSlots = m.intrinsicSlots := by rw [same]

theorem OnlyLedger.onlyHeap {m t} (same : OnlyLedger m t) : OnlyHeap m t := by
  unfold OnlyHeap
  rw [same]

theorem refundFrame (m i n) :
    After (refundSlot i n) m (fun _ t => OnlyLedger m t) (fun _ t => OnlyLedger m t) := by
  unfold refundSlot
  simp only [afterBind,syncSlotLedger,afterUpdate,afterRead]
  split
  · exact rfl
  · simp only [afterIte,afterFail,afterUpdate]
    exact ⟨fun _ => ⟨fun _ => rfl,fun _ => rfl⟩,fun _ => ⟨fun _ => rfl,fun _ => rfl⟩⟩

theorem chargeFrame (m i n) :
    After (chargeSlot i n) m (fun _ t => OnlyLedger m t) (fun _ t => OnlyLedger m t) := by
  unfold chargeSlot
  simp only [afterBind,syncSlotLedger,afterUpdate,afterRead]
  apply afterCapacity
  · intro _
    simp only [afterIte,afterFail,afterUpdate]
    exact ⟨fun _ => rfl,fun _ => rfl⟩
  · exact fun _ _ => rfl

theorem Balanced.rewrite {m} (b : Balanced m) (i e) :
    Balanced { m with heap := m.heap.set i e } :=
  ⟨by simpa using b.slots,b.total,b.credits,by simpa using b.intrinsic⟩

theorem setSelf {heap : List HeapEntry} {i e} (found : heap[i]? = some e) : heap.set i e = heap := by
  obtain ⟨inside,rfl⟩ := List.getElem?_eq_some_iff.mp found
  exact List.set_getElem_self inside

theorem setLookup {heap : List HeapEntry} {i j e x} (at_ : (heap.set i e)[j]? = some x) :
    (j = i ∧ x = e) ∨ (j ≠ i ∧ heap[j]? = some x) := by
  rw [List.getElem?_set] at at_
  by_cases same : i = j
  · subst same
    rw [if_pos rfl] at at_
    split at at_
    · exact .inl ⟨rfl,(Option.some.inj at_).symm⟩
    · cases at_
  · rw [if_neg same] at at_
    exact .inr ⟨Ne.symm same,at_⟩

theorem rewriteAccounted {charge m t i e} (sound : Accounted charge m)
    (heap : t.heap = m.heap.set i e) (balanced : Balanced t) (intrinsic : t.intrinsicSlots = m.intrinsicSlots)
    (other : ∀ j, m.intrinsicSlots ≤ j → j ≠ i → t.held j = m.held j)
    (here : m.intrinsicSlots ≤ i → charge e ≤ t.held i) (sized : sizeMatches e) : Accounted charge t := by
  refine ⟨balanced,?_,?_,?_⟩
  · rw [heap,List.length_set]
    exact sound.bounded
  · intro j x at_ runtime
    rw [heap] at at_
    rw [intrinsic] at runtime
    rcases setLookup at_ with ⟨rfl,rfl⟩ | ⟨away,old⟩
    · exact here runtime
    · rw [other j runtime away]
      exact sound.covered j x old runtime
  · intro j x at_
    rw [heap] at at_
    rcases setLookup at_ with ⟨rfl,rfl⟩ | ⟨_,old⟩
    · exact sized
    · exact sound.sized j x old

-- The slot `i` of `m` rewritten to `e`, with `surplus` bytes it is charged for and does not need;
-- `sound` is what is known of the accounts.
structure Holding (charge : HeapEntry → Nat) (sound : Prop) (m t : Machine) (i : Nat) (e : HeapEntry) (surplus : Nat) :
    Prop where
  known : sound → Accounted charge m
  only : OnlyHeap m t
  heap : t.heap = m.heap.set i e
  balanced : sound → Balanced t
  sized : sound → sizeMatches e
  other : sound → ∀ j, m.intrinsicSlots ≤ j → j ≠ i → t.held j = m.held j
  here : sound → m.intrinsicSlots ≤ i → charge e + surplus ≤ t.held i

section
variable {charge : HeapEntry → Nat} {sound : Prop} {m t : Machine} {i n : Nat} {e : HeapEntry}

theorem Holding.start (known : sound → Accounted charge m) (found : m.heap[i]? = some e) : Holding charge sound m m i e 0 :=
  ⟨known,rfl,(setSelf found).symm,fun good => (known good).balanced,fun good => (known good).sized i e found,
    fun _ _ _ _ => rfl,fun good runtime => (known good).covered i e found runtime⟩

theorem Holding.place (known : sound → Accounted charge m) (i after)
    (fits : sound → m.intrinsicSlots ≤ i → charge after ≤ m.held i) (sized : sizeMatches after) :
    Holding charge sound m { m with heap := m.heap.set i after } i after 0 :=
  ⟨known,rfl,rfl,fun good => (known good).balanced.rewrite i after,fun _ => sized,fun _ _ _ _ => rfl,fits⟩

theorem Holding.accounted (held : Holding charge sound m t i e n) (good : sound) : Accounted charge t :=
  rewriteAccounted (held.known good) held.heap (held.balanced good) held.only.intrinsic (held.other good)
    (fun runtime => Nat.le_trans (Nat.le_add_right _ _) (held.here good runtime)) (held.sized good)

theorem Holding.unsound (held : Holding charge sound m t i e n) {u} (only : OnlyLedger t u) (bad : ¬sound)
    (left) : Holding charge sound m u i e left :=
  ⟨held.known,held.only.trans only.onlyHeap,only.heap.trans held.heap,fun good => absurd good bad,held.sized,
    fun good => absurd good bad,fun good => absurd good bad⟩

theorem Holding.charged (held : Holding charge sound m t i e n) (inside : i < m.heap.length) (extra) :
    After (chargeSlot i extra) t (fun _ u => Holding charge sound m u i e (n+extra))
      (fun f u => OnlyLedger t u ∧ (sound → u = t ∧ LimitFault t f)) := by
  by_cases good : sound
  · have slot : i < t.heap.length := by rw [held.heap,List.length_set]; exact inside
    refine (chargeSpec (held.balanced good) (n := extra) slot).mono ?_ ?_
    · intro _ u done
      obtain ⟨only,balanced,charges⟩ := done
      have native := held.only.intrinsic
      refine ⟨held.known,held.only.trans only.onlyHeap,only.heap.trans held.heap,fun _ => balanced,held.sized,?_,?_⟩
      · intro _ j runtime away
        rw [charges j (by omega),if_neg away]
        exact held.other good j runtime away
      · intro _ runtime
        rw [charges i (by omega),if_pos rfl]
        have := held.here good runtime
        omega
    · intro f u failed
      exact ⟨by rw [failed.1]; exact .refl t,fun _ => failed⟩
  · exact (chargeFrame t i extra).mono (fun _ u only => held.unsound only good _)
      (fun f u only => ⟨only,fun now => absurd now good⟩)

theorem Holding.rewrite (held : Holding charge sound m t i e n) (after left)
    (less : sound → charge after + left ≤ charge e + n) (sized : sizeMatches e → sizeMatches after) :
    Holding charge sound m { t with heap := t.heap.set i after } i after left := by
  refine ⟨held.known,held.only.trans rfl,?_,fun good => (held.balanced good).rewrite i after,
    fun good => sized (held.sized good),held.other,?_⟩
  · rw [held.heap,List.set_set]
  · intro good runtime
    have : charge e + n ≤ t.held i := held.here good runtime
    exact Nat.le_trans (less good) this

theorem Holding.refunded (held : Holding charge sound m t i e n) (inside : i < m.heap.length) {amount} (enough : sound → amount ≤ n) :
    After (refundSlot i amount) t (fun _ u => Holding charge sound m u i e (n-amount)) (fun _ u => OnlyLedger t u ∧ ¬sound) := by
  by_cases good : sound
  · have slot : i < t.heap.length := by rw [held.heap,List.length_set]; exact inside
    have native := held.only.intrinsic
    have enough := enough good
    refine (refundSpec (held.balanced good) slot ?_).mono ?_ (fun _ _ no => no.elim)
    · intro runtime
      have := held.here good (by omega)
      omega
    · intro _ u done
      obtain ⟨only,balanced,charges⟩ := done
      refine ⟨held.known,held.only.trans only.onlyHeap,only.heap.trans held.heap,fun _ => balanced,held.sized,?_,?_⟩
      · intro _ j runtime away
        have charge := charges j (by omega)
        rw [if_neg away] at charge
        rw [← held.other good j runtime away]
        exact charge.symm
      · intro _ runtime
        have charge := charges i (by omega)
        rw [if_pos rfl] at charge
        have := held.here good runtime
        omega
  · exact (refundFrame t i amount).mono (fun _ u only => held.unsound only good _) (fun f u only => ⟨only,good⟩)

end

-- Kinds that are allocated without a charge for the properties they are born with, none of
-- which can be deleted.
def bornUncharged : List Kind :=
  [.function,.script,.nativeFunction,.regExp,.date,.collection,.builtinIterator,.disposableStack]

def counted (kind : Kind) (property : Property) : Bool := property.configurable || decide (kind ∉ bornUncharged)

def contentBytes : HeapEntry → Nat
  | .array _ elements _ => elements.length*valueBytes
  | .collection _ _ _ _ size _ => size*(CollectionEntry.bytes+CollectionIndex.entryBytes)
  | .finalizationRegistry _ _ cells pendingHoldings _ =>
    cells.length*FinalizationCell.bytes+pendingHoldings.length*valueBytes
  | _ => 0

def stored (e : HeapEntry) : Nat :=
  contentBytes e + e.header?.elim 0 fun header => header.properties.charged (counted e.kind)

theorem arrayCounted (p) : counted .array p = true := by simp [counted,bornUncharged]

theorem storedArray (header elements lengthWritable) :
    stored (.array header elements lengthWritable) = elements.length*valueBytes + header.properties.chargeBytes := by
  rw [← PropertyMap.chargedAll header.properties arrayCounted]
  rfl

namespace HeapEntry

@[simp] theorem withPropertiesKind (properties) (e : HeapEntry) :
    (e.withProperties properties).kind = e.kind := by
  cases e with
  | _ => rfl

@[simp] theorem withPropertiesHeader (properties) (e : HeapEntry) :
    (e.withProperties properties).header? = e.header?.map fun header => { header with properties := properties } := by
  cases e with
  | _ => rfl

theorem withPropertiesContent (properties e) :
    contentBytes (e.withProperties properties) = contentBytes e := by
  cases e with
  | _ => rfl

theorem kindTypedArray {e : HeapEntry} (kind : e.kind = .typedArray) : ∃ header fields, e = .typedArray header fields := by
  cases e with
  | typedArray header fields => exact ⟨header,fields,rfl⟩
  | _ => cases kind

theorem kindArray {e : HeapEntry} (kind : e.kind = .array) : ∃ header elements lengthWritable, e = .array header elements lengthWritable := by
  cases e with
  | array header elements lengthWritable => exact ⟨header,elements,lengthWritable,rfl⟩
  | _ => cases kind

theorem withPropertiesSized (properties) {e} (sized : sizeMatches e) :
    sizeMatches (e.withProperties properties) := by
  cases e with
  | collection => exact sized
  | _ => trivial

end HeapEntry

theorem storedProperties {e header} (some_ : e.header? = some header) (properties) :
    stored (e.withProperties properties) = contentBytes e + properties.charged (counted e.kind) := by
  simp [stored,HeapEntry.withPropertiesContent,some_]

end Bamts.Runtime
