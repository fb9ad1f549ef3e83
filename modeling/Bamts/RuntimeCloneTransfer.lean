import Bamts.RuntimeCloneRead
import Bamts.RuntimeIterate

/-! What a buffer pays for, and what giving the listed buffers away does to them. -/
set_option linter.all false
namespace Bamts.Runtime
open Effect Bytecode Linkage Binary64

def named (v : Value) : Option Nat :=
  match v.decode with
  | some (.heapRef id) => some (id.slot.toNat-1)
  | _ => none

-- Every buffer below `n` has paid for its bytes.
structure PaidBelow (n : Nat) (m : Machine) : Prop where
  balanced : Balanced m
  charge : ∀ (i : Nat) header bytes most key, i < n → m.heap[i]? = some (.arrayBuffer header ⟨some bytes,most,key⟩) →
    m.intrinsicSlots ≤ i → bytes.length ≤ m.held i

def Charged (m : Machine) : Prop := PaidBelow m.heap.length m

structure AttachedAt (m : Machine) (i : Nat) (v : Value) : Prop where
  slot : m.slot v = .ok (some i)
  entry : ∃ header bytes most, m.heap[i]? = some (.arrayBuffer header ⟨some bytes,most,.undefined⟩)

def Attached (m : Machine) (v : Value) : Prop := ∃ i, AttachedAt m i v

structure DetachedAt (m : Machine) (i : Nat) (v : Value) : Prop where
  slot : m.slot v = .ok (some i)
  entry : ∃ header most key, m.heap[i]? = some (.arrayBuffer header ⟨none,most,key⟩)

def Detached (m : Machine) (v : Value) : Prop := ∃ i, DetachedAt m i v

section
variable {m t : Machine} {i j n : Nat} {v : Value} {e : HeapEntry}

theorem slotNamed (slot : m.slot v = .ok (some i)) : named v = some i ∧ i < m.heap.length := by
  unfold Machine.slot at slot
  split at slot
  · cases slot
  · rename_i id decoded
    split at slot
    · cases slot
    · split at slot
      · cases slot
      · cases slot
      · rename_i found
        cases slot
        exact ⟨by rw [named,decoded],(List.getElem?_eq_some_iff.mp found).1⟩
  · cases slot

theorem slotAgain (slot : m.slot v = .ok (some i)) (there : t.heap[i]? = some e) (real : e ≠ .vacant) : t.slot v = .ok (some i) := by
  unfold Machine.slot at slot ⊢
  split at slot
  · cases slot
  · split at slot
    · cases slot
    · rename_i segment
      rw [if_neg segment]
      split at slot
      · cases slot
      · cases slot
      · cases slot
        rw [there]
        cases e with
        | vacant => exact absurd rfl real
        | _ => rfl
  · cases slot

theorem slotFault {fault} (slot : m.slot v = .error fault) : fault.isPanic = false := by
  unfold Machine.slot at slot
  split at slot
  · cases slot
    rfl
  · split at slot
    · cases slot
      rfl
    · split at slot
      · cases slot
        rfl
      · cases slot
        rfl
      · cases slot
  · cases slot

theorem sameUndefined {key} : m.detachKeySame key .undefined = true ↔ key = .undefined := by
  have decoded : Value.undefined.decode = some .undefined := rfl
  unfold Machine.detachKeySame Machine.strictEqual
  cases found : key.decode with
  | none => simp only [decoded,found,beq_iff_eq]
  | some plain =>
    cases plain with
    | _ => simp only [decoded,found,beq_iff_eq]

theorem entryReal (real : m.entry i ≠ .vacant) : m.heap[i]? = some (m.entry i) := by
  unfold Machine.entry at real ⊢
  rw [List.getD_eq_getElem?_getD] at real ⊢
  cases found : m.heap[i]? with
  | none =>
    rw [found] at real
    exact absurd rfl real
  | some e => rfl

theorem attachedOf {header data bytes} (slot : m.slot v = .ok (some i))
    (entry : m.entry i = .arrayBuffer header data) (there : data.bytes = some bytes) (keyless : data.detachKey = .undefined) : AttachedAt m i v := by
  refine ⟨slot,header,bytes,data.maxByteLength,?_⟩
  rw [entryReal (by rw [entry]; exact fun same => by cases same),entry,← there,← keyless]

theorem AttachedAt.named (attached : AttachedAt m i v) : named v = some i := (slotNamed attached.slot).1

theorem afterSlot {Q E} (ok : ∀ slot, m.slot v = .ok slot → Q slot m)
    (error : ∀ fault, m.slot v = .error fault → E fault m) : After (runtimeSlot v) m Q E := by
  simp only [runtimeSlot,afterBind,afterRead]
  cases slot : m.slot v with
  | ok found => exact ok found slot
  | error fault => exact error fault slot

theorem validateTransfersSpec (slots transfer) :
    After (validateTransfers slots transfer) m
      (fun handles t => t = m ∧ handles = transfer ∧ (∀ v ∈ transfer, Attached m v) ∧ (∀ i ∈ slots, some i ∉ transfer.map named) ∧
        (transfer.map named).Nodup) fun _ t => t = m := by
  induction transfer generalizing slots with
  | nil => exact ⟨rfl,rfl,fun v among => absurd among List.not_mem_nil,fun i _ => List.not_mem_nil,List.nodup_nil⟩
  | cons v rest ih =>
    unfold validateTransfers
    simp only [afterBind,afterRead,afterEvaluate]
    refine afterSlot (fun slot found => ?_) fun _ _ => rfl
    cases slot with
    | none => rfl
    | some i =>
      simp only [afterIte]
      refine ⟨fun _ => rfl,fun new => ?_⟩
      split
      · rename_i header data entry
        simp only [afterIte]
        refine ⟨fun _ => rfl,fun there => ⟨fun _ => rfl,fun keyless => ?_⟩⟩
        rw [afterBind]
        refine (ih (i :: slots)).mono (fun handles t done => ?_) fun _ _ same => same
        obtain ⟨same,all,attached,apart,nodup⟩ := done
        have some_ : data.bytes ≠ none := fun gone => there (by rw [gone]; rfl)
        obtain ⟨bytes,there⟩ := Option.ne_none_iff_exists'.mp some_
        have here : AttachedAt m i v := attachedOf found entry there (Decidable.not_not.mp keyless)
        refine ⟨same,?_,List.forall_mem_cons.mpr ⟨⟨i,here⟩,attached⟩,fun j among => ?_,?_⟩
        · rw [all]
        · rw [List.map_cons,here.named,List.mem_cons,not_or]
          refine ⟨fun same => new ?_,apart j (List.mem_cons_of_mem _ among)⟩
          rwa [← Option.some.inj same]
        · rw [List.map_cons,here.named,List.nodup_cons]
          exact ⟨apart i List.mem_cons_self,nodup⟩
      · rfl

theorem detachSpec (paid : PaidBelow n m) (inside : i < n) (attached : AttachedAt m i v) :
    After (detachBuffer v .undefined) m (fun _ t => PaidBelow n t ∧ (∃ header most, t.heap = m.heap.set i (.arrayBuffer header ⟨none,most,.undefined⟩)))
      fun _ _ => False := by
  obtain ⟨header,bytes,most,entry⟩ := attached.entry
  have here : m.entry i = .arrayBuffer header ⟨some bytes,most,.undefined⟩ := by
    rw [Machine.entry,List.getD_eq_getElem?_getD,entry]
    rfl
  unfold detachBuffer bufferSlot
  simp only [afterBind,afterRead]
  refine afterSlot (fun slot found => ?_) fun fault failed => ?_
  · rw [attached.slot] at found
    cases found
    simp only [here,afterPure,sameUndefined.mpr rfl,if_true,setEntry,afterBind,afterRead,afterUpdate]
    have real := (slotNamed attached.slot).2
    refine (refundSpec (paid.balanced.rewrite i _) (by rw [List.length_set]; exact real) fun past => ?_).mono (fun _ t done => ?_) fun _ _ never => never
    · exact paid.charge i header bytes most _ inside entry past
    · obtain ⟨only,balanced,held⟩ := done
      refine ⟨⟨balanced,fun j other kept most key below there past => ?_⟩,header,most,only.heap⟩
      have slots : t.intrinsicSlots = m.intrinsicSlots := by rw [only]
      rw [slots] at past
      rw [only.heap] at there
      rcases setLookup there with ⟨rfl,same⟩ | ⟨apart,before⟩
      · cases same
      · have covers := paid.charge j other kept most key below before past
        have same := held j past
        rw [if_neg apart,Nat.add_zero] at same
        exact Nat.le_trans covers (Nat.le_of_eq same)
  · rw [attached.slot] at failed
    cases failed

theorem detachFails (gone : ¬Attached m v) :
    After (detachBuffer v .undefined) m (fun _ _ => False) fun fault t => fault.isPanic = false ∧ t = m := by
  unfold detachBuffer bufferSlot
  simp only [afterBind,afterRead]
  refine afterSlot (fun slot found => ?_) fun fault failed => ⟨slotFault failed,rfl⟩
  cases slot with
  | none => exact ⟨rfl,rfl⟩
  | some i =>
    dsimp only
    split
    · rename_i header data entry
      rw [afterPure]
      cases held : data.bytes with
      | none => exact ⟨rfl,rfl⟩
      | some bytes =>
        simp only [afterBind,afterRead,afterIte]
        refine ⟨fun same => ?_,fun _ => ⟨rfl,rfl⟩⟩
        exact absurd ⟨i,attachedOf found entry held (sameUndefined.mp same)⟩ gone
    · exact ⟨rfl,rfl⟩

variable {w : Value} {header : Header} {most : Option Nat}

theorem AttachedAt.with (attached : AttachedAt m j w) (same : t.heap[j]? = m.heap[j]?) : AttachedAt t j w := by
  obtain ⟨header,bytes,most,entry⟩ := attached.entry
  have kept := same.trans entry
  exact ⟨slotAgain attached.slot kept fun same => (by cases same),header,bytes,most,kept⟩

theorem DetachedAt.with (detached : DetachedAt m j w) (same : t.heap[j]? = m.heap[j]?) : DetachedAt t j w := by
  obtain ⟨header,most,key,entry⟩ := detached.entry
  have kept := same.trans entry
  exact ⟨slotAgain detached.slot kept fun same => (by cases same),header,most,key,kept⟩

theorem detachedStays (attached : AttachedAt m i v) (detached : DetachedAt m j w)
    (heap : t.heap = m.heap.set i (.arrayBuffer header ⟨none,most,.undefined⟩)) : DetachedAt t j w := by
  refine detached.with ?_
  rw [heap]
  refine List.getElem?_set_ne fun same => ?_
  subst same
  obtain ⟨_,_,_,there⟩ := attached.entry
  obtain ⟨_,_,_,gone⟩ := detached.entry
  rw [there] at gone
  cases gone

theorem detachedNow (attached : AttachedAt m i v) (heap : t.heap = m.heap.set i (.arrayBuffer header ⟨none,most,.undefined⟩)) : DetachedAt t i v := by
  have kept : t.heap[i]? = some (.arrayBuffer header ⟨none,most,.undefined⟩) := by
    rw [heap,List.getElem?_set_self (slotNamed attached.slot).2]
  exact ⟨slotAgain attached.slot kept fun same => (by cases same),header,most,.undefined,kept⟩

theorem attachedBefore (attached : AttachedAt t j w) (heap : t.heap = m.heap.set i (.arrayBuffer header ⟨none,most,.undefined⟩)) : AttachedAt m j w := by
  refine attached.with ?_
  rw [heap]
  refine (List.getElem?_set_ne fun same => ?_).symm
  subst same
  obtain ⟨_,_,_,there⟩ := attached.entry
  rw [heap] at there
  rcases setLookup there with ⟨-,same⟩ | ⟨apart,-⟩
  · cases same
  · exact apart rfl

theorem detachAllWorks (vs) (paid : PaidBelow n m) (below : ∀ v ∈ vs, ∀ i, named v = some i → i < n) (attached : ∀ v ∈ vs, Attached m v)
    (nodup : (vs.map named).Nodup) :
    After (detachAll vs) m (fun _ t => (∀ j w, DetachedAt m j w → DetachedAt t j w) ∧ ∀ v ∈ vs, Detached t v) fun _ _ => False := by
  induction vs generalizing m with
  | nil => exact ⟨fun j w detached => detached,fun v among => absurd among List.not_mem_nil⟩
  | cons v rest ih =>
    obtain ⟨i,here⟩ := attached v List.mem_cons_self
    rw [List.map_cons,List.nodup_cons,here.named] at nodup
    rw [detachAll,afterBind]
    refine (detachSpec paid (below v List.mem_cons_self i here.named) here).mono (fun _ t done => ?_) fun _ _ never => never
    obtain ⟨paid,header,most,heap⟩ := done
    have others : ∀ w ∈ rest, Attached t w := by
      intro w among
      obtain ⟨j,there⟩ := attached w (List.mem_cons_of_mem _ among)
      refine ⟨j,there.with ?_⟩
      rw [heap]
      refine List.getElem?_set_ne fun same => nodup.1 ?_
      rw [same,← there.named]
      exact List.mem_map_of_mem among
    refine (ih paid (fun w among => below w (List.mem_cons_of_mem _ among)) others nodup.2).mono (fun _ u done => ?_) fun _ _ never => never
    refine ⟨fun j w detached => done.1 j w (detachedStays here detached heap),List.forall_mem_cons.mpr ⟨⟨i,?_⟩,done.2⟩⟩
    exact done.1 i v (detachedNow here heap)

theorem detachAllFails (vs) (paid : PaidBelow n m) (below : ∀ v ∈ vs, ∀ i, named v = some i → i < n) (among : w ∈ vs) (gone : ¬Attached m w) :
    After (detachAll vs) m (fun _ _ => False) fun fault t => fault.isPanic = false ∧ t.heap.length = m.heap.length := by
  induction vs generalizing m with
  | nil => exact absurd among List.not_mem_nil
  | cons v rest ih =>
    rw [detachAll,afterBind]
    by_cases attached : Attached m v
    · obtain ⟨i,here⟩ := attached
      refine (detachSpec paid (below v List.mem_cons_self i here.named) here).mono (fun _ t done => ?_) fun _ _ never => never.elim
      obtain ⟨paid,header,most,heap⟩ := done
      have length : t.heap.length = m.heap.length := by rw [heap,List.length_set]
      have later : w ∈ rest := by
        rcases List.mem_cons.mp among with rfl | later
        · exact absurd ⟨i,here⟩ gone
        · exact later
      refine (ih paid (fun w among => below w (List.mem_cons_of_mem _ among)) later fun again => ?_).mono (fun _ _ never => never) fun fault u done =>
        ⟨done.1,done.2.trans length⟩
      obtain ⟨j,there⟩ := again
      exact gone ⟨j,attachedBefore there heap⟩
    · refine (detachFails attached).mono (fun _ _ never => never.elim) fun fault t done => ⟨done.1,?_⟩
      rw [done.2]

end

end Bamts.Runtime
