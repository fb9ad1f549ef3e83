import Bamts.RuntimeForInRun

/-! Deletions and definitions of properties leave an iteration alone, whatever they do to the objects it walks. -/
set_option linter.all false
namespace Bamts.Runtime.ForIn
open Effect Bytecode Linkage

abbrev KeepsIntrinsics {α : Type} (p : Exec α) : Prop := Keeps Machine.intrinsics p

theorem onlyLedgerKeeps {m t} (only : OnlyLedger m t) : t.intrinsics = m.intrinsics := by rw [only]

theorem keepsSlot (value) : KeepsIntrinsics (runtimeSlot value) := keepsRead.bind fun _ => keepsLift _

theorem keepsSet (i e) : KeepsIntrinsics (setEntry i e) := keepsUpdate fun _ => rfl

theorem keepsRefund (i n) : KeepsIntrinsics (refundSlot i n) := fun m =>
  (refundFrame m i n).mono (fun _ _ only => onlyLedgerKeeps only) fun _ _ only => onlyLedgerKeeps only

theorem keepsDeleteStored (i e header key p) :
    KeepsIntrinsics (deleteStored i e header key p) :=
  Keeps.ite ((keepsSet _ _).bind fun _ => (keepsRefund _ _).bind fun _ => keepsPure _) (keepsPure _)

theorem keepsDelete (object key) : KeepsIntrinsics (internalDelete object key) := by
  refine keepsRead.bind fun m => Keeps.ite (keepsFail _) ((keepsSlot _).bind fun slot => ?_)
  split
  · exact keepsPure _
  · split
    · exact (keepsLift _).bind fun _ => (keepsLift _).bind fun _ => keepsPure _
    · unfold deleteAt
      refine keepsRead.bind fun m => ?_
      split
      · exact (keepsRefund _ _).bind fun _ => keepsPure _
      · split
        · exact keepsFail _
        · exact keepsPure _
      · exact keepsPure _
      · exact keepsPure _
      · exact keepsFail _
      · split
        · exact keepsDeleteStored _ _ _ _ _
        · refine Keeps.ite (keepsPure _) ?_
          split
          · exact (keepsSet _ _).bind fun _ => (keepsRefund _ _).bind fun _ => keepsPure _
          · exact (keepsPure _).bind fun _ => (keepsRefund _ _).bind fun _ => keepsPure _
      · split
        · exact keepsPure _
        · split
          · exact keepsDeleteStored _ _ _ _ _
          · exact keepsPure _

structure SameShape (e after : HeapEntry) : Prop where
  kind : after.kind = e.kind
  prototype : ∀ m : Machine, m.prototypeOf after = m.prototypeOf e
  apart : e.kind ≠ .iterator

section
variable {m t : Machine} {index : Nat} {levels : List Nat} {s : ForInIteratorState} {C : Nat → HeapEntry → HeapEntry → Prop}

theorem withPropertiesShape {e header} (some_ : e.header? = some header) (properties) :
    SameShape e (e.withProperties properties) := by
  refine ⟨HeapEntry.withPropertiesKind _ _,fun m => ?_,fun kind => ?_⟩
  · cases e <;> rfl
  · cases e with
    | iterator state => cases some_
    | _ => cases kind

theorem arrayShape {header elements lengthWritable} (properties elements' lengthWritable') :
    SameShape (.array header elements lengthWritable) (.array { header with properties := properties } elements' lengthWritable') :=
  ⟨rfl,fun _ => rfl,fun kind => (by cases kind)⟩

theorem deletesShape {key i e after} (change : Deletes key i e after) : SameShape e after := by
  cases change with
  | stored some_ _ _ => exact withPropertiesShape some_ _
  | element _ _ => exact arrayShape _ _ _

theorem directKept (outlives : Outlives m t) {v i} (there : m.slot v = .ok (some i)) : t.isProxyValue v = m.isProxyValue v := by
  rw [proxyKind there,proxyKind (outlives.slot there),outlives.kind there]

theorem prototypeKept (outlives : Outlives m t) {i} (same : t.prototypeOf (t.entry i) = m.prototypeOf (m.entry i)) {above}
    (got : m.prototypeIndex i = .ok above) : t.prototypeIndex i = .ok above := by
  rw [prototypeAt] at got ⊢
  rw [same]
  cases prototype : m.prototypeOf (m.entry i) with
  | none =>
    rw [prototype] at got
    exact got
  | some w =>
    rw [prototype] at got
    exact outlives.slot got

theorem keptLeaves {sound} (at_ : At index m s) (kept : Kept sound C m t) (intrinsics : t.intrinsics = m.intrinsics)
    (shape : ∀ i e after, C i e after → SameShape e after) : Leaves index levels m t := by
  have turned : ∀ (i : Nat) e, m.heap[i]? = some e → ∃ after, t.heap[i]? = some after ∧ after.kind = e.kind ∧ ∀ m : Machine, m.prototypeOf after = m.prototypeOf e := by
    intro i e found
    obtain ⟨after,now,how⟩ := kept.slots i e found
    rcases how with rfl | change
    · exact ⟨_,now,rfl,fun _ => rfl⟩
    · exact ⟨after,now,(shape i e after change).kind,(shape i e after change).prototype⟩
  have outlives : Outlives m t := by
    refine ⟨intrinsics,fun i e found _ => ?_⟩
    obtain ⟨after,now,kind,_⟩ := turned i e found
    exact ⟨after,now,kind⟩
  have owner : ∀ e, t.prototypeOf e = m.prototypeOf e := by
    intro e
    unfold Machine.prototypeOf
    rw [intrinsics]
  refine ⟨?_,fun current rest part chain => ?_⟩
  · obtain ⟨after,now,how⟩ := kept.slots index _ at_
    rcases how with rfl | change
    · exact now.trans (Eq.symm at_)
    · exact absurd rfl (shape _ _ _ change).apart
  · clear part
    induction chain with
    | ends => exact .ends
    | @level v i next rest there direct above _ ih =>
      have same : t.prototypeOf (t.entry i) = m.prototypeOf (m.entry i) := by
        obtain ⟨after,now,_,prototype⟩ := turned i _ (slotFound there).1
        have here : t.entry i = after := by
          rw [Machine.entry,List.getD_eq_getElem?_getD,now]
          rfl
        rw [here,prototype t,owner]
      exact .level (outlives.slot there) ((directKept outlives there).trans direct)
        (aboveKept there (outlives.slot there) (directKept outlives there) (fun _ => prototypeKept outlives same) above) ih

end

section
variable {m : Machine} {index : Nat} {s : ForInIteratorState}

theorem deleteLeaves (at_ : At index m s) (levels object key) :
    Leaves index levels m (left (internalDelete object key) m) := by
  have changed : After (internalDelete object key) m (fun _ t => Kept False (Deletes key) m t) (Refused False (Deletes key) m) :=
    internalDeleteSpec False.elim object key
  have spec := changed.both (keepsDelete object key m)
  exact (spec.mono (fun _ _ done => keptLeaves at_ done.1 done.2 fun _ _ _ => deletesShape)
    fun _ _ failed => keptLeaves at_ failed.1.kept failed.2 fun _ _ _ => deletesShape).left

end

end Bamts.Runtime.ForIn
