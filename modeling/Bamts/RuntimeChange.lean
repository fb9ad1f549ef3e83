import Bamts.RuntimeAccount
import Bamts.RuntimeArray

/-! What each operation on properties and elements can do to the slots of the heap and to the
ledger, when it returns and when it fails. -/
set_option linter.all false
namespace Bamts.Runtime
open Effect Bytecode Linkage

def Fault.isLimit : Fault → Bool
  | .failure (.runtime (.heapSlotLimitExceeded _)) | .failure (.runtime (.heapByteLimitExceeded _)) => true
  | _ => false

def Fault.isLedger : Fault → Bool
  | .panicked .underflow => true
  | fault => fault.isLimit

-- Every slot is as it was or turned as `C` says; `sound` is what is known of the accounts.
structure Kept (sound : Prop) (C : Nat → HeapEntry → HeapEntry → Prop) (m t : Machine) : Prop where
  slots : ∀ (i : Nat) e, m.heap[i]? = some e → ∃ after, t.heap[i]? = some after ∧ (after = e ∨ C i e after)
  accounted : sound → Accounted stored t

structure Refused (sound : Prop) (C : Nat → HeapEntry → HeapEntry → Prop) (m : Machine) (fault : Fault) (t : Machine) :
    Prop where
  kept : Kept sound C m t
  solvent : sound → fault ≠ .panicked .underflow
  limit : sound → fault.isLimit = true → t = m

def Untouched : Nat → HeapEntry → HeapEntry → Prop := fun _ _ _ => False

section
variable {sound : Prop} {C : Nat → HeapEntry → HeapEntry → Prop} {m t u : Machine}

theorem Kept.refl (known : sound → Accounted stored m) : Kept sound C m m := ⟨fun _ e found => ⟨e,found,.inl rfl⟩,known⟩

theorem Kept.after (first : Kept sound Untouched m t) (second : Kept sound C t u) : Kept sound C m u := by
  refine ⟨?_,second.accounted⟩
  intro i e found
  obtain ⟨between,at_,same | no⟩ := first.slots i e found
  · subst same
    exact second.slots i between at_
  · exact no.elim

theorem Kept.turn {D} (kept : Kept sound C m t)
    (change : ∀ (i : Nat) e after, m.heap[i]? = some e → C i e after → D i e after) : Kept sound D m t := by
  refine ⟨?_,kept.accounted⟩
  intro i e found
  obtain ⟨after,at_,how⟩ := kept.slots i e found
  exact ⟨after,at_,how.imp id (change i e after found)⟩

theorem Kept.mono {weaker D} (kept : Kept sound C m t)
    (known : weaker → sound) (change : ∀ i e after, C i e after → D i e after) : Kept weaker D m t :=
  ⟨(kept.turn fun i e after _ => change i e after).slots,fun now => kept.accounted (known now)⟩

theorem Refused.mono {weaker D fault}
    (refused : Refused sound C m fault t) (known : weaker → sound) (change : ∀ i e after, C i e after → D i e after) :
    Refused weaker D m fault t :=
  ⟨refused.kept.mono known change,fun now => refused.solvent (known now),fun now => refused.limit (known now)⟩

theorem Refused.plain {fault} (kept : Kept sound C m t) (quiet : fault.isLedger = false) :
    Refused sound C m fault t := by
  refine ⟨kept,?_,?_⟩
  · intro _ same
    subst same
    cases quiet
  · intro _ limit
    cases fault with
    | panicked site => cases limit
    | _ => exact absurd limit (by simpa [Fault.isLedger] using quiet)

theorem OnlyLedger.kept (only : OnlyLedger m t) (known : sound → Accounted stored t) : Kept sound C m t :=
  ⟨fun i e found => ⟨e,by rw [only.heap]; exact found,.inl rfl⟩,known⟩

theorem limitFault {fault} (limit : LimitFault m fault) : fault ≠ .panicked .underflow := by
  cases limit with
  | slots => exact (nomatch ·)
  | bytes => exact (nomatch ·)

theorem Holding.kept {i n e after} (held : Holding stored sound m t i after n)
    (found : m.heap[i]? = some e) (change : after = e ∨ C i e after) : Kept sound C m t := by
  refine ⟨?_,held.accounted⟩
  intro j x at_
  obtain ⟨inside,_⟩ := List.getElem?_eq_some_iff.mp found
  rw [held.heap,List.getElem?_set]
  by_cases same : i = j
  · subst same
    rw [found] at at_
    cases Option.some.inj at_
    exact ⟨after,by rw [if_pos rfl,if_pos inside],change⟩
  · exact ⟨x,by rw [if_neg same]; exact at_,.inl rfl⟩

variable {α : Type} {i : Nat} {e : HeapEntry} {Q : α → Machine → Prop}

theorem afterCharge {p : Exec α} (known : sound → Accounted stored m) (found : m.heap[i]? = some e) (extra)
    (next : ∀ t, Holding stored sound m t i e extra → After p t Q (Refused sound C m)) :
    After (do chargeSlot i extra; p) m Q (Refused sound C m) := by
  obtain ⟨inside,_⟩ := List.getElem?_eq_some_iff.mp found
  rw [afterBind]
  refine ((Holding.start known found).charged inside extra).mono ?_ ?_
  · intro _ t held
    rw [Nat.zero_add] at held
    exact next t held
  · intro fault t failed
    obtain ⟨only,limit⟩ := failed
    refine ⟨only.kept fun good => ?_,fun good => limitFault (limit good).2,fun good _ => (limit good).1⟩
    rw [(limit good).1]
    exact known good

theorem afterSet {p : Exec α} {n after} (held : Holding stored sound m t i e n) (left)
    (less : sound → stored after + left ≤ stored e + n) (sized : sizeMatches e → sizeMatches after)
    (next : ∀ u, Holding stored sound m u i after left → After p u Q (Refused sound C m)) :
    After (do setEntry i after; p) t Q (Refused sound C m) := by
  exact next _ (held.rewrite after left less sized)

theorem refundLast {n amount after} (held : Holding stored sound m t i after n)
    (found : m.heap[i]? = some e) (change : after = e ∨ C i e after) (enough : sound → amount ≤ n) :
    After (refundSlot i amount) t (fun _ u => Kept sound C m u) (Refused sound C m) := by
  obtain ⟨inside,_⟩ := List.getElem?_eq_some_iff.mp found
  refine (held.refunded inside enough).mono (fun _ u done => done.kept found change) ?_
  intro fault u failed
  obtain ⟨only,unsound⟩ := failed
  refine ⟨⟨?_,fun good => absurd good unsound⟩,fun good => absurd good unsound,fun good => absurd good unsound⟩
  rw [only.heap]
  exact (held.kept found change).slots

theorem afterRefund {p : Exec α} {n amount after} (held : Holding stored sound m t i after n)
    (found : m.heap[i]? = some e) (change : after = e ∨ C i e after) (enough : sound → amount ≤ n)
    (next : ∀ u, Kept sound C m u → After p u Q (Refused sound C m)) :
    After (do refundSlot i amount; p) t Q (Refused sound C m) := by
  rw [afterBind]
  exact (refundLast held found change enough).mono (fun _ u kept => next u kept) (fun _ _ failed => failed)

end

def Quiet {α : Type} (x : Except Fault α) : Prop := ∀ fault, x = .error fault → fault.isLedger = false

section
variable {α β : Type}

theorem quietOk (a : α) : Quiet (.ok a) := fun _ no => nomatch no

theorem quietError {fault} (quiet : fault.isLedger = false) : Quiet (.error fault : Except Fault α) := by
  intro other same
  cases same
  exact quiet

theorem quietBind {x} {f : α → Except Fault β} (first : Quiet x) (next : ∀ a, Quiet (f a)) :
    Quiet (x >>= f) := by
  cases x with
  | ok a => exact next a
  | error fault => exact quietError (first fault rfl)

theorem quietMap {x} (f : α → β) (quiet : Quiet x) : Quiet (x.map f) := by
  cases x with
  | ok a => exact quietOk _
  | error fault => exact quietError (quiet fault rfl)

theorem quietOrPanic (x : Option α) : Quiet (orPanic x) := by
  cases x with
  | some a => exact quietOk a
  | none => exact quietError rfl

theorem quietSlot (m : Machine) (v) : Quiet (m.slot v) := by
  unfold Machine.slot
  split
  · exact quietError rfl
  · split
    · exact quietError rfl
    · split
      · exact quietError rfl
      · exact quietError rfl
      · exact quietOk _
  · exact quietOk _

theorem quietCell (m : Machine) (cell) : Quiet (m.cell cell) := quietOrPanic _

theorem quietExternalExport (m : Machine) (module edge name) :
    Quiet (m.externalExport module edge name) := by
  refine quietBind (quietOrPanic _) fun source => quietBind (quietOrPanic _) fun dependency =>
    quietBind (quietOrPanic _) fun specifier => ?_
  split
  · exact quietError rfl
  · refine quietBind (quietOrPanic _) fun name => ?_
    split
    · exact quietError rfl
    · exact quietCell m _

theorem quietLocalExport (m : Machine) (module binding) : Quiet (m.localExport module binding) := by
  refine quietBind (quietOrPanic _) fun source => quietBind (quietOrPanic _) fun linked =>
    quietBind (quietOrPanic _) fun cell => quietBind (quietCell m _) fun value => ?_
  split
  · exact quietError rfl
  · exact quietOk _

theorem quietNamespaceExport (m : Machine) (module name) :
    Quiet (m.namespaceExport module name) := by
  unfold Machine.namespaceExport
  split
  · exact quietOk _
  · refine quietBind (quietOrPanic _) fun program => ?_
    split
    · exact quietMap _ (quietLocalExport m _ _)
    · exact quietMap _ (quietExternalExport m _ _ _)
    · exact quietOk _

theorem quietFromValue (m v) : Quiet (ViewBuffer.fromValue m v) := by
  refine quietBind (quietSlot m v) fun slot => ?_
  split
  · exact quietError rfl
  · split
    · exact quietOk _
    · exact quietOk _
    · exact quietError rfl

theorem quietViewFields (m : Machine) (v) : Quiet (m.viewFields v) := by
  refine quietBind (quietSlot m v) fun slot => ?_
  split
  · exact quietOk _
  · exact quietError rfl

theorem quietBoundsFor (m : Machine) (fields) : Quiet (m.typedArrayBoundsFor fields) := by
  refine quietBind (quietFromValue m _) fun buffer => ?_
  split
  · exact quietOk _
  · exact quietOk _

theorem quietBounds (m : Machine) (v) : Quiet (m.typedArrayBounds v) :=
  quietBind (quietViewFields m v) fun fields => quietBoundsFor m fields

theorem quietIndex (i) : Quiet (Machine.valueForRuntimeIndex i) := by
  unfold Machine.valueForRuntimeIndex
  split
  · exact quietOk _
  · exact quietError rfl

theorem quietExtensible (m : Machine) (v) : Quiet (m.isExtensible v) := by
  refine quietBind (quietSlot m v) fun slot => ?_
  split
  · exact quietOk _
  · exact quietOk _
  · exact quietOk _

end

theorem slotFound {m : Machine} {v i} (slot : m.slot v = .ok (some i)) :
    m.heap[i]? = some (m.entry i) ∧ m.entry i ≠ .vacant := by
  unfold Machine.slot at slot
  split at slot
  · cases slot
  · split at slot
    · cases slot
    · split at slot
      · cases slot
      · cases slot
      · rename_i entry full found
        cases slot
        simp only [Machine.entry,List.getD_eq_getElem?_getD,found]
        exact ⟨rfl,full⟩
  · cases slot

theorem entryFound {m : Machine} {i e} (at_ : m.entry i = e) (full : e ≠ .vacant) : m.heap[i]? = some e := by
  rw [Machine.entry,List.getD_eq_getElem?_getD] at at_
  cases found : m.heap[i]? with
  | none =>
    rw [found] at at_
    exact absurd at_.symm full
  | some x =>
    rw [found] at at_
    exact congrArg some at_

theorem afterQuiet {sound C m α} {x : Except Fault α} {Q} (quiet : Quiet x) (known : sound → Accounted stored m) (next : ∀ a, x = .ok a → Q a m) :
    After (lift x) m Q (Refused sound C m) := by
  cases x with
  | ok a => exact next a rfl
  | error fault => exact .plain (.refl known) (quiet fault rfl)

theorem afterRuntimeSlot {sound C m v Q} (known : sound → Accounted stored m) (next : ∀ slot, m.slot v = .ok slot → Q slot m) :
    After (runtimeSlot v) m Q (Refused sound C m) := by
  exact afterQuiet (quietSlot m v) known next

theorem afterSlotAt {m v slot} (there : m.slot v = .ok slot) {Q E} : After (runtimeSlot v) m Q E ↔ Q slot m := by
  simp only [runtimeSlot,afterBind,afterRead,there,afterLiftOk]

theorem allocateAccounted {m t entry v} (good : Accounted stored m)
    (same : t = { m with gc := t.gc,heap := m.heap ++ [entry],slotBytes := m.slotBytes ++ [initialBytes m entry],
                         heapBytes := t.heapBytes }) (balanced : Balanced t)
    (value : valueForHeapIndex m.heap.length = some v) (paid : stored entry ≤ initialBytes m entry)
    (sized : sizeMatches entry) : Accounted stored t := by
  have heap : t.heap = m.heap ++ [entry] := by rw [same]
  have charges : t.slotBytes = m.slotBytes ++ [initialBytes m entry] := by rw [same]
  have native : t.intrinsicSlots = m.intrinsicSlots := by rw [same]
  have slots := good.balanced.slots
  have lookup : ∀ (j : Nat) x, t.heap[j]? = some x →
      (m.heap[j]? = some x ∧ t.held j = m.held j) ∨ (x = entry ∧ t.held j = initialBytes m entry) := by
    intro j x at_
    rw [heap,List.getElem?_append] at at_
    simp only [Machine.held,charges,List.getD_eq_getElem?_getD,List.getElem?_append,slots]
    by_cases old : j < m.heap.length
    · rw [if_pos old] at at_
      rw [if_pos old]
      exact .inl ⟨at_,rfl⟩
    · rw [if_neg old] at at_
      rw [if_neg old]
      have last : j-m.heap.length = 0 := by
        have := (List.getElem?_eq_some_iff.mp at_).1
        simpa using this
      rw [last] at at_ ⊢
      exact .inr ⟨(Option.some.inj at_).symm,rfl⟩
  refine ⟨balanced,?_,?_,?_⟩
  · rw [heap,List.length_append]
    unfold valueForHeapIndex at value
    split at value
    · assumption
    · cases value
  · intro j x at_ runtime
    rw [native] at runtime
    rcases lookup j x at_ with ⟨old,held⟩ | ⟨rfl,held⟩
    · rw [held]
      exact good.covered j x old runtime
    · rw [held]
      exact paid
  · intro j x at_
    rcases lookup j x at_ with ⟨old,_⟩ | ⟨rfl,_⟩
    · exact good.sized j x old
    · exact sized

theorem allocateSlots (m entry) :
    After (allocate entry) m (fun _ t => t.heap = m.heap ++ [entry])
      (fun fault t => (t.heap = m.heap ∧ fault.isLimit = true ∧ t = m) ∨ (t.heap = m.heap ++ [entry] ∧ fault.isLedger = false)) := by
  unfold allocate
  simp only [afterBind,afterRead]
  apply afterCapacity
  · intro _
    split
    · exact rfl
    · exact .inr ⟨rfl,rfl⟩
  · intro fault limit
    cases limit with
    | slots => exact .inl ⟨rfl,rfl,rfl⟩
    | bytes => exact .inl ⟨rfl,rfl,rfl⟩

theorem appendSlots {m t : Machine} {entry} (heap : t.heap = m.heap ++ [entry]) (i e)
    (found : m.heap[i]? = some e) : ∃ after, t.heap[i]? = some after ∧ (after = e ∨ Untouched i e after) := by
  obtain ⟨inside,_⟩ := List.getElem?_eq_some_iff.mp found
  exact ⟨e,by rw [heap,List.getElem?_append_left inside]; exact found,.inl rfl⟩

/-- An allocation leaves every slot as it was; one that fails for the limits leaves the machine as it was. -/
theorem allocateKept (m entry) (paid : stored entry ≤ initialBytes m entry) (sized : sizeMatches entry) :
    After (allocate entry) m
      (fun _ t => Kept (Accounted stored m) Untouched m t ∧ t.heap = m.heap ++ [entry])
      (Refused (Accounted stored m) Untouched m) := by
  by_cases good : Accounted stored m
  · refine ((allocateSpec good.balanced entry).both (allocateSlots m entry)).mono ?_ ?_
    · intro v t done
      obtain ⟨⟨same,balanced,value⟩,heap⟩ := done
      exact ⟨⟨appendSlots heap,fun _ => allocateAccounted good same balanced value paid sized⟩,heap⟩
    · intro fault t failed
      obtain ⟨⟨rfl,limit⟩,_⟩ := failed
      exact ⟨.refl id,fun _ => limitFault limit,fun _ _ => rfl⟩
  · refine (allocateSlots m entry).mono ?_ ?_
    · intro _ t heap
      exact ⟨⟨appendSlots heap,fun now => absurd now good⟩,heap⟩
    · intro fault t failed
      rcases failed with ⟨_,_,rfl⟩ | ⟨heap,_⟩
      · exact ⟨.refl id,fun now => absurd now good,fun now => absurd now good⟩
      · exact ⟨⟨appendSlots heap,fun now => absurd now good⟩,fun now => absurd now good,fun now => absurd now good⟩

theorem readElementSpec (m view offset) :
    After (readElement view offset) m (fun _ t => Kept (Accounted stored m) Untouched m t)
      (Refused (Accounted stored m) Untouched m) := by
  unfold readElement
  simp only [afterBind,afterRead]
  refine afterQuiet (quietViewFields m view) id fun fields _ => ?_
  refine afterQuiet (quietBoundsFor m fields) id fun bounds _ => ?_
  simp only [afterIte,afterPure,afterBind]
  refine ⟨fun _ => .refl id,fun _ => afterQuiet (quietFromValue m _) id fun buffer _ => ?_⟩
  split
  · exact .plain (.refl id) rfl
  · simp only [afterIte,afterFail]
    refine ⟨fun _ => .plain (.refl id) rfl,fun _ => ?_⟩
    have text : ∀ digits, After (allocate (.bigInt digits)) m (fun _ t => Kept (Accounted stored m) Untouched m t)
        (Refused (Accounted stored m) Untouched m) := fun digits =>
      (allocateKept m (.bigInt digits) (Nat.zero_le _) trivial).mono (fun _ _ done => done.1) (fun _ _ failed => failed)
    unfold valueFromStorage
    split
    all_goals first | exact text _ | exact .refl id

def HeapEntry.reported (key : PropertyKey) : HeapEntry → Option Property
  | .array header elements lengthWritable => arrayDescriptor header elements lengthWritable key
  | entry =>
    if entry.kind ∈ HeapEntry.describedKinds then entry.header?.bind fun header => header.properties.get key else none

def Elemental (e : HeapEntry) (key : PropertyKey) : Prop := e.kind = .typedArray ∧ key.typedIndex.isSome = true

theorem ownDescriptorSpec (m object key) :
    After (ownDescriptor object key) m
      (fun d t => Kept (Accounted stored m) Untouched m t ∧ (m.slot object = .ok none → d = none) ∧
        (t = m ∨ ∃ i, m.slot object = .ok (some i) ∧ Elemental (m.entry i) key) ∧
        ∀ i, m.slot object = .ok (some i) → (m.entry i).kind ≠ .moduleNamespace → ¬Elemental (m.entry i) key →
          d = (m.entry i).reported key ∧ t = m)
      (Refused (Accounted stored m) Untouched m) := by
  unfold ownDescriptor
  simp only [afterBind,afterRead]
  refine afterRuntimeSlot id fun slot found => ?_
  simp only [found,Except.ok.injEq]
  have still : Kept (Accounted stored m) Untouched m m := .refl id
  cases slot with
  | none => simp [still]
  | some i =>
    simp only [Option.some.injEq,reduceCtorEq,false_implies,true_and,forall_eq',exists_eq_left']
    cases here : m.entry i with
    | moduleNamespace module =>
      dsimp only
      split
      · exact ⟨still,.inl rfl,fun no => absurd rfl no⟩
      · rw [afterBind]
        exact afterQuiet (quietNamespaceExport m module _) id fun value _ => ⟨still,.inl rfl,fun no => absurd rfl no⟩
    | typedArray header fields =>
      dsimp only
      split
      · rename_i none_
        exact ⟨still,.inl rfl,fun _ _ => ⟨rfl,rfl⟩⟩
      · rename_i typed some_
        have elemental : Elemental (.typedArray header fields) key := ⟨rfl,by rw [some_]; rfl⟩
        simp only [afterBind]
        refine afterQuiet (quietIndex i) id fun view _ => afterQuiet (quietBounds m view) id fun bounds _ => ?_
        split
        · exact ⟨still,.inl rfl,fun _ no => absurd elemental no⟩
        · rw [afterIte,afterBind]
          refine ⟨fun _ => ⟨still,.inl rfl,fun _ no => absurd elemental no⟩,fun _ => ?_⟩
          exact (readElementSpec m view _).mono (fun _ _ done => ⟨done,.inr elemental,fun _ no => absurd elemental no⟩)
            (fun _ _ failed => failed)
    | array header elements lengthWritable => exact ⟨still,.inl rfl,fun _ _ => ⟨rfl,rfl⟩⟩
    | _ =>
      rw [afterIte]
      exact ⟨fun described => ⟨still,.inl rfl,fun _ _ => ⟨by simp only [HeapEntry.reported,if_pos described],rfl⟩⟩,
        fun other => ⟨still,.inl rfl,fun _ _ => ⟨by simp only [HeapEntry.reported,if_neg other],rfl⟩⟩⟩

def BufferChange (e after : HeapEntry) : Prop :=
  ∃ header data bytes, e = .arrayBuffer header data ∧ after = .arrayBuffer header { data with bytes := bytes }

theorem Accounted.relabel {m} (good : Accounted stored m) {heap} (size : heap.length = m.heap.length) (each : ∀ (j : Nat) x, heap[j]? = some x →
      ∃ e, m.heap[j]? = some e ∧ stored x ≤ stored e ∧ (sizeMatches e → sizeMatches x)) :
    Accounted stored { m with heap := heap } := by
  refine ⟨⟨good.balanced.slots.trans size.symm,good.balanced.total,good.balanced.credits,?_⟩,?_,?_,?_⟩
  · exact Nat.le_trans good.balanced.intrinsic (Nat.le_of_eq size.symm)
  · exact Nat.lt_of_le_of_lt (Nat.le_of_eq size) good.bounded
  · intro j x at_ runtime
    obtain ⟨e,found,less,_⟩ := each j x at_
    exact Nat.le_trans less (good.covered j e found runtime)
  · intro j x at_
    obtain ⟨e,found,_,sized⟩ := each j x at_
    exact sized (good.sized j e found)

def storeIn (bytes : List UInt8) : HeapEntry → HeapEntry
  | .arrayBuffer header data => .arrayBuffer header { data with bytes := some bytes }
  | entry => entry

theorem storeInChange (bytes e) :
    (storeIn bytes e = e ∨ BufferChange e (storeIn bytes e)) ∧ stored (storeIn bytes e) = stored e ∧
    (sizeMatches e → sizeMatches (storeIn bytes e)) := by
  cases e with
  | arrayBuffer header data => exact ⟨.inr ⟨header,data,some bytes,rfl,rfl⟩,rfl,id⟩
  | _ => exact ⟨.inl rfl,rfl,id⟩

theorem storeBytesSpec (m buffer bytes) :
    After (storeBytes buffer bytes) m (fun _ t => Kept (Accounted stored m) (fun _ => BufferChange) m t) (fun _ _ => False) := by
  cases buffer with
  | shared block _ =>
    refine ⟨fun i e found => ⟨e,found,.inl rfl⟩,fun good => ?_⟩
    exact ⟨⟨good.balanced.slots,good.balanced.total,good.balanced.credits,good.balanced.intrinsic⟩,good.bounded,
      good.covered,good.sized⟩
  | array index old =>
    show Kept _ _ m { m with heap := m.heap.modify index (storeIn bytes) }
    refine ⟨?_,fun good => good.relabel (List.length_modify ..) ?_⟩
    · intro j e found
      refine ⟨if index = j then storeIn bytes e else e,by simp [List.getElem?_modify,found],?_⟩
      split
      · exact (storeInChange bytes e).1
      · exact .inl rfl
    · intro j x at_
      rw [List.getElem?_modify] at at_
      obtain ⟨e,found,same⟩ := Option.map_eq_some_iff.mp at_
      refine ⟨e,found,?_⟩
      split at same
      · subst same
        exact ⟨Nat.le_of_eq (storeInChange bytes e).2.1,(storeInChange bytes e).2.2⟩
      · subst same
        exact ⟨Nat.le_refl _,id⟩

theorem writeElementSpec (m view offset v) :
    After (writeElement view offset v) m (fun _ t => Kept (Accounted stored m) (fun _ => BufferChange) m t)
      (fun fault t => t = m ∧ fault.isLedger = false) := by
  unfold writeElement
  have quietly : ∀ {α : Type} {x : Except Fault α} {Q : α → Machine → Prop}, Quiet x → (∀ a, Q a m) →
      After (lift x) m Q (fun fault t => t = m ∧ fault.isLedger = false) := by
    intro α x Q quiet next
    cases x with
    | ok a => exact next a
    | error fault => exact ⟨rfl,quiet fault rfl⟩
  simp only [afterBind,afterRead]
  refine quietly (quietViewFields m view) fun fields => ?_
  split
  · exact ⟨rfl,rfl⟩
  · simp only [afterBind]
    refine quietly (quietBoundsFor m fields) fun bounds => ?_
    simp only [afterIte,afterPure,afterBind]
    refine ⟨fun _ => .refl id,fun _ => quietly (quietFromValue m _) fun buffer => ?_⟩
    split
    · exact ⟨rfl,rfl⟩
    · simp only [afterIte,afterFail,afterBind,afterPure]
      refine ⟨fun _ => ⟨trivial,rfl⟩,fun _ => ?_⟩
      exact (storeBytesSpec m buffer _).mono (fun _ _ done => done) (fun _ _ no => no.elim)

end Bamts.Runtime
