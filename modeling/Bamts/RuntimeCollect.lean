import Bamts.RuntimeTrace
import Bamts.RuntimeAccount
import Mathlib.Data.List.Nodup

/-! Garbage collection: marking, weak targets, weak entries and the sweep. -/
set_option linter.all false
namespace Bamts.Runtime
open Effect Binary64

def textDigest : HeapEntry → Option KeyDigest
  | .string text => some (.text text)
  | .bigInt text => some (.bigInt text)
  | _ => none

def keyDigest (heap : List HeapEntry) (key : Value) : KeyDigest :=
  match key.decode with
  | some (.number x) => .number (if x.isNaN then Value.canonNan else if x.isZero then 0 else x.bits)
  | some (.int32 raw) => .number (int32Double raw).bits
  | some (.heapRef id) =>
    if id.segment ≠ runtimeHeapSegment then .reference key.bits
    else (textDigest (heap.getD (id.slot.toNat-1) .vacant)).getD (.reference key.bits)
  | _ => .other key.bits

def collectionKeyHash (m : Machine) (key : Value) : UInt64 := m.platform.hash (keyDigest m.heap key)

def rebuildIndex (m : Machine) (entries : List CollectionEntry) : CollectionIndex :=
  entries.zipIdx.foldl (fun index entry => index.insert (collectionKeyHash m entry.1.key) entry.2) .empty

def isMarkedValue (marks : List Bool) (value : Value) : Bool :=
  (runtimeIndex value).elim false fun index => marks.getD index false

-- A weak reference or a registry once the targets that are not `reached` are gone.
def weakProcessed (reached : Value → Bool) : HeapEntry → HeapEntry
  | .weakRef header target => .weakRef header (target.filter reached)
  | .finalizationRegistry header cleanupCallback cells pendingHoldings cleanupScheduled =>
    let pending := pendingHoldings ++ (cells.filter fun cell => !reached cell.target).map (·.heldValue)
    .finalizationRegistry header cleanupCallback (cells.filter fun cell => reached cell.target) pending
      (cleanupScheduled || !pending.isEmpty)
  | entry => entry

def released (reached : Value → Bool) : HeapEntry → Nat
  | .finalizationRegistry _ _ cells _ _ =>
    (cells.filter fun cell => !reached cell.target).length*(FinalizationCell.bytes-valueBytes)
  | _ => 0

def isScheduled : HeapEntry → Bool
  | .finalizationRegistry _ _ _ _ cleanupScheduled => cleanupScheduled
  | _ => false

def processWeakTarget (marks : List Bool) (index : Nat) : Exec Unit := do
  let m ← read
  let before := m.heap.getD index .vacant
  let after := weakProcessed (isMarkedValue marks) before
  if marks.getD index false then
    setEntry index after
    given (released (isMarkedValue marks) before ≠ 0) do refundSlot index (released (isMarkedValue marks) before)
    given (isScheduled after ∧ isScheduled before = false) do
      match valueForHeapIndex index with
      | some registry => update fun m => { m with finalizationCleanupQueue := m.finalizationCleanupQueue ++ [registry] }
      | none => fail (.panicked .unexpected)

def processWeakTargetsAfterMarking (marks : List Bool) : Exec Unit := do
  let m ← read
  forM (List.range m.heap.length) (processWeakTarget marks)

def retained (reached : Value → Bool) (entries : List CollectionEntry) : List CollectionEntry :=
  entries.filter fun entry => entry.live && reached entry.key

def purgeWeakCollection (marks : List Bool) (index : Nat) : Exec Unit := do
  let m ← read
  if marks.getD index false then
    match m.heap.getD index .vacant with
    | .collection header kind entries _ size nextOrder =>
      if isWeakKind kind then
        let kept := retained (isMarkedValue marks) entries
        if size < kept.length then fail (.panicked .underflow)
        else
          let removed := size-kept.length
          setEntry index (.collection header kind kept (rebuildIndex m kept) (size-removed) nextOrder)
          refundSlot index (removed*(CollectionEntry.bytes+CollectionIndex.entryBytes))
      else refundSlot index 0
    | _ => refundSlot index 0

def sweepSlot (marks : List Bool) (index : Nat) : Exec Unit := do
  let m ← read
  if marks.getD index false || (m.heap.getD index .vacant).isVacant then pure ()
  else match m.slotBytes[index]? with
    | none => fail (.panicked .unexpected)
    | some charge =>
      if m.heapBytes < charge then fail (.panicked .underflow)
      else update fun m =>
        { m with
          heap := m.heap.set index .vacant
          slotBytes := m.slotBytes.set index 0
          heapBytes := m.heapBytes-charge
          vacantCount := m.vacantCount+1 }

def collectGarbage : Exec Unit := do
  let m ← read
  let traced := Tracing.trace (heapGraph m.heap) (traceRoots m)
  processWeakTargetsAfterMarking traced.marks
  forM traced.holders (purgeWeakCollection traced.marks)
  forM (List.range' m.intrinsicSlots (m.heap.length-m.intrinsicSlots)) (sweepSlot traced.marks)
  update fun m =>
    { m with gc :=
        { marks := traced.marks,work := [],weakCollections := traced.holders,pending := false
          byteWatermark := min (m.heapBytes*2) m.limits.maxHeapBytes
          slotWatermark := min (m.liveRuntimeSlots*2) m.limits.maxHeapSlots } }

def OnlyCollects (m t : Machine) : Prop :=
  t = { m with
    gc := t.gc,heap := t.heap,slotBytes := t.slotBytes,intrinsicSlotCredits := t.intrinsicSlotCredits
    heapBytes := t.heapBytes,machineBytes := t.machineBytes,vacantCount := t.vacantCount
    finalizationCleanupQueue := t.finalizationCleanupQueue }

theorem OnlyCollects.trans {m t u} (first : OnlyCollects m t) (second : OnlyCollects t u) :
    OnlyCollects m u := by
  unfold OnlyCollects at *
  rw [second,first]

theorem OnlyCollects.platform {m t} (same : OnlyCollects m t) : t.platform = m.platform := by rw [same]

theorem OnlyHeap.collects {m t} (same : OnlyHeap m t) : OnlyCollects m t := by
  unfold OnlyCollects
  rw [same]

def weakCharge : HeapEntry → Nat
  | .finalizationRegistry _ _ cells pendingHoldings _ =>
    cells.length*FinalizationCell.bytes+pendingHoldings.length*valueBytes
  | .collection _ kind _ _ size _ =>
    if isWeakKind kind then size*(CollectionEntry.bytes+CollectionIndex.entryBytes) else 0
  | _ => 0

theorem weakProcessedCharge (reached e) :
    weakCharge (weakProcessed reached e) + released reached e ≤ weakCharge e := by
  cases e with
  | finalizationRegistry header callback cells pending scheduled =>
    have split := List.length_eq_length_filter_add (l := cells) fun cell => reached cell.target
    simp only [weakCharge,weakProcessed,released,FinalizationCell.bytes,valueBytes,List.length_append,List.length_map]
    omega
  | _ => simp [weakCharge,weakProcessed,released]

-- A charge that the refunds of a collection never take below what is left to be charged.
structure Refundable (charge : HeapEntry → Nat) : Prop where
  vacant : charge .vacant = 0
  processed : ∀ reached e, charge (weakProcessed reached e) + released reached e ≤ charge e
  purged : ∀ header kind entries index size nextOrder kept rebuilt, isWeakKind kind → kept.length ≤ size →
    charge (.collection header kind kept rebuilt kept.length nextOrder) +
      (size-kept.length)*(CollectionEntry.bytes+CollectionIndex.entryBytes) ≤
    charge (.collection header kind entries index size nextOrder)

theorem weakRefundable : Refundable weakCharge := by
  refine ⟨rfl,weakProcessedCharge,?_⟩
  intro header kind entries index size nextOrder kept rebuilt weak fits
  simp only [weakCharge,weak,if_true,CollectionEntry.bytes,CollectionIndex.entryBytes]
  omega

theorem storedRefundable : Refundable stored := by
  refine ⟨rfl,?_,?_⟩
  · intro reached e
    cases e with
    | finalizationRegistry header callback cells pending scheduled =>
      have less := weakProcessedCharge reached (.finalizationRegistry header callback cells pending scheduled)
      simp only [weakCharge,weakProcessed] at less
      unfold stored contentBytes weakProcessed HeapEntry.header? HeapEntry.kind
      dsimp only
      omega
    | _ => exact Nat.le_refl _
  · intro header kind entries index size nextOrder kept rebuilt _ fits
    unfold stored contentBytes HeapEntry.header? HeapEntry.kind CollectionEntry.bytes CollectionIndex.entryBytes
    dsimp only
    omega

structure SlotStep (charge : HeapEntry → Nat) (m t : Machine) (index : Nat) (entry : HeapEntry) : Prop where
  only : OnlyCollects m t
  heap : t.heap = m.heap.set index entry
  accounted : Accounted charge m → Accounted charge t

section
variable {charge : HeapEntry → Nat}

theorem Holding.slotStep {m t i n e} (held : Holding charge (Accounted charge m) m t i e n) :
    SlotStep charge m t i e := ⟨held.only.collects,held.heap,held.accounted⟩

theorem refundStep {m i n before after} (found : m.heap[i]? = some before)
    (less : charge after + n ≤ charge before) (sized : sizeMatches before → sizeMatches after) :
    After (refundSlot i n) { m with heap := m.heap.set i after } (fun _ t => SlotStep charge m t i after)
      (fun _ _ => ¬Accounted charge m) := by
  obtain ⟨inside,_⟩ := List.getElem?_eq_some_iff.mp found
  have held := (Holding.start (@id (Accounted charge m)) found).rewrite after n (fun _ => less) sized
  exact (held.refunded inside fun _ => Nat.le_refl n).mono (fun _ _ done => done.slotStep) (fun _ _ failed => failed.2)

theorem SlotStep.rewrite {m i before after} (found : m.heap[i]? = some before)
    (less : charge after ≤ charge before) (sized : sizeMatches before → sizeMatches after) :
    SlotStep charge m { m with heap := m.heap.set i after } i after :=
  ((Holding.start id found).rewrite after 0 (fun _ => less) sized).slotStep

theorem SlotStep.stay {m i e} (found : m.heap[i]? = some e) : SlotStep charge m m i e :=
  (Holding.start id found).slotStep

theorem weakProcessedSized (reached e) : sizeMatches e → sizeMatches (weakProcessed reached e) := by
  cases e with
  | collection => exact id
  | _ => exact fun _ => trivial

theorem processWeakTargetSpec (fair : Refundable charge) (marks) {m i e} (found : m.heap[i]? = some e) :
    After (processWeakTarget marks i) m
      (fun _ t => SlotStep charge m t i (if marks.getD i false then weakProcessed (isMarkedValue marks) e else e))
      (fun _ _ => ¬Accounted charge m) := by
  obtain ⟨inside,_⟩ := List.getElem?_eq_some_iff.mp found
  have here : m.heap.getD i .vacant = e := by simp [found]
  unfold processWeakTarget
  simp only [afterBind,afterRead,here,setEntry]
  by_cases marked : marks.getD i false = true
  · simp only [marked,if_true,afterBind,afterUpdate]
    have less := fair.processed (isMarkedValue marks) e
    have sized := weakProcessedSized (isMarkedValue marks) e
    have paid : After (given (released (isMarkedValue marks) e ≠ 0) (refundSlot i (released (isMarkedValue marks) e)))
        { m with heap := m.heap.set i (weakProcessed (isMarkedValue marks) e) }
        (fun _ t => SlotStep charge m t i (weakProcessed (isMarkedValue marks) e)) (fun _ _ => ¬Accounted charge m) := by
      rw [afterGiven]
      exact ⟨fun _ => refundStep found less sized,fun _ => .rewrite found (by omega) sized⟩
    refine paid.mono ?_ (fun _ _ failed => failed)
    intro _ t step
    rw [afterGiven]
    refine ⟨fun _ => ?_,fun _ => step⟩
    split
    · refine ⟨step.only.trans rfl,step.heap,fun sound => ?_⟩
      have kept := step.accounted sound
      exact ⟨⟨kept.balanced.slots,kept.balanced.total,kept.balanced.credits,kept.balanced.intrinsic⟩,kept.bounded,
        kept.covered,kept.sized⟩
    · rename_i missing
      intro sound
      obtain ⟨id,value,_⟩ := valueForIndex (show i+1 < 2^32 by have := sound.bounded; omega)
      rw [value] at missing
      cases missing
  · simp only [marked]
    exact .stay found

def purged (m : Machine) (reached : Value → Bool) : HeapEntry → HeapEntry
  | .collection header kind entries index size nextOrder =>
    if isWeakKind kind then
      .collection header kind (retained reached entries) (rebuildIndex m (retained reached entries))
        (retained reached entries).length nextOrder
    else .collection header kind entries index size nextOrder
  | entry => entry

theorem retainedCount (reached entries) :
    (retained reached entries).length ≤ entries.countP (·.live) := by
  rw [retained,← List.countP_eq_length_filter]
  apply List.countP_mono_left
  intro entry _ both
  exact (Bool.and_eq_true _ _ ▸ both).1

theorem retainedLive (reached entries) :
    (retained reached entries).countP (·.live) = (retained reached entries).length := by
  rw [List.countP_eq_length]
  intro entry member
  exact (Bool.and_eq_true _ _ ▸ (List.mem_filter.mp member).2).1

theorem purgeStay {m i e} (found : m.heap[i]? = some e) :
    After (refundSlot i 0) m (fun _ t => SlotStep charge m t i e) (fun _ _ => ¬Accounted charge m) := by
  have refund := @refundStep charge m i 0 e e found (Nat.le_refl _) id
  rw [setSelf found] at refund
  exact refund

theorem purgeSpec (fair : Refundable charge) (marks) {m i e} (found : m.heap[i]? = some e) :
    After (purgeWeakCollection marks i) m
      (fun _ t => SlotStep charge m t i (if marks.getD i false then purged m (isMarkedValue marks) e else e))
      (fun _ _ => ¬Accounted charge m) := by
  have here : m.heap.getD i .vacant = e := by simp [found]
  unfold purgeWeakCollection
  simp only [afterBind,afterRead,here]
  by_cases marked : marks.getD i false = true
  · simp only [marked,if_true]
    cases e with
    | collection header kind entries index size nextOrder =>
      by_cases weak : isWeakKind kind = true
      · simp only [weak,if_true,purged,afterIte,afterFail,afterBind,setEntry,afterUpdate]
        refine ⟨fun short sound => ?_,fun fits => ?_⟩
        · have size : size = entries.countP (·.live) := sound.sized i _ found
          have := retainedCount (isMarkedValue marks) entries
          omega
        · have kept : size-(size-(retained (isMarkedValue marks) entries).length) =
              (retained (isMarkedValue marks) entries).length := by omega
          rw [kept]
          exact refundStep found (fair.purged _ _ _ _ _ _ _ _ weak (by omega)) fun _ => (retainedLive _ entries).symm
      · simp only [weak,purged]
        exact purgeStay found
    | _ => exact purgeStay found
  · simp only [marked]
    exact .stay found

theorem sweepSpec (fair : Refundable charge) (marks) {m i e} (found : m.heap[i]? = some e) :
    After (sweepSlot marks i) m (fun _ t => SlotStep charge m t i (if marks.getD i false then e else .vacant))
      (fun _ _ => ¬Accounted charge m) := by
  have here : m.heap.getD i .vacant = e := by simp [found]
  unfold sweepSlot
  simp only [afterBind,afterRead,here]
  by_cases marked : marks.getD i false = true
  · simp only [marked,Bool.true_or,if_true]
    exact .stay found
  by_cases vacant : e.isVacant = true
  · have : e = .vacant := by
      cases e with
      | vacant => rfl
      | _ => cases vacant
    subst this
    simp only [HeapEntry.isVacant,Bool.or_true,if_true]
    rw [if_neg marked]
    exact .stay found
  simp only [marked,vacant]
  obtain ⟨inside,_⟩ := List.getElem?_eq_some_iff.mp found
  cases held : m.slotBytes[i]? with
  | none =>
    intro sound
    have := sound.balanced.slots
    have := List.getElem?_eq_none_iff.mp held
    omega
  | some charge =>
    have part := leSum held
    simp only [Bool.or_self,Bool.false_eq_true,if_false,afterIte,afterFail,afterUpdate]
    refine ⟨fun short sound => ?_,fun enough => ⟨rfl,rfl,fun sound => ?_⟩⟩
    · have := sound.balanced.total
      omega
    · have slot : i < m.slotBytes.length := by rw [sound.balanced.slots]; exact inside
      have holds : m.slotBytes.getD i 0 = charge := by simp [held]
      refine rewriteAccounted sound rfl ⟨?_,?_,sound.balanced.credits,?_⟩ rfl ?_ (fun _ => by rw [fair.vacant]; exact Nat.zero_le _)
        trivial
      · simpa using sound.balanced.slots
      · have := sumModify slot fun _ => 0
        have := sound.balanced.total
        simp only [setModify held fun _ => 0]
        omega
      · simpa using sound.balanced.intrinsic
      · intro j _ away
        simp only [Machine.held,setModify held fun _ => 0,getModify slot,away,if_false]

theorem digestSet {heap i e after} (found : heap[i]? = some e)
    (same : textDigest after = textDigest e) : keyDigest (heap.set i after) = keyDigest heap := by
  obtain ⟨inside,_⟩ := List.getElem?_eq_some_iff.mp found
  have at_ : ∀ j, textDigest ((heap.set i after).getD j .vacant) = textDigest (heap.getD j .vacant) := by
    intro j
    by_cases here : i = j
    · subst here
      simp [inside,same,List.getElem_eq_iff inside |>.mpr found]
    · simp [here]
  funext key
  simp only [keyDigest,at_]

theorem slotsLength {heap after : List HeapEntry} {f : Nat → HeapEntry → HeapEntry}
    (slots : ∀ i, after[i]? = (heap[i]?).map (f i)) : after.length = heap.length := by
  have none_ : ∀ i, after.length ≤ i ↔ heap.length ≤ i := by
    intro i
    rw [← List.getElem?_eq_none_iff,slots i,Option.map_eq_none_iff,List.getElem?_eq_none_iff]
  have := none_ after.length
  have := none_ heap.length
  omega

theorem slotLoop (m) (step : Nat → Exec Unit) (f : Nat → HeapEntry → HeapEntry) (J : List HeapEntry → Prop)
    (one : ∀ t i e, OnlyCollects m t → J t.heap → t.heap[i]? = some e →
      After (step i) t (fun _ u => SlotStep charge t u i (f i e)) (fun _ _ => ¬Accounted charge t))
    (keep : ∀ heap (i : Nat) e, J heap → heap[i]? = some e → J (heap.set i (f i e)))
    {xs : List Nat} (distinct : xs.Nodup) (inside : ∀ i ∈ xs, i < m.heap.length) (start : J m.heap) :
    After (forM xs step) m
      (fun _ t => OnlyCollects m t ∧ J t.heap ∧ (Accounted charge m → Accounted charge t) ∧
        ∀ i, t.heap[i]? = (m.heap[i]?).map fun e => if i ∈ xs then f i e else e)
      (fun _ _ => ¬Accounted charge m) := by
  let I : List Nat → Machine → Prop := fun rest t =>
    OnlyCollects m t ∧ J t.heap ∧ (Accounted charge m → Accounted charge t) ∧ rest.Nodup ∧ (∀ i ∈ rest, i ∈ xs) ∧
    ∀ i, t.heap[i]? = (m.heap[i]?).map fun e => if i ∈ xs ∧ i ∉ rest then f i e else e
  have loop : After (forM xs step) m (fun _ t => I [] t) (fun _ _ => ¬Accounted charge m) := by
    apply afterForM
    · intro x rest t now
      obtain ⟨only,good,accounted,nodup,within,heap⟩ := now
      obtain ⟨fresh,nodup⟩ := List.nodup_cons.mp nodup
      have member := within x List.mem_cons_self
      obtain ⟨e,found⟩ : ∃ e, m.heap[x]? = some e := ⟨_,List.getElem?_eq_getElem (inside x member)⟩
      have at_ : t.heap[x]? = some e := by rw [heap x,found]; simp
      refine (one t x e only good at_).mono ?_ (fun _ _ failed sound => failed (accounted sound))
      intro _ u stepped
      refine ⟨only.trans stepped.only,?_,fun sound => stepped.accounted (accounted sound),nodup,
        fun i later => within i (List.mem_cons_of_mem _ later),?_⟩
      · rw [stepped.heap]
        exact keep _ x e good at_
      · intro i
        obtain ⟨low,_⟩ := List.getElem?_eq_some_iff.mp at_
        rw [stepped.heap,List.getElem?_set]
        by_cases same : x = i
        · subst same
          simp [low,found,member,fresh]
        · rw [if_neg same,heap i]
          simp [Ne.symm same]
    · exact ⟨rfl,start,id,distinct,fun _ member => member,fun i => by simp⟩
  refine loop.mono ?_ (fun _ _ failed => failed)
  intro _ t done
  obtain ⟨only,good,accounted,_,_,heap⟩ := done
  exact ⟨only,good,accounted,fun i => by simpa using heap i⟩

theorem weakProcessedText (reached e) :
    textDigest (weakProcessed reached e) = textDigest e := by
  cases e with
  | _ => rfl

theorem purgedText (m reached e) : textDigest (purged m reached e) = textDigest e := by
  cases e with
  | collection header kind =>
    simp only [purged]
    split
    · rfl
    · rfl
  | _ => rfl

theorem purgedCongr {m t} (platform : t.platform = m.platform) (digest : keyDigest t.heap = keyDigest m.heap) :
    purged t = purged m := by
  have hash : collectionKeyHash t = collectionKeyHash m := by
    funext key
    rw [collectionKeyHash,collectionKeyHash,platform,digest]
  have rebuilt : rebuildIndex t = rebuildIndex m := by
    funext entries
    rw [rebuildIndex,rebuildIndex,hash]
  funext reached e
  cases e with
  | collection => simp only [purged,rebuilt]
  | _ => rfl

def survivor (m : Machine) (reached : Value → Bool) : HeapEntry → HeapEntry
  | .collection header kind entries index size nextOrder =>
    if isWeakKind kind then
      let kept := entries.filter fun entry => entry.live && reached entry.key
      .collection header kind kept (rebuildIndex m kept) kept.length nextOrder
    else .collection header kind entries index size nextOrder
  | .weakRef header target => .weakRef header (target.filter reached)
  | .finalizationRegistry header cleanupCallback cells pendingHoldings cleanupScheduled =>
    let pending := pendingHoldings ++ (cells.filter fun cell => !reached cell.target).map (·.heldValue)
    .finalizationRegistry header cleanupCallback (cells.filter fun cell => reached cell.target) pending
      (cleanupScheduled || !pending.isEmpty)
  | entry => entry

theorem survivorSplit (m reached e) :
    purged m reached (weakProcessed reached e) = survivor m reached e := by
  cases e with
  | _ => rfl

theorem survivorPlain {m reached e} (plain : isWeakCollection e = false) :
    weakProcessed reached e = survivor m reached e := by
  cases e with
  | collection header kind =>
    have : isWeakKind kind = false := plain
    simp [weakProcessed,survivor,this]
  | _ => rfl

theorem survivorVacant (m reached e) :
    (survivor m reached e).isVacant = e.isVacant := by
  cases e with
  | collection header kind =>
    simp only [survivor]
    split
    · rfl
    · rfl
  | _ => rfl

def Machine.Occupied (m : Machine) (index : Nat) : Prop := ∃ e, m.heap[index]? = some e ∧ e.isVacant = false

def Machine.ReachableValue (m : Machine) (value : Value) : Prop := ∃ i, runtimeIndex value = some i ∧ m.Reachable i

structure Collected (m t : Machine) (reached : Value → Bool) : Prop where
  only : OnlyCollects m t
  size : t.heap.length = m.heap.length
  occupied : ∀ i, m.intrinsicSlots ≤ i → (t.Occupied i ↔ m.Occupied i ∧ m.Reachable i)
  intrinsic : ∀ i, i < m.intrinsicSlots → (t.Occupied i ↔ m.Occupied i)
  contents : ∀ (i : Nat) e, t.heap[i]? = some e → e.isVacant = false →
    ∃ before, m.heap[i]? = some before ∧ e = survivor m reached before

def marksOf (m : Machine) : List Bool := (Tracing.trace (heapGraph m.heap) (traceRoots m)).marks

theorem marksExact (m i) : (marksOf m).getD i false = true ↔ m.Reachable i :=
  (Tracing.traceExact (heapGraph m.heap) (traceRoots m)).1 i

theorem holdersExact {m i e} (found : m.heap[i]? = some e) :
    i ∈ (Tracing.trace (heapGraph m.heap) (traceRoots m)).holders ↔
      isWeakCollection e = true ∧ (marksOf m).getD i false = true := by
  have here : m.heap.getD i .vacant = e := by simp [found]
  rw [(Tracing.traceExact (heapGraph m.heap) (traceRoots m)).2.2.1 i,marksExact]
  simp only [heapGraph,here]
  rfl

theorem occupiedAt {m : Machine} {i e} (found : m.heap[i]? = some e) :
    m.Occupied i ↔ e.isVacant = false := by
  simp [Machine.Occupied,found]

theorem vacantPast {m : Machine} {i} (none_ : m.heap[i]? = none) : ¬m.Occupied i := by
  simp [Machine.Occupied,none_]

theorem reachLive {m : Machine} {i} (reach : m.Reachable i) : m.Occupied i := by
  have live : (heapGraph m.heap).live i = true := by
    cases reach with
    | root _ live => exact live
    | edge _ _ live => exact live
    | pair _ _ _ live => exact live
  obtain ⟨inside,full⟩ := (Bool.and_eq_true _ _).mp live
  have inside : i < m.heap.length := of_decide_eq_true inside
  have found := List.getElem?_eq_getElem inside
  exact ⟨m.heap[i],found,by simpa [heapGraph,found] using full⟩

theorem reachIntrinsic {m : Machine} {i} (native : i < m.intrinsicSlots) (full : m.Occupied i) : m.Reachable i := by
  obtain ⟨e,found,some_⟩ := full
  obtain ⟨inside,_⟩ := List.getElem?_eq_some_iff.mp found
  refine .root ?_ ?_
  · unfold traceRoots
    simp only [List.append_assoc]
    exact List.mem_append_left _ (List.mem_range.mpr native)
  · have here : m.heap.getD i .vacant = e := by simp [found]
    simp only [Tracing.Graph.live,heapGraph,here,some_,inside]
    rfl

theorem digestKept {m : Machine} {f : Nat → HeapEntry → HeapEntry} (same : ∀ i e, textDigest (f i e) = textDigest e)
    (heap i e) (kept : keyDigest heap = keyDigest m.heap) (found : heap[i]? = some e) : keyDigest (heap.set i (f i e)) = keyDigest m.heap :=
  (digestSet found (same i e)).trans kept

theorem collectSlots (fair : Refundable charge) (m) :
    After collectGarbage m
      (fun _ t => OnlyCollects m t ∧ (Accounted charge m → Accounted charge t) ∧ ∀ i, t.heap[i]? = (m.heap[i]?).map fun e =>
        if (marksOf m).getD i false then survivor m (isMarkedValue (marksOf m)) e
        else if m.intrinsicSlots ≤ i then .vacant else e)
      (fun _ _ => ¬Accounted charge m) := by
  have distinct := (Tracing.traceExact (heapGraph m.heap) (traceRoots m)).2.2.2
  have weak : ∀ i ∈ (Tracing.trace (heapGraph m.heap) (traceRoots m)).holders, i < m.heap.length := by
    intro i member
    obtain ⟨e,found,_⟩ := reachLive (((Tracing.traceExact _ _).2.2.1 i).mp member).2
    exact (List.getElem?_eq_some_iff.mp found).1
  unfold collectGarbage processWeakTargetsAfterMarking
  simp only [afterBind,afterRead,afterUpdate]
  have first := slotLoop m (processWeakTarget (marksOf m))
    (fun i e => if (marksOf m).getD i false then weakProcessed (isMarkedValue (marksOf m)) e else e)
    (fun heap => keyDigest heap = keyDigest m.heap)
    (fun t i e _ _ found => processWeakTargetSpec fair (marksOf m) found)
    (digestKept fun i e => by split; exact weakProcessedText _ e; rfl)
    (List.nodup_range (n := m.heap.length)) (fun i member => List.mem_range.mp member) rfl
  refine first.mono ?_ (fun _ _ failed => failed)
  intro _ t done
  obtain ⟨only,digest,accounted,heap⟩ := done
  have length := slotsLength heap
  have second := slotLoop t (purgeWeakCollection (marksOf m))
    (fun i e => if (marksOf m).getD i false then purged m (isMarkedValue (marksOf m)) e else e)
    (fun heap => keyDigest heap = keyDigest m.heap)
    (fun u i e same kept found => by
      have := purgedCongr (only.trans same).platform kept
      rw [← this]
      exact purgeSpec fair (marksOf m) found)
    (digestKept fun i e => by split; exact purgedText _ _ e; rfl)
    distinct (fun i member => length ▸ weak i member) digest
  refine second.mono ?_ (fun _ _ failed sound => failed (accounted sound))
  intro _ u done
  obtain ⟨onlyU,_,accountedU,heapU⟩ := done
  have lengthU := slotsLength heapU
  have third := slotLoop u (sweepSlot (marksOf m))
    (fun i e => if (marksOf m).getD i false then e else .vacant) (fun _ => True)
    (fun v i e _ _ found => sweepSpec fair (marksOf m) found) (fun _ _ _ _ _ => trivial)
    (@List.nodup_range' m.intrinsicSlots (m.heap.length-m.intrinsicSlots) 1 (by decide))
    (fun i member => by have := List.mem_range'_1.mp member; omega) trivial
  refine third.mono ?_ (fun _ _ failed sound => failed (accountedU (accounted sound)))
  intro _ v done
  obtain ⟨onlyV,_,accountedV,heapV⟩ := done
  refine ⟨((only.trans onlyU).trans onlyV).trans rfl,?_,?_⟩
  · intro sound
    have kept := accountedV (accountedU (accounted sound))
    exact ⟨⟨kept.balanced.slots,kept.balanced.total,kept.balanced.credits,kept.balanced.intrinsic⟩,kept.bounded,
      kept.covered,kept.sized⟩
  · intro i
    rw [heapV i,heapU i,heap i]
    cases found : m.heap[i]? with
    | none => rfl
    | some e =>
      have inside := (List.getElem?_eq_some_iff.mp found).1
      have holders := holdersExact found
      have above : m.intrinsicSlots ≤ i ∧ i < m.intrinsicSlots+(m.heap.length-m.intrinsicSlots) ↔ m.intrinsicSlots ≤ i := by
        omega
      simp only [Option.map_some,Option.some.injEq,List.mem_range,inside,if_true,List.mem_range'_1,holders,above]
      by_cases marked : (marksOf m).getD i false = true
      · by_cases holder : isWeakCollection e = true
        · simp only [marked,holder,and_self,if_true,ite_self,survivorSplit]
        · simp only [marked,holder,false_and,if_true,if_false,ite_self,Bool.false_eq_true,
            survivorPlain (m := m) (Bool.eq_false_iff.mpr holder)]
      · simp only [marked,and_false,if_false,Bool.false_eq_true]

end

def Collectable (m : Machine) : Prop := ∃ t, collectGarbage m = .ok () t

/-- A collection frees exactly the unreachable runtime slots and leaves the others as they were,
weak entries, references and registries apart; it completes on every machine whose accounts are in order. -/
theorem collectExact (m : Machine) :
    (Accounted weakCharge m → Collectable m) ∧
    ∀ t, collectGarbage m = .ok () t →
      ∃ reached : Value → Bool, (∀ v, reached v = true ↔ m.ReachableValue v) ∧ Collected m t reached := by
  have slots := collectSlots weakRefundable m
  constructor
  · intro sound
    cases result : collectGarbage m with
    | ok _ t => exact ⟨t,result⟩
    | error e t => exact absurd sound (slots.error result)
  intro t result
  obtain ⟨only,_,heap⟩ := slots.ok result
  refine ⟨isMarkedValue (marksOf m),?_,only,slotsLength heap,?_,?_,?_⟩
  · intro v
    simp only [isMarkedValue,Machine.ReachableValue]
    cases runtimeIndex v with
    | none => simp
    | some i => simpa using marksExact m i
  · intro i runtime
    cases found : m.heap[i]? with
    | none =>
      have gone : t.heap[i]? = none := by rw [heap i,found]; rfl
      simp [vacantPast found,vacantPast gone]
    | some e =>
      have after := heap i
      rw [found,Option.map_some] at after
      rw [occupiedAt found,occupiedAt after,← marksExact]
      by_cases marked : (marksOf m).getD i false = true
      · simp only [marked,if_true,survivorVacant,and_true]
      · rw [if_neg marked,if_pos runtime]
        exact ⟨(nomatch ·),fun both => absurd both.2 marked⟩
  · intro i native
    cases found : m.heap[i]? with
    | none =>
      have gone : t.heap[i]? = none := by rw [heap i,found]; rfl
      simp [vacantPast found,vacantPast gone]
    | some e =>
      have after := heap i
      rw [found,Option.map_some] at after
      rw [occupiedAt found,occupiedAt after]
      split
      · rw [survivorVacant]
      · rw [if_neg (by omega)]
  · intro i e at_ full
    rw [heap i] at at_
    obtain ⟨before,found,same⟩ := Option.map_eq_some_iff.mp at_
    refine ⟨before,found,?_⟩
    by_cases marked : (marksOf m).getD i false = true
    · rw [if_pos marked] at same
      exact same.symm
    · rw [if_neg marked] at same
      split at same
      · subst same
        cases full
      · subst same
        exact absurd ((marksExact m i).mpr (reachIntrinsic (by omega) ((occupiedAt found).mpr full))) marked

end Bamts.Runtime
