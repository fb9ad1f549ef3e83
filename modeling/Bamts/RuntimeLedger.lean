import Bamts.Effect
import Bamts.RuntimeHeap
import Mathlib.Algebra.Order.BigOperators.Group.List
import Mathlib.Algebra.Order.Group.Nat

/-! The byte ledger of the heap: what every slot and the machine itself are charged for. -/
set_option linter.all false
namespace Bamts.Runtime
open Effect

inductive EvalFailure where
  | throw (origin : ThrowOrigin)
  | throwValue (value : Value)
  | throwValueOrigin (value : Value) (origin : ThrowOrigin)
  | runtime (kind : RuntimeErrorKind)

-- The failed subtractions of the ledger, and every other expectation of the source.
inductive PanicSite where
  | underflow | unexpected
  deriving DecidableEq

inductive Fault where
  | failure (failure : EvalFailure)
  | panicked (site : PanicSite)
  | callout (callee this : Value) (args : List Value)

abbrev Exec := EStateM Fault Machine

def runtimeFault (kind : RuntimeErrorKind) : Fault := .failure (.runtime kind)
def heapSlotLimitExceeded (m : Machine) : Fault := .failure (.runtime (.heapSlotLimitExceeded m.limits.maxHeapSlots))
def heapByteLimitExceeded (m : Machine) : Fault := .failure (.runtime (.heapByteLimitExceeded m.limits.maxHeapBytes))

def GeneratorStart.bytes (start : GeneratorStart) : Nat := start.captures.length+start.args.length+1
def SuspendedActivation.bytes (activation : SuspendedActivation) : Nat :=
  activation.registers.length+activation.args.length+1

def initialBytes (m : Machine) : HeapEntry → Nat
  | .vacant => 0
  | .string text | .symbol text | .privateName text => text.lenUnits*2
  | .bigInt text => text.utf8ByteSize
  | .regExp _ pattern flags => (pattern.lenUnits+flags.lenUnits)*2
  | .hashState algorithm data .. => algorithm.utf8ByteSize+data.length
  | .collection _ _ _ _ size _ => size*(CollectionEntry.bytes+CollectionIndex.entryBytes)+1
  | .typedArray header _ | .dataView header .. => header.properties.chargeBytes+1
  | .arrayBuffer header data => (data.bytes.elim 0 List.length)+header.properties.chargeBytes+1
  | .sharedArrayBuffer header block =>
    (m.sharedBlocks[block]?.elim 0 fun shared => shared.bytes.length)+header.properties.chargeBytes+1
  | .weakRef header _ => header.properties.chargeBytes+1
  | .finalizationRegistry header _ cells pendingHoldings _ =>
    cells.length*FinalizationCell.bytes+pendingHoldings.length*valueBytes+header.properties.chargeBytes+1
  | .nativeFunction _ (.builtin _) => 1
  | .nativeFunction _ (.bound bound) => bound.arguments.length+1
  | .proxy _ => 1
  | .proxyRevoker _ properties _ => properties.chargeBytes+1
  | .generator _ (.suspendedStart start) => start.bytes
  | .generator _ (.suspended activation) => activation.bytes
  | .generator _ .executing | .generator _ .completed => 1
  | .asyncGenerator _ state queue =>
    (match state with
      | .suspendedStart start => start.bytes
      | .suspendedYield activation | .awaitingOperand activation | .awaitingYield activation
      | .awaitingResumption activation => activation.bytes
      | .executing | .awaitingReturn | .completed => 1)+queue.length*m.platform.asyncGeneratorRequestBytes
  | .asyncFromSync header .. => header.properties.chargeBytes
  | .object header _ | .timeout header .. => header.properties.chargeBytes+1
  | .array header elements _ => elements.length*valueBytes+header.properties.chargeBytes+1
  | .function .. | .script .. | .moduleNamespace .. | .externalModuleNamespace .. | .processEnv .. | .date ..
  | .builtinIterator .. | .iterator .. | .promise .. | .disposableStack .. | .promiseResolver .. | .promiseAll ..
  | .asyncActivation .. | .promiseAllElement .. => 1

def Machine.liveRuntimeSlots (m : Machine) : Nat := m.heap.length-m.intrinsicSlots-m.vacantCount

def requestGarbageCollection (m : Machine) : Machine :=
  { m with gc := { m.gc with
      pending := m.gc.pending || decide (m.gc.byteWatermark ≤ m.heapBytes) ||
        decide (m.gc.slotWatermark ≤ m.liveRuntimeSlots) } }

def ensureAllocationCapacity (slots bytes : Nat) : Exec Unit := do
  let m ← read
  if m.limits.maxHeapSlots < m.liveRuntimeSlots+slots ∨ 2^32-1 < m.heap.length+slots then
    fail (heapSlotLimitExceeded m)
  else if m.limits.maxHeapBytes < m.heapBytes+bytes then fail (heapByteLimitExceeded m)
  else pure ()

-- `Vec::resize` with zeros.
def resized (charges : List Nat) (length : Nat) : List Nat :=
  charges.take length ++ List.replicate (length-charges.length) 0

def syncSlotLedger : Exec Unit := update fun m => { m with slotBytes := resized m.slotBytes m.heap.length }

def valueForHeapIndex (index : Nat) : Option Value :=
  if index+1 < 2^32 then (SlotId.fromParts runtimeHeapSegment (UInt32.ofNat (index+1))).map Value.heapRef else none

def allocate (entry : HeapEntry) : Exec Value := do
  let m ← read
  let bytes := initialBytes m entry
  ensureAllocationCapacity 1 bytes
  syncSlotLedger
  update fun m => requestGarbageCollection
    { m with heap := m.heap ++ [entry],slotBytes := m.slotBytes ++ [bytes],heapBytes := m.heapBytes+bytes }
  match valueForHeapIndex m.heap.length with
  | some value => pure value
  | none => fail (.panicked .unexpected)

def chargeSlot (index bytes : Nat) : Exec Unit := do
  syncSlotLedger
  let m ← read
  let credited := min (m.intrinsicSlotCredits.getD index 0) bytes
  let charged := bytes-credited
  ensureAllocationCapacity 0 charged
  if index < m.slotBytes.length then
    update fun m => requestGarbageCollection
      { m with
        intrinsicSlotCredits := m.intrinsicSlotCredits.modify index (·-credited)
        slotBytes := m.slotBytes.modify index (·+charged)
        heapBytes := m.heapBytes+charged }
  else fail (.panicked .unexpected)

def refundSlot (index bytes : Nat) : Exec Unit := do
  syncSlotLedger
  let m ← read
  match m.slotBytes[index]? with
  | none => fail (.panicked .unexpected)
  | some held =>
    if index < m.intrinsicSlotCredits.length then
      let refunded := min held bytes
      if m.heapBytes < refunded then fail (.panicked .underflow)
      else update fun m =>
        { m with
          slotBytes := m.slotBytes.set index (held-refunded)
          heapBytes := m.heapBytes-refunded
          intrinsicSlotCredits := m.intrinsicSlotCredits.modify index (·+(bytes-refunded)) }
    else if held < bytes ∨ m.heapBytes < bytes then fail (.panicked .underflow)
    else update fun m => { m with slotBytes := m.slotBytes.set index (held-bytes),heapBytes := m.heapBytes-bytes }

def transferSlotToMachine (index bytes : Nat) : Exec Unit := do
  syncSlotLedger
  let m ← read
  match m.slotBytes[index]? with
  | none => fail (.panicked .unexpected)
  | some held =>
    if held < bytes then fail (.panicked .underflow)
    else update fun m =>
      { m with slotBytes := m.slotBytes.set index (held-bytes),machineBytes := m.machineBytes+bytes }

def chargeMachine (bytes : Nat) : Exec Unit := do
  ensureAllocationCapacity 0 bytes
  update fun m => requestGarbageCollection
    { m with machineBytes := m.machineBytes+bytes,heapBytes := m.heapBytes+bytes }

def refundMachine (bytes : Nat) : Exec Unit := do
  let m ← read
  if m.machineBytes < bytes ∨ m.heapBytes < bytes then fail (.panicked .underflow)
  else update fun m => { m with machineBytes := m.machineBytes-bytes,heapBytes := m.heapBytes-bytes }

def Machine.slot (m : Machine) (value : Value) : Except Fault (Option Nat) :=
  match value.decode with
  | none => .error (.failure (.runtime (.invalidValue value)))
  | some (.heapRef id) =>
    if id.segment ≠ runtimeHeapSegment then .error (.failure (.runtime (.invalidValue value)))
    else match m.heap[id.slot.toNat-1]? with
      | none | some .vacant => .error (.failure (.runtime (.invalidRuntimeHeapReference id.slot)))
      | some _ => .ok (some (id.slot.toNat-1))
  | some _ => .ok none

def runtimeSlot (value : Value) : Exec (Option Nat) := do
  let m ← read
  lift (m.slot value)

def Machine.entry (m : Machine) (index : Nat) : HeapEntry := m.heap.getD index .vacant

def setEntry (index : Nat) (entry : HeapEntry) : Exec Unit := update fun m => { m with heap := m.heap.set index entry }

def OnlyLedger (m t : Machine) : Prop :=
  t = { m with gc := t.gc,slotBytes := t.slotBytes,intrinsicSlotCredits := t.intrinsicSlotCredits,
               machineBytes := t.machineBytes,heapBytes := t.heapBytes }

theorem OnlyLedger.refl (m) : OnlyLedger m m := rfl

theorem OnlyLedger.trans {m t u} (first : OnlyLedger m t) (second : OnlyLedger t u) : OnlyLedger m u := by
  unfold OnlyLedger at *
  rw [second,first]

theorem OnlyLedger.heap {m t} (same : OnlyLedger m t) : t.heap = m.heap := by rw [same]

structure Balanced (m : Machine) : Prop where
  slots : m.slotBytes.length = m.heap.length
  total : m.heapBytes = m.machineBytes+m.slotBytes.sum
  credits : m.intrinsicSlotCredits.length = m.intrinsicSlots
  intrinsic : m.intrinsicSlots ≤ m.heap.length

def Machine.held (m : Machine) (index : Nat) : Nat := m.slotBytes.getD index 0

inductive LimitFault (m : Machine) : Fault → Prop where
  | slots : LimitFault m (heapSlotLimitExceeded m)
  | bytes : LimitFault m (heapByteLimitExceeded m)

theorem resizedSame {charges length} (same : charges.length = length) :
    resized charges length = charges := by
  subst same
  simp [resized]

theorem afterSync {m} (b : Balanced m) {Q E} :
    After syncSlotLedger m Q E ↔ Q () m := by
  simp only [syncSlotLedger,afterUpdate,resizedSame b.slots]

theorem afterCapacity {m slots bytes Q E} (ok : m.heap.length+slots < 2^32 → Q () m) (error : ∀ e, LimitFault m e → E e m) :
    After (ensureAllocationCapacity slots bytes) m Q E := by
  unfold ensureAllocationCapacity
  simp only [afterBind,afterRead,afterIte,afterFail,afterPure]
  refine ⟨fun _ => error _ .slots,fun fits => ⟨fun _ => error _ .bytes,fun _ => ok ?_⟩⟩
  omega

theorem sumModify {charges : List Nat} {i} (inside : i < charges.length) (f) :
    (charges.modify i f).sum + charges.getD i 0 = charges.sum + f (charges.getD i 0) := by
  induction charges generalizing i with
  | nil => simp at inside
  | cons c rest ih =>
    cases i with
    | zero =>
      simp only [List.modify_zero_cons,List.sum_cons,List.getD_cons_zero]
      omega
    | succ i =>
      have := ih (i := i) (by simpa using inside)
      simp only [List.modify_succ_cons,List.sum_cons,List.getD_cons_succ]
      omega

theorem getModify {charges : List Nat} {i} (inside : i < charges.length) (f j) :
    (charges.modify i f).getD j 0 = if j = i then f (charges.getD i 0) else charges.getD j 0 := by
  by_cases same : i = j
  · subst same
    simp [List.getElem?_eq_getElem inside]
  · simp [same,Ne.symm same]

theorem setModify {charges : List Nat} {i held} (found : charges[i]? = some held) (f) :
    charges.set i (f held) = charges.modify i f := by
  apply List.ext_getElem?
  intro j
  obtain ⟨inside,_⟩ := List.getElem?_eq_some_iff.mp found
  by_cases same : i = j
  · subst same
    simp [inside,← List.getElem_eq_iff inside |>.mpr found]
  · simp [same]

theorem leSum {charges : List Nat} {i held : Nat} (found : charges[i]? = some held) : held ≤ charges.sum :=
  List.le_sum_of_mem (List.mem_of_getElem? found)

/-- A charge goes to its own slot alone, and one that does not fit the limits changes nothing. -/
theorem chargeSpec {m} (b : Balanced m) {i n} (inside : i < m.heap.length) :
    After (chargeSlot i n) m
      (fun _ t => OnlyLedger m t ∧ Balanced t ∧
        ∀ j, m.intrinsicSlots ≤ j → t.held j = m.held j + if j = i then n else 0)
      (fun e t => t = m ∧ LimitFault m e) := by
  unfold chargeSlot
  simp only [afterBind,afterSync b,afterRead]
  apply afterCapacity
  · intro _
    have slot : i < m.slotBytes.length := by rw [b.slots]; exact inside
    simp only [afterIte,slot,true_implies,not_true_eq_false,false_implies,and_true,afterUpdate]
    refine ⟨rfl,⟨?_,?_,?_,b.intrinsic⟩,?_⟩
    · simpa [requestGarbageCollection] using b.slots
    · have := sumModify slot (·+(n-min (m.intrinsicSlotCredits.getD i 0) n))
      have := b.total
      simp only [requestGarbageCollection]
      omega
    · simpa [requestGarbageCollection] using b.credits
    · intro j runtime
      simp only [Machine.held,requestGarbageCollection,getModify slot]
      by_cases same : j = i
      · subst same
        have none_ : m.intrinsicSlotCredits[j]? = none := List.getElem?_eq_none (by rw [b.credits]; exact runtime)
        simp [none_]
      · simp [same]
  · exact fun e limit => ⟨rfl,limit⟩

/-- A refund a slot is charged for succeeds and comes off that slot alone. -/
theorem refundSpec {m} (b : Balanced m) {i n} (inside : i < m.heap.length) (covered : m.intrinsicSlots ≤ i → n ≤ m.held i) :
    After (refundSlot i n) m
      (fun _ t => OnlyLedger m t ∧ Balanced t ∧
        ∀ j, m.intrinsicSlots ≤ j → m.held j = t.held j + if j = i then n else 0)
      (fun _ _ => False) := by
  have slot : i < m.slotBytes.length := by rw [b.slots]; exact inside
  obtain ⟨held,found⟩ : ∃ held, m.slotBytes[i]? = some held := ⟨_,List.getElem?_eq_getElem slot⟩
  have holds : m.held i = held := by simp [Machine.held,List.getD_eq_getElem?_getD,found]
  have part := leSum found
  have total := b.total
  unfold refundSlot
  simp only [afterBind,afterSync b,afterRead,found]
  by_cases native : i < m.intrinsicSlotCredits.length
  · simp only [native,if_true,afterIte,afterFail,afterUpdate]
    refine ⟨fun short => by omega,fun _ => ⟨rfl,⟨?_,?_,?_,b.intrinsic⟩,?_⟩⟩
    · simpa using b.slots
    · have := sumModify slot (·-min held n)
      simp only [Machine.held] at holds
      simp only [setModify found (·-min held n)]
      omega
    · simpa using b.credits
    · intro j runtime
      have other : j ≠ i := by
        rw [b.credits] at native
        omega
      simp only [Machine.held,setModify found (·-min held n),getModify slot,other,if_false]
      rfl
  · have covered := covered (by rw [← b.credits]; omega)
    simp only [native,if_false,afterIte,afterFail,afterUpdate]
    refine ⟨fun short => by omega,fun _ => ⟨rfl,⟨?_,?_,b.credits,b.intrinsic⟩,?_⟩⟩
    · simpa using b.slots
    · have := sumModify slot (·-n)
      simp only [Machine.held] at holds covered
      simp only [setModify found (·-n)]
      omega
    · intro j _
      simp only [Machine.held,setModify found (·-n),getModify slot]
      by_cases same : j = i
      · subst same
        simp only [Machine.held] at covered
        simp only [if_true]
        omega
      · simp [same]

theorem chargeMachineSpec {m} (b : Balanced m) (n) :
    After (chargeMachine n) m (fun _ t => OnlyLedger m t ∧ Balanced t ∧ t.slotBytes = m.slotBytes)
      (fun e t => t = m ∧ LimitFault m e) := by
  unfold chargeMachine
  simp only [afterBind,afterUpdate]
  apply afterCapacity
  · intro _
    refine ⟨rfl,⟨b.slots,?_,b.credits,b.intrinsic⟩,rfl⟩
    have := b.total
    simp only [requestGarbageCollection]
    omega
  · exact fun e limit => ⟨rfl,limit⟩

theorem refundMachineSpec {m} (b : Balanced m) {n} (covered : n ≤ m.machineBytes) :
    After (refundMachine n) m (fun _ t => OnlyLedger m t ∧ Balanced t ∧ t.slotBytes = m.slotBytes)
      (fun _ _ => False) := by
  have total := b.total
  unfold refundMachine
  simp only [afterBind,afterRead,afterIte,afterFail,afterUpdate]
  refine ⟨fun short => by omega,fun _ => ⟨rfl,⟨b.slots,?_,b.credits,b.intrinsic⟩,trivial⟩⟩
  dsimp only
  omega

theorem valueForIndex {index} (small : index+1 < 2^32) : ∃ id, valueForHeapIndex index = some (.heapRef id) ∧
    id.segment = runtimeHeapSegment ∧ id.slot.toNat = index+1 := by
  have whole : (UInt32.ofNat (index+1)).toNat = index+1 := UInt32.toNat_ofNat_of_lt' small
  have nonzero : UInt32.ofNat (index+1) ≠ 0 := by
    intro zero
    rw [zero] at whole
    exact absurd whole.symm (Nat.succ_ne_zero index)
  have segment : runtimeHeapSegment ≠ 0 := by decide
  refine ⟨⟨runtimeHeapSegment,_,segment,nonzero⟩,?_,rfl,whole⟩
  rw [valueForHeapIndex,if_pos small,SlotId.fromParts,dif_pos ⟨segment,nonzero⟩]
  rfl

/-- An allocation adds one entry, charged with its own bytes. -/
theorem allocateSpec {m} (b : Balanced m) (entry) :
    After (allocate entry) m
      (fun v t => t = { m with gc := t.gc,heap := m.heap ++ [entry],slotBytes := m.slotBytes ++ [initialBytes m entry],
                               heapBytes := t.heapBytes } ∧
        Balanced t ∧ valueForHeapIndex m.heap.length = some v)
      (fun e t => t = m ∧ LimitFault m e) := by
  unfold allocate
  simp only [afterBind,afterRead]
  apply afterCapacity
  · intro fits
    obtain ⟨id,value,_⟩ := valueForIndex fits
    simp only [afterSync b,afterUpdate,value,afterPure]
    refine ⟨rfl,⟨?_,?_,b.credits,?_⟩,trivial⟩
    · simpa [requestGarbageCollection] using b.slots
    · have := b.total
      simp [requestGarbageCollection]
      omega
    · have := b.intrinsic
      simp [requestGarbageCollection]
      omega
  · exact fun e limit => ⟨rfl,limit⟩

end Bamts.Runtime
