import Bamts.BytecodeCanon
import Bamts.RuntimeCollection

/-! The byte ledger over whole runs: which operations keep every slot charged for what it holds. -/
set_option linter.all false
namespace Bamts.Runtime
open Effect

-- The heap the intrinsics leave behind, before anything is charged.
structure Fresh (m : Machine) : Prop where
  slots : m.slotBytes = List.replicate m.heap.length 0
  credits : m.intrinsicSlotCredits = List.replicate m.heap.length 0
  intrinsic : m.intrinsicSlots = m.heap.length
  machine : m.machineBytes = 0
  total : m.heapBytes = 0
  bounded : m.heap.length < 2^32
  plain : ∀ e ∈ m.heap, e.kind ≠ .collection

-- `Object.defineProperties` is a row of definitions.
inductive HeapOperation where
  | allocate (entry : HeapEntry)
  | replaceArrayElements (array : Value) (elements : List Value)
  | arrayPush (array value : Value)
  | setOwnData (index : Nat) (key : PropertyKey) (value : Value)
  | defineAccessor (object : Value) (key : PropertyKey) (accessor : Value) (kind : Bytecode.AccessorKind)
  | defineDescriptor (object : Value) (key : PropertyKey) (descriptor : Property)
  | defineProperty (target : Value) (key : PropertyKey) (descriptor : PropertyDescriptor)
  | internalDelete (object : Value) (key : PropertyKey)
  | mapPut (object key value : Value) (expected : CollectionKind)
  | setPut (object value : Value) (expected : CollectionKind)
  | mapDeleteFor (object key : Value) (expected : CollectionKind)
  | collectionClear (object : Value) (expected : CollectionKind)
  | chargeMachine (bytes : Nat)
  | refundMachine (bytes : Nat)
  | collectGarbage

namespace HeapOperation

def run : HeapOperation → Exec Unit
  | allocate entry => do let _ ← Runtime.allocate entry
  | replaceArrayElements array elements => Runtime.replaceArrayElements array elements
  | arrayPush array value => Runtime.arrayPush array value
  | setOwnData index key value => Runtime.setOwnData index key value
  | defineAccessor object key accessor kind => Runtime.defineAccessor object key accessor kind
  | defineDescriptor object key descriptor => Runtime.defineDescriptor object key descriptor
  | defineProperty target key descriptor => Runtime.defineProperty target key descriptor
  | internalDelete object key => do let _ ← Runtime.internalDelete object key
  | mapPut object key value expected => Runtime.mapPut object key value expected
  | setPut object value expected => Runtime.setPut object value expected
  | mapDeleteFor object key expected => do let _ ← Runtime.mapDeleteFor object key expected
  | collectionClear object expected => Runtime.collectionClear object expected
  | chargeMachine bytes => Runtime.chargeMachine bytes
  | refundMachine bytes => Runtime.refundMachine bytes
  | collectGarbage => Runtime.collectGarbage

-- An entry is charged for its properties when it is allocated; a length that is written lets no element
-- grow back, and one that is defined asks for no element that is not charged for; the machine gives
-- back what it was charged.
def paid : HeapOperation → Machine → Prop
  | allocate entry, m => stored entry ≤ initialBytes m entry ∧ sizeMatches entry
  | setOwnData index key value, m =>
    key.eqAscii "length" = true → ∀ n, exactArrayLength value = some n → LengthSteady m index n
  | defineDescriptor object key descriptor, m => descriptor.LengthSteady m object key
  | defineProperty target key descriptor, m => key.eqAscii "length" = true → LengthPaid m target descriptor
  | refundMachine bytes, m => bytes ≤ m.machineBytes
  | _, _ => True

end HeapOperation

theorem Fresh.accounted {m} (fresh : Fresh m) : Accounted stored m := by
  refine ⟨⟨?_,?_,?_,Nat.le_of_eq fresh.intrinsic⟩,fresh.bounded,?_,?_⟩
  · rw [fresh.slots,List.length_replicate]
  · simp [fresh.slots,fresh.machine,fresh.total]
  · rw [fresh.credits,List.length_replicate,fresh.intrinsic]
  · intro i e found runtime
    have := (List.getElem?_eq_some_iff.mp found).1
    have := fresh.intrinsic
    omega
  · intro i e found
    have other := fresh.plain e (List.mem_of_getElem? found)
    cases e with
    | collection => exact absurd rfl other
    | _ => trivial

def Solvent (m : Machine) (fault : Fault) (t : Machine) : Prop :=
  fault ≠ .panicked .underflow ∧ (fault.isLimit = true → t = m)

theorem Refused.solvency {C m t fault} (good : Accounted stored m) (refused : Refused (Accounted stored m) C m fault t) :
    Accounted stored t ∧ Solvent m fault t :=
  ⟨refused.kept.accounted good,refused.solvent good,refused.limit good⟩

theorem Accounted.ledgered {charge m t} (good : Accounted charge m)
    (done : OnlyLedger m t ∧ Balanced t ∧ t.slotBytes = m.slotBytes) : Accounted charge t := by
  obtain ⟨only,balanced,charges⟩ := done
  have native : t.intrinsicSlots = m.intrinsicSlots := by rw [only]
  refine ⟨balanced,by rw [only.heap]; exact good.bounded,?_,?_⟩
  · intro i e found runtime
    rw [only.heap] at found
    rw [native] at runtime
    rw [Machine.held,charges]
    exact good.covered i e found runtime
  · intro i e found
    rw [only.heap] at found
    exact good.sized i e found

theorem paidStep {m} (good : Accounted stored m) (op : HeapOperation) (paid : op.paid m) :
    After op.run m (fun _ t => Accounted stored t) (fun fault t => Accounted stored t ∧ Solvent m fault t) := by
  have solvent : ∀ {α : Type} {p : Exec α} {C : Nat → HeapEntry → HeapEntry → Prop},
      After p m (fun _ t => Kept (Accounted stored m) C m t) (Refused (Accounted stored m) C m) →
      After p m (fun _ t => Accounted stored t) (fun fault t => Accounted stored t ∧ Solvent m fault t) :=
    fun spec => spec.mono (fun _ _ kept => kept.accounted good) fun _ _ refused => refused.solvency good
  cases op with
  | allocate entry =>
    unfold HeapOperation.run
    rw [afterBind]
    exact solvent ((allocateKept m entry paid.1 paid.2).mono (fun _ _ done => done.1) fun _ _ failed => failed)
  | replaceArrayElements array elements => exact solvent (replaceSpec id array elements)
  | arrayPush array value => exact solvent (arrayPushSpec id array value)
  | setOwnData index key value => exact solvent (setOwnDataSpec id fun _ => paid)
  | defineAccessor object key accessor kind => exact solvent (defineAccessorSpec id object accessor kind)
  | defineDescriptor object key descriptor => exact solvent (defineDescriptorSpec id fun _ => paid)
  | defineProperty target key descriptor => exact solvent (definePropertySpec id fun _ => paid)
  | internalDelete object key =>
    unfold HeapOperation.run
    rw [afterBind]
    exact solvent (internalDeleteSpec id object key)
  | mapPut object key value expected => exact solvent (mapPutSpec id)
  | setPut object value expected => exact solvent (setPutSpec id)
  | mapDeleteFor object key expected =>
    unfold HeapOperation.run
    rw [afterBind]
    exact solvent (mapDeleteSpec id)
  | collectionClear object expected => exact solvent (clearSpec id)
  | chargeMachine bytes =>
    refine (chargeMachineSpec good.balanced bytes).mono (fun _ t done => good.ledgered done) ?_
    intro fault t failed
    obtain ⟨rfl,limit⟩ := failed
    exact ⟨good,limitFault limit,fun _ => rfl⟩
  | refundMachine bytes =>
    exact (refundMachineSpec good.balanced paid).mono (fun _ t done => good.ledgered done) fun _ _ no => no.elim
  | collectGarbage =>
    exact (collectSlots storedRefundable m).mono (fun _ t done => done.2.1 good) fun _ _ bad => absurd good bad

def Covered (m : Machine) : Prop :=
  m.heapBytes = m.machineBytes+m.slotBytes.sum ∧
  ∀ (i : Nat) header elements lengthWritable, m.heap[i]? = some (.array header elements lengthWritable) →
    m.intrinsicSlots ≤ i → elements.length*valueBytes+header.properties.chargeBytes ≤ m.held i

theorem Accounted.arrays {m} (good : Accounted stored m) : Covered m := by
  refine ⟨good.balanced.total,?_⟩
  intro i header elements lengthWritable found runtime
  have covered := good.covered i _ found runtime
  rwa [storedArray] at covered

theorem ledgerSolvent {m t : Machine} (fresh : Fresh m) (runs : Runs HeapOperation.run HeapOperation.paid m t) :
    Covered t ∧ ∀ op : HeapOperation, op.paid t → After op.run t (fun _ u => Covered u) (fun fault u => Covered u ∧ Solvent t fault u) := by
  have good : Accounted stored t := runs.invariant fresh.accounted fun op u good paid =>
    (paidStep good op paid).mono (fun _ _ done => done) fun _ _ failed => failed.1
  refine ⟨good.arrays,fun op paid => ?_⟩
  exact (paidStep good op paid).mono (fun _ _ done => done.arrays) fun _ _ failed => ⟨failed.1.arrays,failed.2⟩

def prototypeOnly : Value := (valueForHeapIndex 0).getD .undefined

def bareMachine : Machine where
  program := none
  module := Bytecode.minimalModule
  limits := ⟨1000,100000⟩
  platform := ⟨fun _ => 0,64,fun _ _ _ => none⟩
  gc := ⟨[],[],[],false,1000,100000⟩
  nativeRoots := []
  keptAlive := []
  frames := []
  heap := [.object ⟨.empty,none,true⟩ none]
  slotBytes := [0]
  intrinsicSlotCredits := [0]
  machineBytes := 0
  intrinsicSlots := 1
  vacantCount := 0
  heapBytes := 0
  globalObject := prototypeOnly
  contextGlobal := none
  lastCompletion := none
  pendingGeneratorResume := none
  pendingAsyncSuspend := none
  microtasks := []
  finalizationCleanupQueue := []
  timers := []
  intrinsics := ⟨[],[],prototypeOnly,prototypeOnly,prototypeOnly,prototypeOnly,prototypeOnly,prototypeOnly,
    ⟨prototypeOnly,prototypeOnly,prototypeOnly,prototypeOnly,prototypeOnly,prototypeOnly,[],fun _ => none,[],[],none⟩⟩
  currentNewTarget := .undefined
  registry := ⟨[],[],[]⟩
  dynamicBase := 1
  dynamic := []
  sharedBlocks := []

theorem bareFresh : Fresh bareMachine :=
  ⟨rfl,rfl,rfl,rfl,rfl,by decide,by unfold HeapEntry.kind; simp [bareMachine]⟩

def madeArray : Machine := left (HeapOperation.run (.allocate (plainArray bareMachine []))) bareMachine

def firstArray : Value := (valueForHeapIndex 1).getD .undefined

theorem ledgerSolventArray : Covered (left (HeapOperation.run (.arrayPush firstArray .undefined)) madeArray) :=
  (ledgerSolvent bareFresh ((Runs.start.step (.allocate (plainArray bareMachine [])) ⟨by decide,trivial⟩).step
    (.arrayPush firstArray .undefined) (by exact trivial))).1

def lengthened : Machine :=
  left (HeapOperation.run (.defineProperty firstArray (.named (ascii "length"))
    { PropertyDescriptor.default with value := some (lengthValue 1) })) madeArray

def Fault.isUnderflow : Fault → Bool
  | .panicked .underflow => true
  | _ => false

def underflows (p : Exec Unit) (m : Machine) : Bool :=
  match p m with
  | .error fault _ => fault.isUnderflow
  | .ok .. => false

def Machine.overdrawn (m : Machine) (i : Nat) : Bool :=
  match m.entry i with
  | .array header elements _ => decide (m.held i < elements.length*valueBytes+header.properties.chargeBytes)
  | _ => false

theorem Covered.fits {m} (covered : Covered m) {i} (runtime : m.intrinsicSlots ≤ i) : m.overdrawn i = false := by
  unfold Machine.overdrawn
  split
  · rename_i header elements lengthWritable here
    exact decide_eq_false (Nat.not_lt.mpr (covered.2 i header elements lengthWritable (entryFound here (nomatch ·)) runtime))
  · rfl

/-- A length that is defined is never charged, so the next operation that gives elements back panics. -/
theorem definedLengthUnpaid : Fresh bareMachine ∧ Runs HeapOperation.run (fun _ _ => True) bareMachine lengthened ∧
    ¬Covered lengthened ∧ underflows (HeapOperation.run (.replaceArrayElements firstArray [])) lengthened = true := by
  refine ⟨bareFresh,(Runs.start.step _ trivial).step _ trivial,?_,by decide +kernel⟩
  intro covered
  have fits := covered.fits (i := 1) (by decide +kernel)
  have unpaid : lengthened.overdrawn 1 = true := by decide +kernel
  rw [unpaid] at fits
  cases fits

end Bamts.Runtime
