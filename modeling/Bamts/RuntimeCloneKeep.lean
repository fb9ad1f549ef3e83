import Bamts.RuntimeClone

/-! What the targets of a clone leave alone: every slot that was there before them, and its charge. -/
set_option linter.all false
namespace Bamts.Runtime
open Effect Bytecode Linkage Binary64

def OnlySlots (m t : Machine) : Prop := t = { m with gc := t.gc,heap := t.heap,slotBytes := t.slotBytes,heapBytes := t.heapBytes }

theorem OnlySlots.trans {m t u} (first : OnlySlots m t) (second : OnlySlots t u) : OnlySlots m u := by
  unfold OnlySlots at *
  rw [second,first]

-- Beside the slots of `base` there may be new ones, none of them a view, up to `floor` at least.
structure Beside (base : Machine) (floor : Nat) (t : Machine) : Prop where
  reach : floor ≤ t.heap.length
  only : OnlySlots base t
  heap : t.heap.take base.heap.length = base.heap
  slotBytes : t.slotBytes.take base.heap.length = base.slotBytes
  balanced : Balanced t
  intrinsic : base.intrinsicSlots ≤ base.heap.length
  fresh : ∀ (i : Nat) e, base.heap.length ≤ i → t.heap[i]? = some e → e.kind ≠ .typedArray

def Aims (n : Nat) (v : Value) : Prop := ∀ (m : Machine) i, m.slot v = .ok (some i) → n ≤ i

theorem takeModify {charges : List Nat} {i n} (past : n ≤ i) (f) : (charges.modify i f).take n = charges.take n := by
  apply List.ext_getElem?
  intro j
  simp only [List.getElem?_take,List.getElem?_modify]
  split
  · simp [show i ≠ j by omega]
  · rfl

theorem takeSet {α : Type} {row : List α} {i n} (past : n ≤ i) (a) : (row.set i a).take n = row.take n := by
  apply List.ext_getElem?
  intro j
  simp only [List.getElem?_take,List.getElem?_set]
  split
  · rw [if_neg (by omega)]
  · rfl

section
variable {base t : Machine} {i n floor : Nat} {e : HeapEntry}

theorem Beside.refl (balanced : Balanced base) : Beside base base.heap.length base := by
  refine ⟨Nat.le_refl _,rfl,List.take_length,?_,balanced,balanced.intrinsic,fun i e past found => ?_⟩
  · rw [← balanced.slots,List.take_length]
  · rw [List.getElem?_eq_none past] at found
    cases found

theorem Beside.length (beside : Beside base floor t) : base.heap.length ≤ t.heap.length := by
  have long := congrArg List.length beside.heap
  rw [List.length_take] at long
  omega

theorem Beside.intrinsicSlots (beside : Beside base floor t) : t.intrinsicSlots = base.intrinsicSlots := by rw [beside.only]

theorem Beside.noCredit (beside : Beside base floor t) (past : base.heap.length ≤ i) : t.intrinsicSlotCredits.length ≤ i := by
  rw [beside.balanced.credits,beside.intrinsicSlots]
  exact Nat.le_trans beside.intrinsic past

theorem Beside.charged (beside : Beside base floor t) (past : base.heap.length ≤ i) (inside : i < t.slotBytes.length) (f) {total}
    (sums : total+t.slotBytes.getD i 0 = t.heapBytes+f (t.slotBytes.getD i 0)) :
    Beside base floor { t with slotBytes := t.slotBytes.modify i f,heapBytes := total } := by
  have summed := sumModify inside f
  have balance := beside.balanced.total
  refine ⟨beside.reach,beside.only.trans rfl,beside.heap,?_,⟨?_,?_,beside.balanced.credits,beside.balanced.intrinsic⟩,beside.intrinsic,beside.fresh⟩
  · rw [takeModify past]
    exact beside.slotBytes
  · rw [List.length_modify]
    exact beside.balanced.slots
  · dsimp only
    omega

theorem Beside.requested (beside : Beside base floor t) : Beside base floor (requestGarbageCollection t) := by
  exact ⟨beside.reach,beside.only.trans rfl,beside.heap,beside.slotBytes,
    ⟨beside.balanced.slots,beside.balanced.total,beside.balanced.credits,beside.balanced.intrinsic⟩,beside.intrinsic,beside.fresh⟩

theorem steadyCharge (past : base.heap.length ≤ i) (n) : Steady (Beside base floor) (chargeSlot i n) := by
  intro t beside
  unfold chargeSlot
  simp only [afterBind,afterSync beside.balanced,afterRead]
  apply afterCapacity
  · intro _
    simp only [afterIte,afterFail,afterUpdate]
    refine ⟨fun inside => ?_,fun _ => beside⟩
    have none_ : t.intrinsicSlotCredits.getD i 0 = 0 := by
      rw [List.getD_eq_getElem?_getD,List.getElem?_eq_none (beside.noCredit past)]
      rfl
    rw [none_,Nat.zero_min,Nat.sub_zero]
    have credits : t.intrinsicSlotCredits.modify i (·-0) = t.intrinsicSlotCredits := List.modify_id i _
    rw [credits]
    exact (beside.charged past inside (·+n) (by omega)).requested
  · exact fun _ _ => beside

theorem steadyRefund (past : base.heap.length ≤ i) (n) : Steady (Beside base floor) (refundSlot i n) := by
  intro t beside
  unfold refundSlot
  simp only [afterBind,afterSync beside.balanced,afterRead]
  cases found : t.slotBytes[i]? with
  | none => exact beside
  | some held =>
    obtain ⟨inside,-⟩ := List.getElem?_eq_some_iff.mp found
    have holds : t.slotBytes.getD i 0 = held := by rw [List.getD_eq_getElem?_getD,found]; rfl
    dsimp only
    rw [if_neg (Nat.not_lt.mpr (beside.noCredit past))]
    simp only [afterIte,afterFail,afterUpdate]
    refine ⟨fun _ => beside,fun enough => ?_⟩
    rw [setModify found (·-n)]
    exact beside.charged past inside (·-n) (by omega)

theorem Beside.entry (beside : Beside base floor t) (past : base.heap.length ≤ i) : (t.entry i).kind ≠ .typedArray := by
  rw [Machine.entry,List.getD_eq_getElem?_getD]
  cases found : t.heap[i]? with
  | none => exact fun same => by cases same
  | some e => exact beside.fresh i e past found

theorem steadySet (past : base.heap.length ≤ i) (plain : e.kind ≠ .typedArray) : Steady (Beside base floor) (setEntry i e) := by
  refine steadyUpdate fun t beside => ⟨?_,beside.only.trans rfl,?_,beside.slotBytes,beside.balanced.rewrite i e,beside.intrinsic,fun j x old found => ?_⟩
  · rw [List.length_set]
    exact beside.reach
  · rw [takeSet past]
    exact beside.heap
  · rcases setLookup found with ⟨rfl,rfl⟩ | ⟨-,before⟩
    · exact plain
    · exact beside.fresh j x old before

theorem steadyCapacity (slots bytes) : Steady (Beside base floor) (ensureAllocationCapacity slots bytes) := by
  intro t beside
  exact afterCapacity (fun _ => beside) fun _ _ => beside

theorem valueAims {v} (value : valueForHeapIndex i = some v) (past : n ≤ i) : Aims n v := by
  intro m j slot
  have small : i+1 < 2^32 := by
    unfold valueForHeapIndex at value
    split at value
    · assumption
    · cases value
  obtain ⟨id,same,-,slots⟩ := valueForIndex small
  rw [value] at same
  cases same
  unfold Machine.slot at slot
  rw [Value.decodeHeapRef] at slot
  dsimp only at slot
  split at slot
  · cases slot
  · split at slot
    · cases slot
    · cases slot
    · cases slot
      omega

theorem allocateBeside (plain : e.kind ≠ .typedArray) (beside : Beside base floor t) :
    After (allocate e) t (fun v u => Beside base (floor+1) u ∧ Aims base.heap.length v) fun _ u => Beside base floor u := by
  refine (allocateSpec beside.balanced e).mono ?_ ?_
  · rintro v u ⟨same,balanced,value⟩
    have heap : u.heap = t.heap ++ [e] := by rw [same]
    have charges : u.slotBytes = t.slotBytes ++ [initialBytes t e] := by rw [same]
    refine ⟨⟨?_,beside.only.trans ?_,?_,?_,balanced,beside.intrinsic,fun i x past found => ?_⟩,valueAims value beside.length⟩
    · rw [heap,List.length_append]
      exact Nat.add_le_add_right beside.reach 1
    · unfold OnlySlots
      rw [same]
    · rw [heap,List.take_append_of_le_length beside.length]
      exact beside.heap
    · rw [charges,List.take_append_of_le_length (by rw [beside.balanced.slots]; exact beside.length)]
      exact beside.slotBytes
    · rw [heap,List.getElem?_append] at found
      split at found
      · exact beside.fresh i x past found
      · rw [List.mem_singleton.mp (List.mem_of_getElem? found)]
        exact plain
  · rintro fault u ⟨rfl,-⟩
    exact beside

section
variable {α : Type} {v : Value}

theorem steadySlot {f : Option Nat → Exec α} (aims : Aims n v) (next : ∀ slot, (∀ i, slot = some i → n ≤ i) → Steady (Beside base floor) (f slot)) :
    Steady (Beside base floor) (runtimeSlot v >>= f) := by
  intro t beside
  simp only [runtimeSlot,afterBind,afterRead]
  cases slot : t.slot v with
  | error fault => exact beside
  | ok found =>
    refine next found (fun i same => ?_) t beside
    rw [same] at slot
    exact aims t i slot

end

variable {object : Value} {key : PropertyKey} {d : Property}

theorem steadyDescriptor (aims : Aims base.heap.length object) : Steady (Beside base floor) (ownDescriptor object key) := by
  refine steadyRead fun t beside => steadySlot aims fun slot past => ?_
  cases slot with
  | none => exact steadyPure _
  | some i =>
    have plain := beside.entry (past i rfl)
    dsimp only
    cases here : t.entry i with
    | moduleNamespace module =>
      dsimp only
      split
      · exact steadyPure _
      · exact (steadyLift _).bind fun _ => steadyPure _
    | typedArray header fields =>
      rw [here] at plain
      exact absurd rfl plain
    | array header elements lengthWritable => exact steadyPure _
    | _ => exact .ite (fun _ => steadyPure _) fun _ => steadyPure _

theorem steadyDefineOnObject {header} (aims : Aims base.heap.length object) (past : base.heap.length ≤ i) (plain : e.kind ≠ .typedArray) :
    Steady (Beside base floor) (defineOnObject object i e header key d) := by
  refine .ite (fun _ => steadyFail _) fun _ => (steadyDescriptor aims).bind fun current => steadyRead fun t _ => (steadyLift _).bind fun _ => ?_
  refine (steadyCharge past _).bind fun _ => (steadySet past ?_).bind fun _ => steadyRefund past _
  rw [HeapEntry.withPropertiesKind]
  exact plain

theorem steadyDefineIndex {header elements lengthWritable offset refund} (past : base.heap.length ≤ i) :
    Steady (Beside base floor) (defineIndex i header elements lengthWritable offset key d refund) := by
  have plain : ∀ parts, (header.arrayOf parts lengthWritable).kind ≠ .typedArray := fun parts same => by cases same
  unfold defineIndex
  dsimp only
  split
  · exact (steadySet past (plain _)).bind fun _ => steadyFail _
  · exact (steadySet past (plain _)).bind fun _ => steadyRefund past _

theorem steadyDefineOnArray {header elements lengthWritable} (aims : Aims base.heap.length object)
    (past : base.heap.length ≤ i) : Steady (Beside base floor) (defineOnArray object i header elements lengthWritable key d) := by
  refine .ite (fun _ => steadyFail _) fun _ => .ite (fun _ => steadyFail _) fun _ => (steadyDescriptor aims).bind fun current =>
    steadyRead fun t _ => (steadyLift _).bind fun _ => (steadyCharge past _).bind fun _ => ?_
  split
  · exact steadyDefineIndex past
  · exact (steadySet past fun same => by cases same).bind fun _ => steadyRefund past _

theorem steadyDefineLength {header elements lengthWritable} (past : base.heap.length ≤ i) :
    Steady (Beside base floor) (defineLength i header elements lengthWritable d) := by
  unfold defineLength
  split
  · split
    · exact steadyFail _
    · refine .ite (fun _ => steadyFail _) fun _ => (steadyCharge past _).bind fun _ => (steadySet past fun same => by cases same).bind fun _ =>
        (steadyRefund past _).bind fun _ => steadyLift _
  · exact steadyFail _

theorem steadyDefine (aims : Aims base.heap.length object) (key d) :
    Steady (Beside base floor) (defineDescriptor object key d) := by
  refine steadyRead fun t beside => steadySlot aims fun slot past => ?_
  cases slot with
  | none => exact steadyFail _
  | some i =>
    have past := past i rfl
    have plain := beside.entry past
    dsimp only
    cases here : t.entry i with
    | typedArray header fields =>
      rw [here] at plain
      exact absurd rfl plain
    | array header elements lengthWritable => exact .ite (fun _ => steadyDefineLength past) fun _ => steadyDefineOnArray aims past
    | _ =>
      rw [here] at plain
      dsimp only
      split
      · exact .ite (fun _ => steadyDefineOnObject aims past plain) fun _ => steadyFail _
      · exact steadyFail _

theorem steadyReplace (aims : Aims base.heap.length object) (elements) : Steady (Beside base floor) (replaceArrayElements object elements) := by
  refine steadyRead fun t beside => steadySlot aims fun slot past => ?_
  cases slot with
  | none => exact steadyFail _
  | some i =>
    have past := past i rfl
    dsimp only [Option.map_some]
    cases t.entry i with
    | array header current lengthWritable =>
      exact (steadyCharge past _).bind fun _ => (steadySet past fun same => by cases same).bind fun _ => steadyRefund past _
    | _ => exact steadyFail _

theorem steadyAppend (past : base.heap.length ≤ i) (data key value) :
    Steady (Beside base floor) (appendCollectionEntry i data key value) := by
  have plain : ∀ data : CollectionData, data.entry.kind ≠ .typedArray := fun data same => by cases same
  refine steadyRead fun t _ => (steadyCharge past _).bind fun _ => (steadySet past (plain _)).bind fun _ => Steady.given ?_
  exact steadyRead fun u _ => steadySet past (plain _)

theorem steadyBuffer (aims : Aims base.heap.length object) {α} {f : Nat × Header × ArrayBufferData → Exec α}
    (next : ∀ i header data, base.heap.length ≤ i → Steady (Beside base floor) (f (i,header,data))) :
    Steady (Beside base floor) (bufferSlot object >>= f) := by
  unfold bufferSlot
  rw [bind_assoc]
  refine steadyRead fun t _ => ?_
  rw [bind_assoc]
  refine steadySlot aims fun slot past => ?_
  cases slot with
  | none => exact steadyFail _
  | some i =>
    dsimp only
    cases t.entry i with
    | arrayBuffer header data => exact next i header data (past i rfl)
    | _ => exact steadyFail _

theorem steadyCopy (aims : Aims base.heap.length object) (bytes) : Steady (Beside base floor) (copyBytes object bytes) := by
  refine steadyBuffer aims fun i header data past => ?_
  dsimp only
  split
  · exact steadyFail _
  · exact .ite (fun _ => steadySet past fun same => by cases same) fun _ => steadyFail _

def Makes (base : Machine) (floor : Nat) (p : Exec Value) : Prop :=
  ∀ t, Beside base floor t → After p t (fun v u => Beside base (floor+1) u ∧ Aims base.heap.length v) fun _ u => Beside base floor u

theorem makesAllocate (plain : e.kind ≠ .typedArray) : Makes base floor (allocate e) := fun _ beside => allocateBeside plain beside

theorem makesAfter {α} {p : Exec α} {f} (first : Steady (Beside base floor) p) (later : ∀ a, Makes base floor (f a)) :
    Makes base floor (p >>= f) := by
  intro t beside
  rw [afterBind]
  exact (first t beside).mono (fun a u held => later a u held) fun _ _ failed => failed

theorem Beside.lower {k} (beside : Beside base k t) (less : floor ≤ k) : Beside base floor t :=
  { beside with reach := Nat.le_trans less beside.reach }

theorem makesBuffer (byteLength maxByteLength) : Makes base floor (allocateBuffer byteLength maxByteLength) := by
  unfold allocateBuffer
  split
  · exact fun t beside => beside
  · refine fun t beside => makesAfter ((steadyCapacity _ _).caught fun _ => steadyFail _) (fun _ => ?_) t beside
    refine makesAfter (steadyLift _) fun prototype u beside => ?_
    rw [afterTryCatch]
    exact (allocateBeside (fun same => by cases same) beside).mono (fun _ _ done => done) fun _ _ failed => failed

theorem makesTarget (node) : Makes base floor (allocateTarget node) := by
  intro t
  unfold allocateTarget
  rw [afterBind,afterRead]
  revert t
  cases node with
  | pending source => exact fun t beside => beside
  | string text => exact fun t => makesAllocate (fun same => by cases same) t
  | bigInt text => exact fun t => makesAllocate (fun same => by cases same) t
  | object prototype boxed properties => exact fun t => makesAllocate (fun same => by cases same) t
  | array length elements properties => exact fun t => makesAllocate (fun same => by cases same) t
  | date time properties => exact fun t => makesAfter (steadyLift _) (fun _ => makesAllocate fun same => by cases same) t
  | regExp pattern flags source canonicalFlags properties =>
    exact fun t => makesAfter (steadyLift _) (fun _ => makesAllocate fun same => by cases same) t
  | map entries properties prototype => exact fun t => makesAllocate (fun same => by cases same) t
  | set values properties prototype => exact fun t => makesAllocate (fun same => by cases same) t
  | sharedArrayBuffer block properties prototype => exact fun t => makesAllocate (fun same => by cases same) t
  | arrayBuffer bytes maxByteLength properties =>
    intro t beside
    rw [afterBind]
    refine (makesBuffer _ _ t beside).mono (fun v u made => ?_) fun _ _ failed => failed
    rw [afterBind]
    exact (steadyCopy made.2 bytes u made.1).mono (fun _ w held => ⟨held,made.2⟩) fun _ w held => held.lower (Nat.le_succ _)

theorem makesTargets (nodes) (beside : Beside base floor t) :
    After (allocateTargets nodes) t (fun targets u => Beside base (floor+nodes.length) u ∧ ∀ target ∈ targets, Aims base.heap.length target)
      fun _ u => Beside base floor u := by
  induction nodes generalizing t floor with
  | nil => exact ⟨beside,fun target among => absurd among List.not_mem_nil⟩
  | cons node rest ih =>
    rw [allocateTargets,afterBind]
    refine (makesTarget node t beside).mono (fun target u made => ?_) fun _ _ failed => failed
    rw [afterBind]
    refine (ih made.1).mono (fun targets w done => ⟨?_,List.forall_mem_cons.mpr ⟨made.2,done.2⟩⟩) fun _ w failed => failed.lower (Nat.le_succ _)
    rw [List.length_cons,Nat.add_comm rest.length,← Nat.add_assoc]
    exact done.1

variable {targets : List Value} {target : Value}

theorem steadyResolve (targets encoded) : Steady (Beside base floor) (resolve targets encoded) := by
  cases encoded with
  | immediate value => exact steadyPure _
  | node id => exact steadyLift _

theorem steadyProperties (aims : Aims base.heap.length target) (properties) :
    Steady (Beside base floor) (defineProperties targets target properties) := by
  induction properties with
  | nil => exact steadyPure _
  | cons property rest ih => exact (steadyResolve _ _).bind fun value => (steadyDefine aims _ _).bind fun _ => ih

theorem steadyPlace (elements values) : Steady (Beside base floor) (placeElements targets elements values) := by
  induction elements generalizing values with
  | nil => exact steadyPure _
  | cons element rest ih => exact .ite (fun _ => (steadyResolve _ _).bind fun value => ih _) fun _ => ih _

theorem steadyTargetSlot (aims : Aims base.heap.length target) {f : Nat → Exec Unit}
    (next : ∀ i, base.heap.length ≤ i → Steady (Beside base floor) (f i)) : Steady (Beside base floor) (targetSlot target >>= f) := by
  unfold targetSlot
  rw [bind_assoc]
  refine steadySlot aims fun slot past => ?_
  cases slot with
  | none => exact steadyFail _
  | some i => exact next i (past i rfl)

theorem steadyPairs (past : base.heap.length ≤ i) (entries) :
    Steady (Beside base floor) (appendPairs targets i entries) := by
  induction entries with
  | nil => exact steadyPure _
  | cons entry rest ih =>
    refine (steadyResolve _ _).bind fun key => (steadyResolve _ _).bind fun value => Steady.bind (steadyRead fun t _ => ?_) fun _ => ih
    cases (t.entry i).collection? with
    | none => exact steadyFail _
    | some data => exact steadyAppend past data key value

theorem steadyBoxed (aims : Aims base.heap.length target) (boxed) : Steady (Beside base floor) (setBoxed targets target boxed) := by
  refine steadyTargetSlot aims fun i past => steadyRead fun t _ => ?_
  cases t.entry i with
  | object header primitive => exact (steadyResolve _ _).bind fun value => steadySet past fun same => by cases same
  | _ => exact steadyFail _

theorem steadyFill (aims : Aims base.heap.length target) (node) : Steady (Beside base floor) (fillTarget targets target node) := by
  cases node with
  | object prototype boxed properties =>
    cases boxed with
    | none => exact (steadyPure _).bind fun _ => steadyProperties aims _
    | some boxed => exact (steadyBoxed aims boxed).bind fun _ => steadyProperties aims _
  | array length elements properties =>
    exact (steadyPlace _ _).bind fun values => (steadyReplace aims values).bind fun _ => steadyProperties aims _
  | date time properties => exact steadyProperties aims _
  | arrayBuffer bytes maxByteLength properties => exact steadyProperties aims _
  | sharedArrayBuffer block properties prototype => exact steadyProperties aims _
  | regExp pattern flags source canonicalFlags properties =>
    exact (steadyResolve _ _).bind fun source => (steadyResolve _ _).bind fun flags => (steadyDefine aims _ _).bind fun _ =>
      (steadyDefine aims _ _).bind fun _ => (steadyDefine aims _ _).bind fun _ => steadyProperties aims _
  | map entries properties prototype => exact steadyTargetSlot aims fun i past => (steadyPairs past _).bind fun _ => steadyProperties aims _
  | set values properties prototype => exact steadyTargetSlot aims fun i past => (steadyPairs past _).bind fun _ => steadyProperties aims _
  | pending source => exact steadyPure _
  | string text => exact steadyPure _
  | bigInt text => exact steadyPure _

theorem steadyFills (pairs) (aims : ∀ pair ∈ pairs, Aims base.heap.length pair.1) :
    Steady (Beside base floor) (fillTargets targets pairs) := by
  induction pairs with
  | nil => exact steadyPure _
  | cons pair rest ih =>
    exact (steadyFill (aims pair List.mem_cons_self) _).bind fun _ => ih fun other among => aims other (List.mem_cons_of_mem _ among)

theorem materializeBeside (balanced : Balanced base) (plan) :
    After (materialize plan) base (fun _ t => Beside base (base.heap.length+plan.nodes.length) t) fun _ t => Beside base base.heap.length t := by
  unfold materialize
  rw [afterBind]
  refine (makesTargets plan.nodes (Beside.refl balanced)).mono (fun targets u made => ?_) fun _ _ failed => failed
  have rest : Steady (Beside base (base.heap.length+plan.nodes.length)) (do
      fillTargets targets (targets.zip plan.nodes)
      resolve targets plan.root) :=
    (steadyFills _ fun pair among => made.2 _ (List.of_mem_zip among).1).bind fun _ => steadyResolve _ _
  exact (rest u made.1).mono (fun _ _ held => held) fun _ _ held => held.lower (Nat.le_add_right _ _)

end

end Bamts.Runtime
