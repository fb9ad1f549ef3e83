import Bamts.HopChain
import Bamts.RuntimeIterate
import Bamts.RuntimeSolvent

/-! Prototypes that change: `[[SetPrototypeOf]]` with its cycle guard, and the walkers that rely
on every chain of prototypes to end. -/
set_option linter.all false
namespace Bamts.Runtime
open Effect HopChain Linkage
open Relation (ReflTransGen)

def Machine.internalGetPrototypeOf (m : Machine) (object : Value) : Except Fault (Option Value) :=
  if m.isProxyValue object then .error (.callout object .undefined [])
  else do
    match ← m.slot object with
    | none => return none
    | some index => match ← m.prototypeIndex index with
      | none => return none
      | some prototype => match valueForHeapIndex prototype with
        | some value => return some value
        | none => .error (rangeError "prototype heap slot exceeds u32")

def settableKinds : List Kind :=
  [.object,.generator,.asyncGenerator,.script,.array,.function,.regExp,.date,.builtinIterator,.collection,.typedArray,
   .arrayBuffer,.sharedArrayBuffer,.dataView,.promise,.weakRef,.finalizationRegistry,.disposableStack,.processEnv,.timeout,
   .nativeFunction]

def HeapEntry.withPrototype (prototype : Option Value) : HeapEntry → HeapEntry
  | .processEnv _ extensible => .processEnv prototype extensible
  | entry => entry.withHeader fun header => { header with prototype := prototype }

def Machine.prototypeSlot (m : Machine) (prototype : Value) : Except Fault (Option Value) := do
  match ← m.slot prototype with
  | some _ => return some prototype
  | none => match prototype.decode with
    | some .null => return none
    | some (.heapRef _) => return some prototype
    | _ => .error (typeError "set prototype to non-object")

def setPrototype (object prototype : Value) : Exec Unit := do
  let m ← read
  let prototype ← lift (m.prototypeSlot prototype)
  match ← runtimeSlot object with
  | none => fail (typeError "set prototype on host object")
  | some index =>
    if (m.entry index).kind ∈ settableKinds then setEntry index ((m.entry index).withPrototype prototype)
    else fail (typeError "set prototype on primitive")

inductive Climb where
  | meets | ends | goesOn

/- The loop of `internal_set_prototype_of`, which the source does not bound; `goesOn` is a walk
that was still under way when the fuel ran out. -/
def Machine.climb (m : Machine) (object : Value) : Nat → Value → Except Fault Climb
  | 0, _ => .ok .goesOn
  | fuel+1, node =>
    if node.decode = some .null then .ok .ends
    else if node = object then .ok .meets
    else do
      match ← m.internalGetPrototypeOf node with
      | some next => m.climb object fuel next
      | none => return .ends

def internalSetPrototypeOf (fuel : Nat) (object : Value) (prototype : Option Value) : Exec (Option Bool) := do
  let m ← read
  let proposed := prototype.getD .null
  if m.isProxyValue object then fail (.callout object .undefined [proposed])
  else do
    let current ← lift (m.internalGetPrototypeOf object)
    if m.sameValue proposed (current.getD .null) then pure (some true)
    else do
      let extensible ← lift (m.isExtensible object)
      if extensible = false then pure (some false)
      else do
        let climb ← lift (m.climb object fuel proposed)
        match climb with
        | .goesOn => pure none
        | .meets => pure (some false)
        | .ends => do
          setPrototype object proposed
          pure (some true)

-- `is_prototype_of`, which the source does not bound either.
def Machine.isPrototypeOf (m : Machine) (this : Value) : Nat → Value → Except Fault (Option Bool)
  | 0, _ => .ok none
  | fuel+1, value => do
    match ← m.internalGetPrototypeOf value with
    | none => return some false
    | some prototype => if prototype = this then return some true else m.isPrototypeOf this fuel prototype

def Machine.inheritsFrom (m : Machine) (target : Nat) : Nat → Nat → Except Fault Bool
  | 0, _ => .ok false
  | fuel+1, current => do
    match ← m.prototypeIndex current with
    | none => return false
    | some next => if next = target then return true else m.inheritsFrom target fuel next

def Machine.hasPropertyFrom (m : Machine) (key : PropertyKey) : Nat → Nat → Except Fault Bool
  | 0, _ => .ok false
  | fuel+1, node =>
    if (m.entry node).kind = .proxy then do
      let proxy ← Machine.valueForRuntimeIndex node
      .error (.callout proxy .undefined [])
    else if (m.ownGet node key).isSome then .ok true
    else do
      match ← m.prototypeIndex node with
      | none => return false
      | some next => m.hasPropertyFrom key fuel next

def Machine.prototypeOf (m : Machine) : HeapEntry → Option Value
  | .proxyRevoker .. => some m.intrinsics.functionPrototype
  | .nativeFunction header _ => header.prototype.or (some m.intrinsics.functionPrototype)
  | .processEnv prototype _ => prototype
  | entry => entry.header?.bind (·.prototype)

theorem prototypeAt (m : Machine) (i) :
    m.prototypeIndex i = (m.prototypeOf (m.entry i)).elim (.ok none) m.slot := by
  unfold Machine.prototypeIndex
  dsimp only
  split
  · rename_i value here
    have here : m.prototypeOf (m.entry i) = some value := here
    rw [here]
    rfl
  · rename_i here
    have here : m.prototypeOf (m.entry i) = none := here
    rw [here]
    rfl

theorem referenceNat (segment : UInt16) (slot : UInt32) :
    (segment.toUInt64 <<< 32 ||| slot.toUInt64).toNat = segment.toNat * 2^32 + slot.toNat := by
  have by32 : (32 : UInt64).toNat % 64 = 32 := rfl
  have low : slot.toUInt64.toNat < 2^32 := slot.toNat_lt
  have wide : segment.toUInt64.toNat < 2^16 := segment.toNat_lt
  have top : segment.toUInt64.toNat <<< 32 % 2^64 = 2^32 * segment.toUInt64.toNat := by
    omega
  rw [UInt64.toNat_or,UInt64.toNat_shiftLeft,by32,top,← Nat.two_pow_add_eq_or_of_lt low,Nat.mul_comm]
  rfl

theorem referenceWord {bits payload} (box : Value.isBoxed bits = true) (tag : Value.tagOf bits = Value.tagHeapRef)
    (low : payload = bits &&& Value.payloadMask) :
    Value.boxed Value.tagHeapRef ((payload >>> 32).toUInt16.toUInt64 <<< 32 ||| payload.toUInt32.toUInt64) = bits := by
  have by32 : (32 : UInt64).toNat % 64 = 32 := rfl
  have boxes := (Value.boxedIff bits).mp box
  have tagged := congrArg UInt64.toNat tag
  rw [Value.tagNat,show Value.tagHeapRef.toNat = 1 from rfl] at tagged
  have reference := referenceNat (payload >>> 32).toUInt16 payload.toUInt32
  rw [UInt64.toNat_toUInt16,UInt64.toNat_toUInt32,UInt64.toNat_shiftRight,by32,Nat.shiftRight_eq_div_pow,low,Value.payloadNat,← low]
    at reference
  apply UInt64.toNat_inj.mp
  rw [Value.boxedNat (by decide) (by rw [reference]; omega),reference,show Value.tagHeapRef.toNat = 1 from rfl]
  omega

theorem iteApart {α} {p : Prop} [Decidable p] {a b c : α} (left : a ≠ c) (right : b ≠ c) : (if p then a else b) ≠ c := by
  split
  · exact left
  · exact right

theorem referenceOf {v : Value} {id} (decoded : v.decode = some (.heapRef id)) : v = .heapRef id := by
  unfold Value.decode at decoded
  dsimp only at decoded
  by_cases box : Value.isBoxed v.bits = true
  · rw [box,if_neg (by decide)] at decoded
    by_cases tag : Value.tagOf v.bits = Value.tagHeapRef
    · rw [if_pos tag] at decoded
      obtain ⟨id',parts,same⟩ := Option.map_eq_some_iff.mp decoded
      cases same
      unfold SlotId.fromParts at parts
      split at parts
      · cases parts
        exact congrArg Value.fromBits (referenceWord box tag rfl).symm
      · cases parts
    · have other : ∀ {p : Prop} [Decidable p] {read : Decoded}, some read ≠ some (Decoded.heapRef id) →
          (if p then some read else none) ≠ some (Decoded.heapRef id) := fun apart => iteApart apart (Option.some_ne_none _).symm
      rw [if_neg tag] at decoded
      refine absurd decoded (iteApart (other ?_) (iteApart (other ?_) (iteApart (other ?_)
        (iteApart (iteApart ?_ (other ?_)) (iteApart (other ?_) (other ?_))))))
      all_goals exact fun same => by cases same
  · rw [Bool.eq_false_iff.mpr box,if_pos (by decide)] at decoded
    cases decoded

theorem slotUnique {m : Machine} {a b i} (left : m.slot a = .ok (some i)) (right : m.slot b = .ok (some i)) : a = b := by
  have named : ∀ v, m.slot v = .ok (some i) → ∃ id, v = .heapRef id ∧ id.segment = runtimeHeapSegment ∧ id.slot.toNat = i+1 := by
    intro v there
    unfold Machine.slot at there
    split at there
    · cases there
    · rename_i id decoded
      split at there
      · cases there
      · rename_i segment
        split at there
        · cases there
        · cases there
        · cases there
          have positive : id.slot.toNat ≠ 0 := fun zero => id.slotNonzero (UInt32.toNat_inj.mp zero)
          exact ⟨id,referenceOf decoded,not_not.mp segment,by omega⟩
    · cases there
  obtain ⟨x,rfl,segmentX,slotX⟩ := named a left
  obtain ⟨y,rfl,segmentY,slotY⟩ := named b right
  have slots : x.slot = y.slot := UInt32.toNat_inj.mp (slotX.trans slotY.symm)
  cases x
  cases slots
  cases segmentX.trans segmentY.symm
  rfl

section Chains

variable {m : Machine} {i j : Nat}

theorem slotInside {v} (there : m.slot v = .ok (some i)) : i < m.heap.length :=
  (List.getElem?_eq_some_iff.mp (slotFound there).1).1

theorem hopValue (hop : Hops m.prototypeIndex i j) : ∃ v, m.prototypeOf (m.entry i) = some v ∧ m.slot v = .ok (some j) := by
  unfold Hops at hop
  rw [prototypeAt] at hop
  cases prototype : m.prototypeOf (m.entry i) with
  | none =>
    rw [prototype] at hop
    cases hop
  | some v =>
    rw [prototype] at hop
    exact ⟨v,rfl,hop⟩

theorem prototypeInside (hop : Hops m.prototypeIndex i j) : j < m.heap.length := by
  obtain ⟨v,_,there⟩ := hopValue hop
  exact slotInside there

theorem prototypeOutside (past : m.heap.length ≤ i) : m.prototypeIndex i = .ok none := by
  have vacant : m.entry i = .vacant := by
    rw [Machine.entry,List.getD_eq_getElem?_getD,List.getElem?_eq_none past]
    rfl
  rw [prototypeAt,vacant]
  rfl

def Machine.Founded (m : Machine) : Prop := ∀ i, ∃ n e, Ends m.prototypeIndex i n e

theorem chainShort {n e} (chain : Ends m.prototypeIndex i n e) : n ≤ m.heap.length := by
  rcases Nat.lt_or_ge i m.heap.length with inside | past
  · have bound := @Ends.bound _ _ _ (List.range m.heap.length)
      (fun x _ y hop => List.mem_range.mpr (prototypeInside hop)) i e n chain (List.mem_range.mpr inside)
    rw [List.length_range] at bound
    omega
  · have stopped : Ends m.prototypeIndex i 0 i := .stop (prototypeOutside past)
    rw [(chain.unique stopped).1]
    exact Nat.zero_le _

structure Machine.Started (m : Machine) : Prop where
  founded : m.Founded
  direct : ∀ i j, Hops m.prototypeIndex i j → (m.entry j).kind ≠ .proxy
  live : ∃ start, m.slot m.intrinsics.functionPrototype = .ok (some start) ∧ (m.entry start).kind ≠ .proxy

-- What `[[GetPrototypeOf]]` finds above a value that is no proxy.
inductive Above (m : Machine) (object : Value) : Option Value → Prop where
  | primitive (free : m.slot object = .ok none) : Above m object none
  | last {i : Nat} (there : m.slot object = .ok (some i)) (stop : m.prototypeIndex i = .ok none) : Above m object none
  | hop {i j : Nat} {next : Value} (there : m.slot object = .ok (some i)) (hop : Hops m.prototypeIndex i j)
      (slot : m.slot next = .ok (some j)) : Above m object (some next)

theorem prototypeAbove {object next} (got : m.internalGetPrototypeOf object = .ok next) : Above m object next := by
  unfold Machine.internalGetPrototypeOf at got
  split at got
  · cases got
  · obtain ⟨slot,there,got⟩ := Outcome.bindOk.mp got
    cases slot with
    | none =>
      cases got
      exact .primitive there
    | some i =>
      obtain ⟨prototype,hop,got⟩ := Outcome.bindOk.mp got
      cases prototype with
      | none =>
        cases got
        exact .last there hop
      | some j =>
        dsimp only at got
        split at got
        · rename_i value known
          cases got
          obtain ⟨v,_,slot⟩ := hopValue hop
          obtain ⟨found,full⟩ := slotFound slot
          exact .hop there hop (slotOfIndex known found full)
        · cases got

theorem slotNull {v} (there : m.slot v = .ok (some i)) : v.decode ≠ some .null := by
  intro null
  unfold Machine.slot at there
  rw [null] at there
  cases there

theorem climbClear {object} (there : m.slot object = .ok (some i)) {fuel node j}
    (from_ : m.slot node = .ok (some j)) (ended : m.climb object fuel node = .ok .ends) :
    ¬ReflTransGen (Hops m.prototypeIndex) j i := by
  induction fuel generalizing node j with
  | zero => cases ended
  | succ fuel ih =>
    rw [Machine.climb,if_neg (slotNull from_)] at ended
    split at ended
    · cases ended
    · rename_i apart
      have differ : j ≠ i := by
        rintro rfl
        exact apart (slotUnique from_ there)
      obtain ⟨next,got,ended⟩ := Outcome.bindOk.mp ended
      intro path
      rcases ReflTransGen.cases_head path with same | ⟨k,first,rest⟩
      · exact differ same
      · unfold Hops at first
        cases prototypeAbove got with
        | primitive free =>
          rw [from_] at free
          cases free
        | last here stop =>
          rw [from_] at here
          cases here
          rw [stop] at first
          cases first
        | hop here hop slot =>
          rw [from_] at here
          cases here
          rw [hop] at first
          cases first
          exact ih slot ended rest

-- The fuel a walk up from `v` takes.
def Enough (m : Machine) (v : Value) (fuel : Nat) : Prop :=
  0 < fuel ∧ ∀ j n e, m.slot v = .ok (some j) → Ends m.prototypeIndex j n e → n < fuel

theorem enoughAlways {v fuel} (past : m.heap.length < fuel) : Enough m v fuel :=
  ⟨Nat.zero_lt_of_lt past,fun _ _ _ _ chain => Nat.lt_of_le_of_lt (chainShort chain) past⟩

theorem Enough.above (founded : m.Founded) {v next fuel} (enough : Enough m v (fuel+1)) (above : Above m v (some next)) :
    Enough m next fuel := by
  cases above with
  | @hop i j _ there hop slot =>
    have short : ∀ k n e, m.slot next = .ok (some k) → Ends m.prototypeIndex k n e → n < fuel := by
      intro k n e here chain
      rw [slot] at here
      cases here
      have := enough.2 i (n+1) e there (.hop hop chain)
      omega
    obtain ⟨n,e,chain⟩ := founded j
    exact ⟨Nat.zero_lt_of_lt (short j n e slot chain),short⟩

theorem climbEnds (founded : m.Founded) (object) {fuel node} (enough : Enough m node fuel) :
    m.climb object fuel node ≠ .ok .goesOn := by
  induction fuel generalizing node with
  | zero => exact absurd enough.1 (Nat.lt_irrefl 0)
  | succ fuel ih =>
    intro on
    rw [Machine.climb] at on
    split at on
    · cases on
    · split at on
      · cases on
      · obtain ⟨next,got,on⟩ := Outcome.bindOk.mp on
        cases next with
        | none => cases on
        | some next => exact ih (enough.above founded (prototypeAbove got)) on

theorem isPrototypeEnds (founded : m.Founded) (this) {fuel value} (enough : Enough m value fuel) :
    m.isPrototypeOf this fuel value ≠ .ok none := by
  induction fuel generalizing value with
  | zero => exact absurd enough.1 (Nat.lt_irrefl 0)
  | succ fuel ih =>
    intro on
    obtain ⟨next,got,on⟩ := Outcome.bindOk.mp on
    cases next with
    | none => cases on
    | some next =>
      dsimp only at on
      split at on
      · cases on
      · exact ih (enough.above founded (prototypeAbove got)) on

theorem inheritsSame (target) {n e} (chain : Ends m.prototypeIndex i n e) :
    ∀ fuel fuel', n < fuel → n < fuel' → m.inheritsFrom target fuel i = m.inheritsFrom target fuel' i := by
  induction chain with
  | stop last =>
    intro fuel fuel' left right
    obtain ⟨fuel,rfl⟩ := Nat.exists_eq_succ_of_ne_zero (Nat.ne_of_gt left)
    obtain ⟨fuel',rfl⟩ := Nat.exists_eq_succ_of_ne_zero (Nat.ne_of_gt right)
    rw [Machine.inheritsFrom,Machine.inheritsFrom,last]
    rfl
  | hop here _ ih =>
    intro fuel fuel' left right
    obtain ⟨fuel,rfl⟩ := Nat.exists_eq_succ_of_ne_zero (Nat.ne_of_gt (Nat.zero_lt_of_lt left))
    obtain ⟨fuel',rfl⟩ := Nat.exists_eq_succ_of_ne_zero (Nat.ne_of_gt (Nat.zero_lt_of_lt right))
    rw [Machine.inheritsFrom,Machine.inheritsFrom,here]
    simp only [bind,Except.bind,ih fuel fuel' (by omega) (by omega)]

theorem hasSame (key) {n e} (chain : Ends m.prototypeIndex i n e) :
    ∀ fuel fuel', n < fuel → n < fuel' → m.hasPropertyFrom key fuel i = m.hasPropertyFrom key fuel' i := by
  induction chain with
  | stop last =>
    intro fuel fuel' left right
    obtain ⟨fuel,rfl⟩ := Nat.exists_eq_succ_of_ne_zero (Nat.ne_of_gt left)
    obtain ⟨fuel',rfl⟩ := Nat.exists_eq_succ_of_ne_zero (Nat.ne_of_gt right)
    rw [Machine.hasPropertyFrom,Machine.hasPropertyFrom,last]
    rfl
  | hop here _ ih =>
    intro fuel fuel' left right
    obtain ⟨fuel,rfl⟩ := Nat.exists_eq_succ_of_ne_zero (Nat.ne_of_gt (Nat.zero_lt_of_lt left))
    obtain ⟨fuel',rfl⟩ := Nat.exists_eq_succ_of_ne_zero (Nat.ne_of_gt (Nat.zero_lt_of_lt right))
    rw [Machine.hasPropertyFrom,Machine.hasPropertyFrom,here]
    simp only [bind,Except.bind,ih fuel fuel' (by omega) (by omega)]

theorem getSame (key) {n e} (chain : Ends m.prototypeIndex i n e) :
    ∀ fuel fuel', n < fuel → n < fuel' → resolveGetFrom key fuel i m = resolveGetFrom key fuel' i m := by
  induction chain with
  | stop last =>
    intro fuel fuel' left right
    obtain ⟨fuel,rfl⟩ := Nat.exists_eq_succ_of_ne_zero (Nat.ne_of_gt left)
    obtain ⟨fuel',rfl⟩ := Nat.exists_eq_succ_of_ne_zero (Nat.ne_of_gt right)
    simp only [resolveGetFrom,bind,EStateM.bind,Effect.read,last,lift]
    rfl
  | @hop i next e n here _ ih =>
    intro fuel fuel' left right
    obtain ⟨fuel,rfl⟩ := Nat.exists_eq_succ_of_ne_zero (Nat.ne_of_gt (Nat.zero_lt_of_lt left))
    obtain ⟨fuel',rfl⟩ := Nat.exists_eq_succ_of_ne_zero (Nat.ne_of_gt (Nat.zero_lt_of_lt right))
    have later := ih fuel fuel' (by omega) (by omega)
    cases entry : m.entry i with
    | typedArray header fields =>
      cases typed : key.typedIndex with
      | some typedIndex => simp only [resolveGetFrom,bind,EStateM.bind,Effect.read,entry,typed]
      | none =>
        simp only [resolveGetFrom,bind,EStateM.bind,Effect.read,here,entry,typed]
        split
        · rfl
        · cases m.ownGet i key with
          | some found => rfl
          | none => exact later
    | _ =>
      simp only [resolveGetFrom,bind,EStateM.bind,Effect.read,here,entry]
      split
      · rfl
      · cases m.ownGet i key with
        | some found => rfl
        | none => exact later

theorem descriptorMissing (object key) :
    After (ownDescriptor object key) m (fun found t => found = none → t = m) (fun _ _ => True) := by
  unfold ownDescriptor runtimeSlot
  simp only [afterBind,afterRead]
  refine afterLift (fun slot _ => ?_) fun _ _ => trivial
  cases slot with
  | none => exact fun _ => rfl
  | some i =>
    dsimp only
    cases m.entry i with
    | moduleNamespace module =>
      dsimp only
      split
      · exact fun _ => rfl
      · rw [afterBind]
        exact afterLift (fun value _ _ => rfl) fun _ _ => trivial
    | typedArray header fields =>
      dsimp only
      split
      · exact fun _ => rfl
      · simp only [afterBind]
        refine afterLift (fun view _ => ?_) fun _ _ => trivial
        refine afterLift (fun bounds _ => ?_) fun _ _ => trivial
        split
        · exact fun _ => rfl
        · rw [afterIte,afterBind]
          refine ⟨fun _ _ => rfl,fun _ => ?_⟩
          unfold After
          split
          · rintro ⟨⟩
          · trivial
    | array header elements lengthWritable => exact fun _ => rfl
    | _ =>
      rw [afterIte]
      exact ⟨fun _ _ => rfl,fun _ _ => rfl⟩

theorem setStep (key value receiver) {fuel fuel'} (rest : ∀ next, Hops m.prototypeIndex i next →
      resolveSetFrom key value receiver fuel next m = resolveSetFrom key value receiver fuel' next m) :
    resolveSetFrom key value receiver (fuel+1) i m = resolveSetFrom key value receiver (fuel'+1) i m := by
  simp only [resolveSetFrom,bind,EStateM.bind,Effect.read]
  cases Machine.valueForRuntimeIndex i with
  | error fault => rfl
  | ok node =>
    have missing := @descriptorMissing m node key
    unfold After at missing
    simp only [lift]
    split
    · rfl
    · simp only [EStateM.bind]
      cases read : ownDescriptor node key m with
      | error fault t => rfl
      | ok d t =>
        rw [read] at missing
        cases d with
        | some p => cases p with
          | accessor getter setter => cases setter <;> rfl
          | data v writable => cases writable <;> rfl
        | none =>
          obtain rfl := missing rfl
          simp only [EStateM.bind,Effect.read]
          cases above : t.prototypeIndex i with
          | error fault => rfl
          | ok next => cases next with
            | none => rfl
            | some next => exact rest next above

theorem setSame (key value receiver) {n e} (chain : Ends m.prototypeIndex i n e) :
    ∀ fuel fuel', n < fuel → n < fuel' →
      resolveSetFrom key value receiver fuel i m = resolveSetFrom key value receiver fuel' i m := by
  induction chain with
  | stop last =>
    intro fuel fuel' left right
    obtain ⟨fuel,rfl⟩ := Nat.exists_eq_succ_of_ne_zero (Nat.ne_of_gt left)
    obtain ⟨fuel',rfl⟩ := Nat.exists_eq_succ_of_ne_zero (Nat.ne_of_gt right)
    refine setStep key value receiver fun next hop => ?_
    rw [Hops,last] at hop
    cases hop
  | hop here _ ih =>
    intro fuel fuel' left right
    obtain ⟨fuel,rfl⟩ := Nat.exists_eq_succ_of_ne_zero (Nat.ne_of_gt (Nat.zero_lt_of_lt left))
    obtain ⟨fuel',rfl⟩ := Nat.exists_eq_succ_of_ne_zero (Nat.ne_of_gt (Nat.zero_lt_of_lt right))
    refine setStep key value receiver fun next hop => ?_
    rw [Hops,here] at hop
    cases hop
    exact ih fuel fuel' (by omega) (by omega)

end Chains

def Outlives (m t : Machine) : Prop :=
  t.intrinsics = m.intrinsics ∧ ∀ (i : Nat) (e : HeapEntry), m.heap[i]? = some e → e ≠ .vacant → ∃ after, t.heap[i]? = some after ∧ after.kind = e.kind

section Step

variable {m t : Machine} {i j : Nat}

theorem vacantKind {e : HeapEntry} : e.kind = .vacant ↔ e = .vacant := by
  cases e with
  | vacant => exact iff_of_true rfl rfl
  | _ => constructor <;> rintro ⟨⟩

theorem Outlives.slot (outlives : Outlives m t) {v s} (there : m.slot v = .ok s) : t.slot v = .ok s := by
  cases decoded : v.decode with
  | none => simp [Machine.slot,decoded] at there
  | some kind =>
    cases kind with
    | heapRef id =>
      simp only [Machine.slot,decoded] at there ⊢
      split at there
      · cases there
      · rename_i native
        rw [if_neg native]
        split at there
        · cases there
        · cases there
        · rename_i e full found
          obtain ⟨after,later,kind⟩ := outlives.2 _ e found full
          cases there
          rw [later]
          cases after with
          | vacant => exact absurd (vacantKind.mp kind.symm) full
          | _ => rfl
    | _ =>
      simp only [Machine.slot,decoded] at there ⊢
      exact there

theorem Outlives.kind (outlives : Outlives m t) {v} (there : m.slot v = .ok (some i)) :
    (t.entry i).kind = (m.entry i).kind := by
  obtain ⟨found,full⟩ := slotFound there
  obtain ⟨after,later,kind⟩ := outlives.2 i _ found full
  rw [← kind,Machine.entry,List.getD_eq_getElem?_getD,later]
  rfl

theorem Outlives.prototype (outlives : Outlives m t) (here : t.entry i = m.entry i) {r}
    (hop : m.prototypeIndex i = .ok r) : t.prototypeIndex i = .ok r := by
  rw [prototypeAt] at hop ⊢
  have same : t.prototypeOf (m.entry i) = m.prototypeOf (m.entry i) := by
    unfold Machine.prototypeOf
    rw [outlives.1]
  rw [here,same]
  cases prototype : m.prototypeOf (m.entry i) with
  | none =>
    rw [prototype] at hop
    exact hop
  | some v =>
    rw [prototype] at hop
    exact outlives.slot hop

/- One slot is written: the machine stays started when that slot now leads nowhere, or to a slot
that does not lead back to it. -/
theorem Machine.Started.written (started : m.Started) (outlives : Outlives m t) (away : ∀ x, x ≠ i → t.entry x = m.entry x)
    (leads : t.prototypeIndex i = .ok none ∨ ∃ v j, m.slot v = .ok (some j) ∧ (m.entry j).kind ≠ .proxy ∧
      t.prototypeIndex i = .ok (some j) ∧ ¬ReflTransGen (Hops m.prototypeIndex) j i) : t.Started := by
  have same : ∀ x, x ≠ i → ∀ r, m.prototypeIndex x = .ok r → t.prototypeIndex x = .ok r :=
    fun x apart r hop => outlives.prototype (away x apart) hop
  have fixed : ∃ n e, Ends t.prototypeIndex i n e := by
    rcases leads with stop | ⟨v,j,_,_,hop,clear⟩
    · exact ⟨0,i,.stop stop⟩
    · obtain ⟨n,e,chain⟩ := started.founded j
      exact ⟨n+1,e,.hop hop (chain.avoids same clear)⟩
  refine ⟨fun x => ?_,fun x y hop => ?_,?_⟩
  · obtain ⟨n,e,chain⟩ := started.founded x
    exact chain.rewired same fixed
  · rcases eq_or_ne x i with rfl | apart
    · unfold Hops at hop
      rcases leads with stop | ⟨v,j,there,kind,stored,_⟩
      · rw [stop] at hop
        cases hop
      · rw [stored] at hop
        cases hop
        rw [outlives.kind there]
        exact kind
    · obtain ⟨n,e,chain⟩ := started.founded x
      obtain ⟨r,before⟩ : ∃ r, m.prototypeIndex x = .ok r := by
        cases chain with
        | stop last => exact ⟨_,last⟩
        | hop here _ => exact ⟨_,here⟩
      unfold Hops at hop
      rw [same x apart r before] at hop
      cases hop
      obtain ⟨v,_,there⟩ := hopValue before
      rw [outlives.kind there]
      exact started.direct x y before
  · obtain ⟨start,there,kind⟩ := started.live
    refine ⟨start,?_,?_⟩
    · rw [outlives.1]
      exact outlives.slot there
    · rw [outlives.kind there]
      exact kind

theorem onlyPrototypes (only : OnlyHeap m t) : t.intrinsics = m.intrinsics := by rw [only]

theorem sameStarted (started : m.Started) (only : OnlyHeap m t) (heap : t.heap = m.heap) : t.Started := by
  have outlives : Outlives m t := ⟨onlyPrototypes only,fun i e found _ => ⟨e,by rw [heap]; exact found,rfl⟩⟩
  have away : ∀ x, t.entry x = m.entry x := fun x => by rw [Machine.entry,Machine.entry,heap]
  exact started.written (i := m.heap.length) outlives (fun x _ => away x)
    (.inl (outlives.prototype (away _) (prototypeOutside (Nat.le_refl _))))

theorem appendedOutlives {entry} (only : OnlyHeap m t) (heap : t.heap = m.heap ++ [entry]) : Outlives m t := by
  refine ⟨onlyPrototypes only,fun i e found _ => ⟨e,?_,rfl⟩⟩
  rw [heap,List.getElem?_append_left (List.getElem?_eq_some_iff.mp found).1]
  exact found

theorem reachInside (path : ReflTransGen (Hops m.prototypeIndex) i j) (inside : i < m.heap.length) : j < m.heap.length := by
  induction path with
  | refl => exact inside
  | tail _ hop _ => exact prototypeInside hop

def Grounded (m : Machine) (entry : HeapEntry) : Prop :=
  ∀ v, m.prototypeOf entry = some v → m.slot v = .ok none ∨ ∃ j, m.slot v = .ok (some j) ∧ (m.entry j).kind ≠ .proxy

theorem Machine.Started.appended (started : m.Started) {entry} (grounded : Grounded m entry) (only : OnlyHeap m t)
    (heap : t.heap = m.heap ++ [entry]) : t.Started := by
  have outlives := appendedOutlives only heap
  have last : t.entry m.heap.length = entry := by
    rw [Machine.entry,heap,List.getD_eq_getElem?_getD]
    simp
  have kept : t.prototypeOf entry = m.prototypeOf entry := by
    unfold Machine.prototypeOf
    rw [outlives.1]
  have leads : t.prototypeIndex m.heap.length = (m.prototypeOf entry).elim (.ok none) t.slot := by
    rw [prototypeAt,last,kept]
  refine started.written (i := m.heap.length) outlives ?_ ?_
  · intro x apart
    rw [Machine.entry,Machine.entry,heap,List.getD_eq_getElem?_getD,List.getD_eq_getElem?_getD,List.getElem?_append]
    split
    · rfl
    · rw [List.getElem?_eq_none (by simp only [List.length_singleton]; omega),List.getElem?_eq_none (by omega)]
  · rw [leads]
    cases prototype : m.prototypeOf entry with
    | none => exact .inl rfl
    | some v =>
      rcases grounded v prototype with free | ⟨j,there,kind⟩
      · exact .inl (outlives.slot free)
      · exact .inr ⟨v,j,there,kind,outlives.slot there,fun path => Nat.lt_irrefl _ (reachInside path (slotInside there))⟩

theorem createStarted (started : m.Started) {entry} (grounded : Grounded m entry) :
    After (allocate entry) m (fun _ t => t.Started) (fun _ t => t.Started) := by
  refine (allocateFrame m entry).mono (fun _ t done => started.appended grounded done.1 done.2.1) ?_
  rintro _ t ⟨only,same | heap⟩
  · exact sameStarted started only same
  · exact started.appended grounded only heap

@[simp] theorem withPrototypeKind (prototype) (e : HeapEntry) : (e.withPrototype prototype).kind = e.kind := by
  cases e with
  | _ => rfl

theorem prototypeStored {e : HeapEntry} (settable : e.kind ∈ settableKinds) (prototype) :
    m.prototypeOf (e.withPrototype prototype) =
      if e.kind = .nativeFunction then prototype.or (some m.intrinsics.functionPrototype) else prototype := by
  cases e with
  | _ =>
    first
    | rfl
    | unfold HeapEntry.kind at settable
      simp [settableKinds] at settable

/- What the cycle guard does not see: a native function whose prototype is set to null goes on to
inherit from the function prototype. -/
def Severs (m : Machine) (object : Value) (prototype : Option Value) : Prop :=
  (prototype.getD .null).decode = some .null ∧ m.isExtensible object = .ok true ∧
  ∃ i start, m.slot object = .ok (some i) ∧ (m.entry i).kind = .nativeFunction ∧
    m.slot m.intrinsics.functionPrototype = .ok (some start) ∧ ReflTransGen (Hops m.prototypeIndex) start i

theorem proxyKind {v} (there : m.slot v = .ok (some j)) : m.isProxyValue v = decide ((m.entry j).kind = .proxy) := by
  unfold Machine.isProxyValue Machine.slotOk
  rw [there]
  simp only [Option.map_some]
  cases m.entry j <;> rfl

theorem notProxy {v} (direct : m.isProxyValue v = false) (there : m.slot v = .ok (some j)) : (m.entry j).kind ≠ .proxy :=
  of_decide_eq_false ((proxyKind there).symm.trans direct)

theorem slotStored {object} (there : m.slot object = .ok (some i)) {stored} (settable : (m.entry i).kind ∈ settableKinds) (started : m.Started)
    (leads : ∀ v, (if (m.entry i).kind = .nativeFunction then stored.or (some m.intrinsics.functionPrototype) else stored) = some v →
      m.slot v = .ok none ∨ ∃ j, m.slot v = .ok (some j) ∧ (m.entry j).kind ≠ .proxy ∧ ¬ReflTransGen (Hops m.prototypeIndex) j i) :
    After (setEntry i ((m.entry i).withPrototype stored)) m (fun _ t => t.Started) (fun _ t => t.Started) := by
  obtain ⟨found,full⟩ := slotFound there
  have inside := slotInside there
  have outlives : Outlives m { m with heap := m.heap.set i ((m.entry i).withPrototype stored) } := by
    refine ⟨rfl,fun k e here _ => ?_⟩
    rcases eq_or_ne i k with rfl | apart
    · rw [found] at here
      cases here
      exact ⟨_,List.getElem?_set_self inside,withPrototypeKind _ _⟩
    · exact ⟨e,by rw [List.getElem?_set_ne apart]; exact here,rfl⟩
  refine started.written (i := i) outlives (fun x apart => ?_) ?_
  · rw [Machine.entry,List.getD_eq_getElem?_getD,List.getElem?_set_ne apart.symm,← List.getD_eq_getElem?_getD,Machine.entry]
  · have here : ({ m with heap := m.heap.set i ((m.entry i).withPrototype stored) } : Machine).entry i = (m.entry i).withPrototype stored := by
      rw [Machine.entry,List.getD_eq_getElem?_getD,List.getElem?_set_self inside]
      rfl
    rw [prototypeAt,here,prototypeStored settable]
    cases value : (if (m.entry i).kind = .nativeFunction then stored.or (some m.intrinsics.functionPrototype) else stored) with
    | none => exact .inl rfl
    | some v =>
      rcases leads v value with free | ⟨j,slot,kind,clear⟩
      · exact .inl (outlives.slot free)
      · exact .inr ⟨v,j,slot,kind,outlives.slot slot,clear⟩

theorem setPrototypeStarted (started : m.Started) {object proposed fuel} (direct : m.isProxyValue proposed = false)
    (ended : m.climb object fuel proposed = .ok .ends) (extensible : m.isExtensible object = .ok true) (spares : ¬Severs m object (some proposed)) :
    After (setPrototype object proposed) m (fun _ t => t.Started) (fun _ t => t.Started) := by
  unfold setPrototype runtimeSlot
  simp only [afterBind,afterRead]
  refine afterLift (fun stored slotted => ?_) fun _ _ => started
  refine afterLift (fun slot there => ?_) fun _ _ => started
  cases slot with
  | none => exact started
  | some i =>
    simp only [afterIte,afterFail]
    refine ⟨fun settable => slotStored there settable started ?_,fun _ => started⟩
    obtain ⟨slot,at_,slotted⟩ := Outcome.bindOk.mp slotted
    have given : ∀ v, stored = some v → m.slot v = .ok none ∨ ∃ j, m.slot v = .ok (some j) ∧ (m.entry j).kind ≠ .proxy ∧
        ¬ReflTransGen (Hops m.prototypeIndex) j i := by
      rintro v rfl
      cases slot with
      | some j =>
        cases slotted
        exact .inr ⟨j,at_,notProxy direct at_,climbClear there at_ ended⟩
      | none =>
        dsimp only at slotted
        split at slotted
        · cases slotted
        · cases slotted
          exact .inl at_
        · cases slotted
    intro v value
    split at value
    · rename_i native
      cases stored with
      | some w => exact given v value
      | none =>
        cases value
        obtain ⟨start,live,kind⟩ := started.live
        have null : proposed.decode = some .null := by
          cases slot with
          | some j => cases slotted
          | none =>
            dsimp only at slotted
            split at slotted
            · assumption
            · cases slotted
            · cases slotted
        exact .inr ⟨start,live,kind,fun path => spares ⟨null,extensible,i,start,there,native,live,path⟩⟩
    · exact given v value

theorem afterInternalSet {fuel object prototype Q E} (error : ∀ fault, E fault m) (answer : ∀ b, Q (some b) m)
    (goesOn : m.climb object fuel (prototype.getD .null) = .ok .goesOn → Q none m)
    (install : m.climb object fuel (prototype.getD .null) = .ok .ends → m.isExtensible object = .ok true →
      After (setPrototype object (prototype.getD .null)) m (fun _ t => Q (some true) t) E) :
    After (internalSetPrototypeOf fuel object prototype) m Q E := by
  unfold internalSetPrototypeOf
  simp only [afterBind,afterRead,afterIte,afterFail,afterPure]
  refine ⟨fun _ => error _,fun _ => ?_⟩
  refine afterLift (fun current _ => ?_) fun _ _ => error _
  refine ⟨fun _ => answer true,fun _ => ?_⟩
  refine afterLift (fun extensible known => ?_) fun _ _ => error _
  refine ⟨fun _ => answer false,fun some_ => ?_⟩
  refine afterLift (fun climb climbed => ?_) fun _ _ => error _
  cases climb with
  | goesOn => exact goesOn climbed
  | meets => exact answer false
  | ends =>
    rw [afterBind]
    exact install climbed (by rw [known,Bool.eq_true_of_not_eq_false some_])

theorem setPrototypeOfStarted (started : m.Started) (fuel) {object prototype}
    (direct : m.isProxyValue (prototype.getD .null) = false) (spares : ¬Severs m object prototype) :
    After (internalSetPrototypeOf fuel object prototype) m (fun _ t => t.Started) (fun _ t => t.Started) :=
  afterInternalSet (fun _ => started) (fun _ => started) (fun _ => started)
    fun climbed extensible => setPrototypeStarted started direct climbed extensible spares

end Step

inductive PrototypeOperation where
  | create (entry : HeapEntry)
  | setPrototypeOf (fuel : Nat) (object : Value) (prototype : Option Value)

namespace PrototypeOperation

def run : PrototypeOperation → Exec Unit
  | create entry => do
    let _ ← allocate entry
    pure ()
  | setPrototypeOf fuel object prototype => do
    let _ ← internalSetPrototypeOf fuel object prototype
    pure ()

def WellFormed : PrototypeOperation → Machine → Prop
  | create entry, m => Grounded m entry
  | setPrototypeOf _ object prototype, m => m.isProxyValue object = false ∧ m.isProxyValue (prototype.getD .null) = false

def Spares : PrototypeOperation → Machine → Prop
  | create entry, m => Grounded m entry
  | setPrototypeOf _ object prototype, m =>
    m.isProxyValue object = false ∧ m.isProxyValue (prototype.getD .null) = false ∧ ¬Severs m object prototype

end PrototypeOperation

theorem startedRun {m t} (started : m.Started) (runs : Runs PrototypeOperation.run PrototypeOperation.Spares m t) : t.Started := by
  refine runs.invariant started fun o u held met => ?_
  cases o with
  | create entry =>
    unfold PrototypeOperation.run
    rw [afterBind]
    exact createStarted held met
  | setPrototypeOf fuel object prototype =>
    unfold PrototypeOperation.run
    rw [afterBind]
    exact setPrototypeOfStarted held fuel met.2.1 met.2.2

-- No walk up the prototypes goes on for ever, and none is what its guard stops.
structure ChainsEnd (m : Machine) : Prop where
  chains : m.Founded
  installs : ∀ object prototype fuel, m.heap.length < fuel →
    After (internalSetPrototypeOf fuel object prototype) m (fun answer _ => answer ≠ none) (fun _ _ => True)
  searches : ∀ this value fuel, m.heap.length < fuel → m.isPrototypeOf this fuel value ≠ .ok none
  direct : ∀ value next, m.internalGetPrototypeOf value = .ok (some next) → m.isProxyValue next = false
  inherits : ∀ target i extra, m.inheritsFrom target (m.heap.length+1+extra) i = m.inheritsFrom target (m.heap.length+1) i
  has : ∀ key i extra, m.hasPropertyFrom key (m.heap.length+2+extra) i = m.hasPropertyFrom key (m.heap.length+2) i
  gets : ∀ key i extra, resolveGetFrom key (m.heap.length+1+extra) i m = resolveGetFrom key (m.heap.length+1) i m
  sets : ∀ key value receiver i extra,
    resolveSetFrom key value receiver (m.heap.length+2+extra) i m = resolveSetFrom key value receiver (m.heap.length+2) i m

theorem installEnds {m} (founded : m.Founded) (object prototype) {fuel} (past : m.heap.length < fuel) :
    After (internalSetPrototypeOf fuel object prototype) m (fun answer _ => answer ≠ none) (fun _ _ => True) := by
  refine afterInternalSet (fun _ => trivial) (fun _ => Option.some_ne_none _) ?_ ?_
  · intro on
    exact absurd on (climbEnds founded object (enoughAlways past))
  · intro _ _
    unfold After
    split
    · exact Option.some_ne_none _
    · trivial

theorem Machine.Started.ends {m} (started : m.Started) : ChainsEnd m where
  chains := started.founded
  installs := fun object prototype _ past => installEnds started.founded object prototype past
  searches := fun this _ _ past => isPrototypeEnds started.founded this (enoughAlways past)
  direct := by
    intro value next got
    cases prototypeAbove got with
    | @hop i j _ _ hop slot =>
      exact (proxyKind slot).trans (decide_eq_false (started.direct i j hop))
  inherits := by
    intro target i extra
    obtain ⟨n,e,chain⟩ := started.founded i
    have := chainShort chain
    exact inheritsSame target chain _ _ (by omega) (by omega)
  has := by
    intro key i extra
    obtain ⟨n,e,chain⟩ := started.founded i
    have := chainShort chain
    exact hasSame key chain _ _ (by omega) (by omega)
  gets := by
    intro key i extra
    obtain ⟨n,e,chain⟩ := started.founded i
    have := chainShort chain
    exact getSame key chain _ _ (by omega) (by omega)
  sets := by
    intro key value receiver i extra
    obtain ⟨n,e,chain⟩ := started.founded i
    have := chainShort chain
    exact setSame key value receiver chain _ _ (by omega) (by omega)

/- While no native function that the function prototype inherits from, or is, loses its own
prototype, every machine a row of creations and `[[SetPrototypeOf]]` calls leads to has chains that
end. -/
theorem prototypesEnd {m t : Machine} (started : m.Started) (runs : Runs PrototypeOperation.run PrototypeOperation.Spares m t) :
    ChainsEnd t := (startedRun started runs).ends

theorem bareStarted : bareMachine.Started := by
  have stops : ∀ i, bareMachine.prototypeIndex i = .ok none := by
    intro i
    cases i with
    | zero => rfl
    | succ i => exact prototypeOutside (Nat.le_add_left 1 i)
  refine ⟨fun i => ⟨0,i,.stop (stops i)⟩,fun i j hop => ?_,⟨0,rfl,by decide⟩⟩
  rw [Hops,stops] at hop
  cases hop

def builtinEntry : HeapEntry := .nativeFunction ⟨.empty,none,true⟩ (.builtin 0)
def literalEntry : HeapEntry := .object ⟨.empty,none,true⟩ none
def madeBuiltin : Value := (valueForHeapIndex 1).getD .undefined
def madeLiteral : Value := (valueForHeapIndex 2).getD .undefined

def afterBuiltin : Machine := left (PrototypeOperation.create builtinEntry).run bareMachine
def afterLiteral : Machine := left (PrototypeOperation.create literalEntry).run afterBuiltin
def redirected : Machine := left (PrototypeOperation.setPrototypeOf 9 madeBuiltin (some madeLiteral)).run afterLiteral

theorem builtinGrounded : Grounded bareMachine builtinEntry := by
  intro v value
  cases value
  exact .inr ⟨0,rfl,by decide⟩

theorem literalGrounded : Grounded afterBuiltin literalEntry := by
  intro v value
  cases value

theorem prototypesEndRedirected : ChainsEnd redirected := by
  have runs : Runs PrototypeOperation.run PrototypeOperation.Spares bareMachine redirected :=
    .step (.step (.step .start (PrototypeOperation.create builtinEntry) builtinGrounded) (PrototypeOperation.create literalEntry) literalGrounded)
      (PrototypeOperation.setPrototypeOf 9 madeBuiltin (some madeLiteral))
      ⟨by decide,by decide,fun severs => absurd severs.1 (by decide)⟩
  exact prototypesEnd bareStarted runs

def underBuiltin : Machine := left (PrototypeOperation.setPrototypeOf 9 prototypeOnly (some madeBuiltin)).run redirected
def severed : Machine := left (PrototypeOperation.setPrototypeOf 9 madeBuiltin none).run underBuiltin

/- The function prototype inherits from a builtin function that has a prototype of its own, and
the builtin function then loses it. -/
theorem severedRound :
    ¬∀ m t, m.Started → Runs PrototypeOperation.run PrototypeOperation.WellFormed m t → ChainsEnd t := by
  intro always
  have before : Runs PrototypeOperation.run PrototypeOperation.WellFormed bareMachine redirected :=
    .step (.step (.step .start (PrototypeOperation.create builtinEntry) builtinGrounded) (PrototypeOperation.create literalEntry) literalGrounded)
      (PrototypeOperation.setPrototypeOf 9 madeBuiltin (some madeLiteral)) ⟨by decide,by decide⟩
  have runs : Runs PrototypeOperation.run PrototypeOperation.WellFormed bareMachine severed :=
    .step (.step before (PrototypeOperation.setPrototypeOf 9 prototypeOnly (some madeBuiltin)) ⟨by decide,by decide⟩)
      (PrototypeOperation.setPrototypeOf 9 madeBuiltin none) ⟨by decide,by decide⟩
  have there : Hops severed.prototypeIndex 0 1 := by
    unfold Hops
    rfl
  have back : Hops severed.prototypeIndex 1 0 := by
    unfold Hops
    rfl
  exact noRound there back ((always bareMachine severed bareStarted runs).chains 0)

end Bamts.Runtime
