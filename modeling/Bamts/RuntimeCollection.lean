import Bamts.RuntimeCollect
import Bamts.RuntimeDefine

/-! Map, Set and their weak kinds: the operations on the entries of a collection and the
iterators over them. -/
set_option linter.all false
namespace Bamts.Runtime
open Effect

def CollectionIndex.get (index : CollectionIndex) (m : Machine) (entries : List CollectionEntry) (key : Value) : Option Nat :=
  (index.bucket (collectionKeyHash m key)).find? fun position =>
    entries[position]?.any fun entry => entry.live && m.sameValueZero entry.key key

def CollectionIndex.prune (index : CollectionIndex) (hash : UInt64) (position : Nat) : CollectionIndex :=
  let kept := (index.bucket hash).filter (· != position)
  let others := index.buckets.filter fun bucket => bucket.1 != hash
  ⟨if kept.isEmpty then others else (hash,kept) :: others⟩

def incompatibleCollection : Fault := typeError "collection method called on incompatible receiver"

structure CollectionData where
  header : Header
  kind : CollectionKind
  entries : List CollectionEntry
  index : CollectionIndex
  size : Nat
  nextOrder : Nat

def CollectionData.entry (data : CollectionData) : HeapEntry :=
  .collection data.header data.kind data.entries data.index data.size data.nextOrder

def HeapEntry.collection? : HeapEntry → Option CollectionData
  | .collection header kind entries index size nextOrder => some ⟨header,kind,entries,index,size,nextOrder⟩
  | _ => none

def collectionSlot (object : Value) (expected : CollectionKind) : Exec (Nat × CollectionData) := do
  let m ← read
  match (← runtimeSlot object).bind fun slot => (m.entry slot).collection?.map (slot,·) with
  | some (slot,data) => if data.kind = expected then pure (slot,data) else fail incompatibleCollection
  | none => fail incompatibleCollection

def entryCharge : Nat := CollectionEntry.bytes+CollectionIndex.entryBytes

def compactCollection (m : Machine) (data : CollectionData) : CollectionData :=
  let retained := data.entries.filter (·.live)
  { data with entries := retained,index := rebuildIndex m retained }

def CollectionData.appended (data : CollectionData) (hash : UInt64) (key value : Value) : CollectionData :=
  { data with
    entries := data.entries ++ [⟨data.nextOrder,key,value,true⟩]
    index := data.index.insert hash data.entries.length
    size := data.size+1
    nextOrder := data.nextOrder+1 }

def appendCollectionEntry (slot : Nat) (data : CollectionData) (key value : Value) : Exec Unit := do
  let m ← read
  let after := data.appended (collectionKeyHash m key) key value
  chargeSlot slot entryCharge
  setEntry slot after.entry
  given (decide (after.size*2 < after.entries.length)) do
    let m ← read
    setEntry slot (compactCollection m after).entry

def mapPut (object key value : Value) (expected : CollectionKind) : Exec Unit := do
  let (slot,data) ← collectionSlot object expected
  let m ← read
  match data.index.get m data.entries key with
  | some position =>
    setEntry slot { data with entries := data.entries.modify position fun entry => { entry with value := value } }.entry
  | none => appendCollectionEntry slot data key value

def setPut (object value : Value) (expected : CollectionKind) : Exec Unit := do
  let (slot,data) ← collectionSlot object expected
  let m ← read
  match data.index.get m data.entries value with
  | some _ => pure ()
  | none => appendCollectionEntry slot data value value

def mapGetFor (object key : Value) (expected : CollectionKind) : Exec Value := do
  let (_,data) ← collectionSlot object expected
  let m ← read
  pure (((data.index.get m data.entries key).bind (data.entries[·]?)).elim .undefined (·.value))

def mapHasFor (object key : Value) (expected : CollectionKind) : Exec Bool := do
  let (_,data) ← collectionSlot object expected
  let m ← read
  pure (data.index.get m data.entries key).isSome

def collectionSize (object : Value) (expected : CollectionKind) : Exec Value := do
  let (_,data) ← collectionSlot object expected
  pure (numberValue (.ofNat data.size))

def CollectionData.buried (data : CollectionData) (position : Nat) (hash : UInt64) : CollectionData :=
  { data with
    entries := data.entries.modify position fun entry => { entry with live := false }
    index := data.index.prune hash position
    size := data.size-1 }

def mapDeleteFor (object key : Value) (expected : CollectionKind) : Exec Bool := do
  let (slot,data) ← collectionSlot object expected
  let m ← read
  match data.index.get m data.entries key with
  | none => pure false
  | some position => match data.entries[position]? with
    | none => fail (.panicked .unexpected)
    | some entry =>
      if data.size = 0 then fail (.panicked .unexpected)
      else do
        setEntry slot (data.buried position (collectionKeyHash m entry.key)).entry
        refundSlot slot entryCharge
        pure true

def CollectionData.cleared (data : CollectionData) : CollectionData := { data with entries := [],index := .empty,size := 0 }

def collectionClear (object : Value) (expected : CollectionKind) : Exec Unit := do
  let (slot,data) ← collectionSlot object expected
  setEntry slot data.cleared.entry
  refundSlot slot (data.size*entryCharge)

-- `partition_point` on entries that are sorted by order, then the first live one.
def collectionItem (entries : List CollectionEntry) (cursor : Nat) : Option CollectionEntry :=
  (entries.dropWhile fun entry => entry.order < cursor).find? (·.live)

def collectionNext (object : Value) (expected : CollectionKind) (cursor : Nat) : Exec (Option (Nat × Value × Value)) := do
  let (_,data) ← collectionSlot object expected
  pure ((collectionItem data.entries cursor).map fun entry => (entry.order+1,entry.key,entry.value))

def builtinIterator (m : Machine) (source : Value) (kind : IterationKind) : HeapEntry :=
  .builtinIterator ⟨.empty,m.intrinsics.builtins.slot .iteratorPrototype,true⟩ source kind (some 0)

def collectionIterator (object : Value) (expected : CollectionKind) (kind : IterationKind) : Exec Value := do
  let _ ← collectionSlot object expected
  let m ← read
  allocate (builtinIterator m object kind)

def setDataProperty (object : Value) (name : String) (value : Value) : Exec Unit := do
  if ← internalSet object (.named (ascii name)) value object then pure ()
  else fail (typeError "assign to read only property")

def incompatibleIterator : Fault := typeError "iterator next called on incompatible receiver"

-- What an iterator finds at its position in its source: the next position, the key and the value.
def sourceItem (source : Value) (cursor : Nat) : Exec (Option (Nat × Value × Value)) := do
  let m ← read
  match (← runtimeSlot source).map m.entry with
  | none => fail incompatibleIterator
  | some (.typedArray ..) => do
    let bounds ← lift (m.typedArrayBounds source)
    if bounds.outOfBounds = false ∧ cursor < bounds.elementLength then do
      let value ← readElement source cursor
      pure (some (cursor+1,numberValue (.ofNat cursor),value))
    else pure none
  | some (.array _ elements _) =>
    pure ((iteratorItem elements cursor).map fun value => (cursor+1,numberValue (.ofNat cursor),value))
  | some (.collection _ _ entries _ _ _) =>
    pure ((collectionItem entries cursor).map fun entry => (entry.order+1,entry.key,entry.value))
  | some _ => fail incompatibleIterator

def iterationValue (kind : IterationKind) (key value : Value) : Exec Value :=
  match kind with
  | .key => pure key
  | .value => pure value
  | .entry => do
    let m ← read
    allocate (plainArray m [key,value])

def setPosition (index : Nat) (position : Option Nat) : Exec Unit := update fun m =>
  { m with heap := m.heap.modify index fun
      | .builtinIterator header source kind _ => .builtinIterator header source kind position
      | entry => entry }

def iteratorAdvance (this : Value) : Exec (Nat × Bool × Value × Option Nat) := do
  let m ← read
  match (← runtimeSlot this).map fun index => (index,m.entry index) with
  | some (index,.builtinIterator _ source kind position) => match position with
    | none => pure (index,true,.undefined,none)
    | some cursor => do
      match ← sourceItem source cursor with
      | none => pure (index,true,.undefined,none)
      | some (next,key,value) => do
        let value ← iterationValue kind key value
        pure (index,false,value,some next)
  | _ => fail incompatibleIterator

def iteratorNext (this : Value) : Exec Value := do
  let (index,done,value,position) ← iteratorAdvance this
  setPosition index position
  let result ← allocate (.object ⟨.empty,none,true⟩ none)
  setDataProperty result "value" value
  setDataProperty result "done" (.boolean done)
  pure result

theorem collectionEntry {e : HeapEntry} {data} (same : e.collection? = some data) : e = data.entry := by
  cases e with
  | collection header kind entries index size nextOrder =>
    cases same
    rfl
  | _ => cases same

inductive Recollects (m : Machine) (object : Value) (expected : CollectionKind) (f : CollectionData → CollectionData → Prop) :
    Nat → HeapEntry → HeapEntry → Prop where
  | data {slot before after} (there : m.slot object = .ok (some slot)) (kind : before.kind = expected)
      (change : f before after) : Recollects m object expected f slot before.entry after.entry

section
variable {sound : Prop} {m : Machine} {object key v : Value} {expected : CollectionKind}

theorem afterCollection {α} {p : Nat × CollectionData → Exec α} {Q E} (refuse : ∀ fault, fault.isLedger = false → E fault m)
    (next : ∀ slot data, m.slot object = .ok (some slot) → m.heap[slot]? = some (CollectionData.entry data) → data.kind = expected →
      After (p (slot,data)) m Q E) :
    After (do let found ← collectionSlot object expected; p found) m Q E := by
  unfold collectionSlot
  simp only [runtimeSlot,afterBind,afterRead]
  cases there : m.slot object with
  | error fault => exact refuse fault (quietSlot m object fault there)
  | ok slot =>
    rw [afterLiftOk]
    split
    · rename_i slot data found
      obtain ⟨_,rfl,found⟩ := Option.bind_eq_some_iff.mp found
      obtain ⟨_,found,same⟩ := Option.map_eq_some_iff.mp found
      cases same
      simp only [afterIte,afterFail,afterPure]
      refine ⟨fun kind => next slot data there ?_ kind,fun _ => refuse _ rfl⟩
      rw [(slotFound there).1,collectionEntry found]
    · exact refuse _ rfl

theorem storedData (data : CollectionData) :
    stored data.entry = data.size*entryCharge + data.header.properties.charged (counted .collection) := rfl

theorem modifyLive {entries : List CollectionEntry} {position f} (same : ∀ entry, (f entry).live = entry.live) :
    (entries.modify position f).countP (·.live) = entries.countP (·.live) := by
  induction entries generalizing position with
  | nil => simp
  | cons entry rest ih =>
    cases position with
    | zero => simp [List.countP_cons,same]
    | succ position => simp [List.countP_cons,ih]

theorem buryLive {entries : List CollectionEntry} {position entry} (found : entries[position]? = some entry) (live : entry.live = true) :
    (entries.modify position fun entry => { entry with live := false }).countP (·.live) + 1 = entries.countP (·.live) := by
  induction entries generalizing position with
  | nil => cases found
  | cons first rest ih =>
    cases position with
    | zero =>
      cases found
      simp [live]
    | succ position =>
      have := ih found
      simp only [List.modify_succ_cons,List.countP_cons]
      omega

theorem compactLive (entries : List CollectionEntry) : (entries.filter (·.live)).countP (·.live) = entries.countP (·.live) := by
  rw [List.countP_filter]
  simp

theorem getFound {index : CollectionIndex} {entries position} (found : index.get m entries key = some position) :
    ∃ entry, entries[position]? = some entry ∧ entry.live = true ∧ m.sameValueZero entry.key key = true := by
  have holds := List.find?_some found
  cases at_ : entries[position]? with
  | none =>
    rw [at_] at holds
    cases holds
  | some entry =>
    rw [at_,Option.any_some,Bool.and_eq_true] at holds
    exact ⟨entry,rfl,holds.1,holds.2⟩

def Appends (m : Machine) (slot : Nat) (key v : Value) (before after : CollectionData) : Prop :=
  let next := before.appended (collectionKeyHash m key) key v
  (next.entries.length ≤ next.size*2 ∧ after = next) ∨
  (next.size*2 < next.entries.length ∧ ∃ t : Machine, t.platform = m.platform ∧ t.heap = m.heap.set slot next.entry ∧
    after = compactCollection t next)

theorem appendSpec {C slot data} (known : sound → Accounted stored m) (found : m.heap[slot]? = some data.entry)
    (change : ∀ after, Appends m slot key v data after → C slot data.entry after.entry) :
    After (appendCollectionEntry slot data key v) m (fun _ t => Kept sound C m t) (Refused sound C m) := by
  refine afterCharge known found _ fun t held => ?_
  refine afterSet held 0 (fun _ => ?_) (fun sized => ?_) fun u held => ?_
  · rw [storedData,storedData]
    simp only [CollectionData.appended,entryCharge,CollectionEntry.bytes,CollectionIndex.entryBytes]
    omega
  · have : data.size = data.entries.countP (·.live) := sized
    show data.size+1 = _
    rw [this]
    simp [CollectionData.appended]
  · rw [afterGiven]
    refine ⟨fun long => ?_,fun short => held.kept found (.inr (change _ (.inl ⟨by simpa using short,rfl⟩)))⟩
    have platform : u.platform = m.platform := by rw [held.only]
    refine (held.rewrite (compactCollection u _).entry 0 (fun _ => Nat.le_refl _) fun sized => ?_).kept found
      (.inr (change _ (.inr ⟨of_decide_eq_true long,u,platform,held.heap,rfl⟩)))
    exact Eq.trans sized (compactLive _).symm

def Puts (m : Machine) (slot : Nat) (key v : Value) (before after : CollectionData) : Prop :=
  (∃ position, before.index.get m before.entries key = some position ∧
    after = { before with entries := before.entries.modify position fun entry => { entry with value := v } }) ∨
  (before.index.get m before.entries key = none ∧ Appends m slot key v before after)

def Adds (m : Machine) (slot : Nat) (key : Value) (before after : CollectionData) : Prop :=
  before.index.get m before.entries key = none ∧ Appends m slot key key before after

def Buries (m : Machine) (key : Value) (before after : CollectionData) : Prop :=
  ∃ position entry, before.index.get m before.entries key = some position ∧ before.entries[position]? = some entry ∧
    after = before.buried position (collectionKeyHash m entry.key)

theorem mapPutSpec (known : sound → Accounted stored m) :
    After (mapPut object key v expected) m (fun _ t => Kept sound (fun slot => Recollects m object expected (Puts m slot key v) slot) m t)
      (Refused sound (fun slot => Recollects m object expected (Puts m slot key v) slot) m) := by
  refine afterCollection (fun _ quiet => .plain (.refl known) quiet) fun slot data there found kind => ?_
  simp only [afterBind (p := Effect.read),afterRead]
  split
  · rename_i position at_
    let put : CollectionData := { data with entries := data.entries.modify position fun entry => { entry with value := v } }
    refine ((Holding.start known found).rewrite put.entry 0 (fun _ => Nat.le_refl _) fun sized => ?_).kept found
      (.inr (Recollects.data there kind (.inl ⟨position,at_,rfl⟩)))
    have : data.size = data.entries.countP (·.live) := sized
    show data.size = put.entries.countP (·.live)
    rw [this]
    exact (@modifyLive data.entries position (fun entry => { entry with value := v }) fun _ => rfl).symm
  · rename_i none_
    exact appendSpec known found fun after how => Recollects.data there kind (.inr ⟨none_,how⟩)

theorem setPutSpec (known : sound → Accounted stored m) :
    After (setPut object key expected) m (fun _ t => Kept sound (fun slot => Recollects m object expected (Adds m slot key) slot) m t)
      (Refused sound (fun slot => Recollects m object expected (Adds m slot key) slot) m) := by
  refine afterCollection (fun _ quiet => .plain (.refl known) quiet) fun slot data there found kind => ?_
  simp only [afterBind (p := Effect.read),afterRead]
  split
  · exact .refl known
  · rename_i none_
    exact appendSpec known found fun after how => Recollects.data there kind ⟨none_,how⟩

theorem mapDeleteSpec (known : sound → Accounted stored m) :
    After (mapDeleteFor object key expected) m (fun _ t => Kept sound (Recollects m object expected (Buries m key)) m t)
      (Refused sound (Recollects m object expected (Buries m key)) m) := by
  refine afterCollection (fun _ quiet => .plain (.refl known) quiet) fun slot data there found kind => ?_
  simp only [afterBind (p := Effect.read),afterRead]
  split
  · exact .refl known
  · rename_i position at_
    obtain ⟨entry,here,live,_⟩ := getFound at_
    simp only [here,afterIte,afterFail]
    refine ⟨fun _ => .plain (.refl known) rfl,fun some_ => ?_⟩
    refine afterSet (Holding.start known found) entryCharge (fun _ => ?_) (fun sized => ?_) fun u held => ?_
    · rw [storedData,storedData]
      simp only [CollectionData.buried,entryCharge,CollectionEntry.bytes,CollectionIndex.entryBytes]
      omega
    · have : data.size = data.entries.countP (·.live) := sized
      have one := buryLive here live
      show data.size-1 = _
      simp only [CollectionData.buried]
      omega
    · exact afterRefund held found (.inr (.data there kind ⟨position,entry,at_,here,rfl⟩)) (fun _ => Nat.le_refl _)
        fun w kept => kept

theorem clearSpec (known : sound → Accounted stored m) :
    After (collectionClear object expected) m
      (fun _ t => Kept sound (Recollects m object expected fun before after => after = before.cleared) m t)
      (Refused sound (Recollects m object expected fun before after => after = before.cleared) m) := by
  refine afterCollection (fun _ quiet => .plain (.refl known) quiet) fun slot data there found kind => ?_
  refine afterSet (Holding.start known found) (data.size*entryCharge) (fun _ => ?_) (fun _ => rfl) fun u held => ?_
  · rw [storedData,storedData]
    simp only [CollectionData.cleared]
    omega
  · exact refundLast held found (.inr (.data there kind rfl)) fun _ => Nat.le_refl _

end

end Bamts.Runtime
