import Bamts.RuntimeForIn
import Bamts.RuntimeChange

/-! What an object lists, describes and owns, as functions of the heap, and what a call of the iteration leaves of them. -/
set_option linter.all false
namespace Bamts.Runtime.ForIn
open Effect Bytecode Linkage LayerWalk

def storedKeys (m : Machine) (i : Nat) : List PropertyKey :=
  match m.ownPropertyKeysAt i with
  | .ok keys => keys
  | .error _ => []

def boxedText (m : Machine) (i : Nat) : Option EcmaString :=
  match m.entry i with
  | .object _ (some primitive) => m.stringValue primitive
  | .string text => some text
  | _ => none

-- The string keys that `[[OwnPropertyKeys]]` lists.
def names (m : Machine) (i : Nat) : List EcmaString :=
  ((boxedText m i).elim (storedKeys m i) fun text => mergeStringKeys text (storedKeys m i)).filterMap PropertyKey.asString

-- Whether `[[GetOwnProperty]]` reports a name, and as enumerable.
def described (m : Machine) (i : Nat) (name : EcmaString) : Option Bool :=
  match m.entry i with
  | .moduleNamespace module => match m.namespaceExport module name with
    | .ok (some _) => some true
    | _ => none
  | .typedArray header _ => match (PropertyKey.named name).typedIndex with
    | none => (header.properties.get (.named name)).map Property.enumerable
    | some typedIndex => match typedIndex,m.typedArrayLengthAt i with
      | some offset, some length => if offset < length then some true else none
      | _, _ => none
  | entry => (entry.reported (.named name)).map Property.enumerable

def unitAt (text : EcmaString) (name : EcmaString) : Option UInt16 := (arrayIndex name).bind (text.asUnits[·]?)

-- What else an object answers as its own: the units of a string, the exports of a namespace and what is stored are
-- enumerable, what is only answered is not.
def enumerableOwn (m : Machine) (i : Nat) (name : EcmaString) : Bool :=
  match m.entry i with
  | .object _ (some primitive) => ((m.stringValue primitive).bind fun text => unitAt text name).isSome
  | .string text => (unitAt text name).isSome
  | .moduleNamespace _ | .externalModuleNamespace _ => true
  | entry => (entry.header?.bind fun header => header.properties.get (.named name)).elim false Property.enumerable

/-- Whether an object owns a name, and whether enumerably: the own properties of the language, which the code keeps in three
places. -/
def owns (m : Machine) (i : Nat) (name : EcmaString) : Option Bool :=
  match described m i name with
  | some enumerable => some enumerable
  | none => if (m.ownGet i (.named name)).isSome then some (enumerableOwn m i name) else none

def view (m : Machine) : View Nat EcmaString := ⟨names m,described m⟩

section
variable {m t u : Machine} {index i : Nat} {v object : Value}

theorem stringOf (m : Machine) (value) {slot} (found : m.slot value = .ok slot) :
    m.stringValue value = match slot.map m.entry with
      | some (.string text) => some text
      | _ => none := by
  have whole : m.slotOk value = slot := by rw [Machine.slotOk,found]
  rw [← whole]
  exact Eq.refl (m.stringValue value)

theorem ownKeysNames (there : m.slot v = .ok (some i)) {keys} (listed : m.ownKeys v = .ok keys) :
    keys.filterMap PropertyKey.asString = names m i := by
  obtain ⟨stored,first,listed⟩ := Outcome.bindOk.mp listed
  obtain ⟨primitive,unboxed,listed⟩ := Outcome.bindOk.mp listed
  obtain ⟨slot,found,listed⟩ := Outcome.bindOk.mp listed
  have kept : storedKeys m i = stored := by
    rw [Machine.ownPropertyKeys,there] at first
    rw [storedKeys,show m.ownPropertyKeysAt i = .ok stored from first]
  have text : boxedText m i = m.stringValue primitive := by
    rw [Machine.unboxPrimitiveOrSelf,there] at unboxed
    simp only [bind,Except.bind,Option.map_some] at unboxed
    rw [boxedText]
    split at unboxed
    · rename_i header primitive' boxed
      cases unboxed
      rw [Option.some.inj boxed]
    · rename_i other
      cases unboxed
      rw [stringOf m v there,Option.map_some]
      cases entry : m.entry i with
      | object header boxed =>
        cases boxed with
        | none => rfl
        | some primitive => exact absurd (congrArg some entry) (other header primitive)
      | _ => rfl
  rw [names,kept,text,stringOf m primitive found]
  cases entry : slot.map m.entry with
  | none =>
    rw [entry] at listed
    cases listed
    rfl
  | some e =>
    rw [entry] at listed
    cases e with
    | _ =>
      cases listed
      rfl

/- What a call may do to the heap: move its own iterator on, and add the integers it read from typed arrays. -/
structure Beside (index : Nat) (m t : Machine) : Prop where
  only : OnlyHeap m t
  grown : m.heap.length ≤ t.heap.length
  same : ∀ i, i < m.heap.length → i ≠ index → t.heap[i]? = m.heap[i]?
  iterates : ∃ before after, m.heap[index]? = some (.iterator before) ∧ t.heap[index]? = some (.iterator after)
  added : ∀ i e, m.heap.length ≤ i → t.heap[i]? = some e → ∃ text, e = .bigInt text

theorem Beside.refl {state} (at_ : m.heap[index]? = some (.iterator state)) : Beside index m m :=
  ⟨rfl,Nat.le_refl _,fun _ _ _ => rfl,⟨state,state,at_,at_⟩,fun _ _ past found =>
    absurd (List.getElem?_eq_some_iff.mp found).1 (Nat.not_lt.mpr past)⟩

theorem Beside.trans (first : Beside index m t) (second : Beside index t u) : Beside index m u := by
  obtain ⟨before,_,at_,_⟩ := first.iterates
  obtain ⟨_,after,_,now⟩ := second.iterates
  refine ⟨first.only.trans second.only,Nat.le_trans first.grown second.grown,fun i inside apart => ?_,⟨before,after,at_,now⟩,fun i e past found => ?_⟩
  · rw [second.same i (Nat.lt_of_lt_of_le inside first.grown) apart,first.same i inside apart]
  · by_cases old : i < t.heap.length
    · have apart : i ≠ index := by
        rintro rfl
        exact absurd (List.getElem?_eq_some_iff.mp at_).1 (Nat.not_lt.mpr past)
      rw [second.same i old apart] at found
      exact first.added i e past found
    · exact second.added i e (Nat.not_lt.mp old) found

theorem Beside.add (at_ : ∃ state, m.heap[index]? = some (.iterator state)) {text} (only : OnlyHeap m t)
    (heap : t.heap = m.heap ++ [HeapEntry.bigInt text]) : Beside index m t := by
  obtain ⟨state,at_⟩ := at_
  have old : ∀ i, i < m.heap.length → t.heap[i]? = m.heap[i]? := fun i inside => by rw [heap,List.getElem?_append_left inside]
  have inside := (List.getElem?_eq_some_iff.mp at_).1
  refine ⟨only,?_,fun i inside _ => old i inside,⟨state,state,at_,(old index inside).trans at_⟩,fun i e past found => ⟨text,?_⟩⟩
  · rw [heap,List.length_append]
    exact Nat.le_add_right _ _
  · rw [heap,List.getElem?_append_right past] at found
    exact List.mem_singleton.mp (List.mem_of_getElem? found)

theorem Beside.move (at_ : ∃ state, m.heap[index]? = some (.iterator state)) (state) :
    Beside index m { m with heap := m.heap.set index (.iterator state) } := by
  obtain ⟨before,at_⟩ := at_
  have inside := (List.getElem?_eq_some_iff.mp at_).1
  refine ⟨rfl,Nat.le_of_eq List.length_set.symm,fun i _ apart => List.getElem?_set_ne apart.symm,⟨before,state,at_,?_⟩,fun i e past found => ?_⟩
  · exact List.getElem?_set_self inside
  · have := (List.getElem?_eq_some_iff.mp found).1
    rw [List.length_set] at this
    exact absurd this (Nat.not_lt.mpr past)

def place (v : Value) : Option Nat :=
  match v.decode with
  | some (.heapRef id) => if id.segment ≠ runtimeHeapSegment then none else some (id.slot.toNat-1)
  | _ => none

def held : Option HeapEntry → Option HeapEntry
  | none | some .vacant => none
  | some entry => some entry

def resolved (m : Machine) (v : Value) : Option HeapEntry := (m.slotOk v).map m.entry

theorem slotPlace : m.slot v = .ok (some i) ↔ place v = some i ∧ (held m.heap[i]?).isSome = true := by
  unfold Machine.slot place
  cases v.decode with
  | none => simp
  | some decoded =>
    cases decoded with
    | heapRef id =>
      dsimp only
      by_cases other : id.segment ≠ runtimeHeapSegment
      · simp [other]
      · rw [if_neg other,if_neg other]
        constructor
        · intro there
          split at there
          · cases there
          · cases there
          · rename_i entry full found
            cases there
            refine ⟨rfl,?_⟩
            rw [found]
            cases entry with
            | vacant => exact absurd rfl full
            | _ => rfl
        · rintro ⟨same,full⟩
          cases same
          split
          · rename_i none_
            rw [none_] at full
            cases full
          · rename_i vacant
            rw [vacant] at full
            cases full
          · rfl
    | _ => simp

theorem resolvedIs (m v) : resolved m v = (place v).bind fun i => held m.heap[i]? := by
  unfold resolved Machine.slotOk
  cases slotted : m.slot v with
  | ok slot =>
    cases slot with
    | some i =>
      obtain ⟨at_,_⟩ := slotPlace.mp slotted
      obtain ⟨found,full⟩ := slotFound slotted
      rw [at_,Option.bind_some,found]
      cases entry : m.entry i with
      | vacant => exact absurd entry full
      | _ => simp [held,entry]
    | none =>
      cases at_ : place v with
      | none => rfl
      | some i =>
        cases full : held m.heap[i]? with
        | none => simp [full]
        | some e =>
          have := slotPlace.mpr ⟨at_,by rw [full]; rfl⟩
          rw [slotted] at this
          cases this
  | error fault =>
    cases at_ : place v with
    | none => rfl
    | some i =>
      cases full : held m.heap[i]? with
      | none => simp [full]
      | some e =>
        have := slotPlace.mpr ⟨at_,by rw [full]; rfl⟩
        rw [slotted] at this
        cases this

def Opaque : Option HeapEntry → Prop
  | none | some (.bigInt _) | some (.iterator _) => True
  | _ => False

theorem Beside.entry (beside : Beside index m t) (inside : i < m.heap.length) (apart : i ≠ index) : t.entry i = m.entry i := by
  rw [Machine.entry,Machine.entry,List.getD_eq_getElem?_getD,List.getD_eq_getElem?_getD,beside.same i inside apart]

theorem Beside.slot (beside : Beside index m t) (there : m.slot v = .ok (some i)) : t.slot v = .ok (some i) := by
  obtain ⟨at_,full⟩ := slotPlace.mp there
  refine slotPlace.mpr ⟨at_,?_⟩
  have inside := (List.getElem?_eq_some_iff.mp (slotFound there).1).1
  by_cases own : i = index
  · obtain ⟨_,after,_,now⟩ := beside.iterates
    rw [own,now]
    rfl
  · rw [beside.same i inside own]
    exact full

theorem Beside.resolved (beside : Beside index m t) (v) :
    resolved t v = ForIn.resolved m v ∨ Opaque (ForIn.resolved m v) ∧ Opaque (ForIn.resolved t v) := by
  rw [resolvedIs,resolvedIs]
  cases place v with
  | none => exact .inl rfl
  | some i =>
    simp only [Option.bind_some]
    by_cases own : i = index
    · obtain ⟨before,after,old,now⟩ := beside.iterates
      rw [own,old,now]
      exact .inr ⟨trivial,trivial⟩
    · by_cases inside : i < m.heap.length
      · exact .inl (by rw [beside.same i inside own])
      · rw [List.getElem?_eq_none (Nat.not_lt.mp inside)]
        refine .inr ⟨trivial,?_⟩
        cases found : t.heap[i]? with
        | none => trivial
        | some e =>
          obtain ⟨text,rfl⟩ := beside.added i e (Nat.not_lt.mp inside) found
          trivial

theorem Beside.reads {α : Type} (beside : Beside index m t) (v) (f : Option HeapEntry → α) {a} (blind : ∀ e, Opaque e → f e = a) :
    f (ForIn.resolved t v) = f (ForIn.resolved m v) := by
  rcases beside.resolved v with same | ⟨before,after⟩
  · rw [same]
  · rw [blind _ before,blind _ after]

theorem opaqueCases {α : Type} {f : Option HeapEntry → α} {a} (none_ : f none = a) (bigInt : ∀ text, f (some (.bigInt text)) = a)
    (iterator : ∀ state, f (some (.iterator state)) = a) (e) (hidden : Opaque e) : f e = a := by
  cases e with
  | none => exact none_
  | some e =>
    cases e with
    | bigInt text => exact bigInt text
    | iterator state => exact iterator state
    | _ => exact hidden.elim

def textOf : Option HeapEntry → Option EcmaString
  | some (.string text) => some text
  | _ => none

def proxyOf : Option HeapEntry → Bool
  | some (.proxy _) => true
  | _ => false

def bytesOf (blocks : List SharedBlock) : Option HeapEntry → Option (Option (List UInt8))
  | some (.arrayBuffer _ data) => some data.bytes
  | some (.sharedArrayBuffer _ block) => some (some (blocks[block]?.elim [] (·.bytes)))
  | _ => none

def viewOf : Option HeapEntry → Option ViewFields
  | some (.typedArray _ fields) => some fields
  | _ => none

theorem textIs (m v) : m.stringValue v = textOf (resolved m v) := rfl
theorem proxyIs (m v) : m.isProxyValue v = proxyOf (resolved m v) := rfl

theorem Beside.text (beside : Beside index m t) (v) : t.stringValue v = m.stringValue v := by
  exact beside.reads v textOf (opaqueCases rfl (fun _ => rfl) fun _ => rfl)

theorem Beside.proxy (beside : Beside index m t) (v) : t.isProxyValue v = m.isProxyValue v := by
  exact beside.reads v proxyOf (opaqueCases rfl (fun _ => rfl) fun _ => rfl)

def backing (m : Machine) (v : Value) : Option (Option (List UInt8)) := bytesOf m.sharedBlocks (resolved m v)

def viewLength (bounds : ViewBounds) : Option Nat := if bounds.outOfBounds then none else some bounds.elementLength

def lengthOver (fields : ViewFields) : Option (Option (List UInt8)) → Option Nat
  | some (some bytes) => viewLength (fields.boundsIn bytes.length)
  | _ => none

theorem boundsBacking (m fields) :
    (match m.typedArrayBoundsFor fields with
      | .ok bounds => viewLength bounds
      | .error _ => none) = lengthOver fields (backing m fields.buffer) := by
  unfold Machine.typedArrayBoundsFor ViewBuffer.fromValue backing resolved Machine.slotOk
  cases m.slot fields.buffer with
  | error fault => rfl
  | ok slot =>
    cases slot with
    | none => rfl
    | some i =>
      simp only [bind,Except.bind,Option.map_some]
      cases m.entry i with
      | arrayBuffer header data =>
        simp only [ViewBuffer.bytes?,bytesOf]
        cases data.bytes with
        | none => rfl
        | some bytes => rfl
      | sharedArrayBuffer header block => rfl
      | _ => rfl

theorem Beside.backing (beside : Beside index m t) (v) : ForIn.backing t v = ForIn.backing m v := by
  have shared : t.sharedBlocks = m.sharedBlocks := by rw [beside.only]
  rw [ForIn.backing,ForIn.backing,shared]
  exact beside.reads v (bytesOf m.sharedBlocks) (opaqueCases rfl (fun _ => rfl) fun _ => rfl)

def fieldsAt (m : Machine) (i : Nat) : Option ViewFields := (valueForHeapIndex i).bind fun v => viewOf (resolved m v)

theorem typedLength (m i) :
    m.typedArrayLengthAt i = (fieldsAt m i).bind fun fields => lengthOver fields (backing m fields.buffer) := by
  unfold Machine.typedArrayLengthAt Machine.valueForRuntimeIndex fieldsAt
  cases valueForHeapIndex i with
  | none => rfl
  | some v =>
    simp only [Except.bind,Option.bind_some]
    unfold Machine.typedArrayBounds Machine.viewFields resolved Machine.slotOk
    cases m.slot v with
    | error fault => rfl
    | ok slot =>
      cases slot with
      | none => rfl
      | some j =>
        simp only [bind,Except.bind,Option.map_some]
        cases m.entry j with
        | typedArray header fields => exact boundsBacking m fields
        | _ => rfl

theorem Beside.fields (beside : Beside index m t) (i) : fieldsAt t i = fieldsAt m i := by
  unfold fieldsAt
  cases valueForHeapIndex i with
  | none => rfl
  | some v => exact beside.reads v viewOf (opaqueCases rfl (fun _ => rfl) fun _ => rfl)

theorem Beside.length (beside : Beside index m t) (i) : t.typedArrayLengthAt i = m.typedArrayLengthAt i := by
  rw [typedLength,typedLength,beside.fields]
  simp only [beside.backing]

theorem onlyNamespace (only : OnlyHeap m t) (module) : t.namespaceKeys module = m.namespaceKeys module := by
  rw [only]
  rfl

theorem onlyExport (only : OnlyHeap m t) (module name) : t.namespaceExport module name = m.namespaceExport module name := by
  rw [only]
  rfl

theorem onlyExternal (only : OnlyHeap m t) (specifier) : t.externalModule specifier = m.externalModule specifier := by
  rw [only]
  rfl

theorem Beside.iterator (beside : Beside index m t) : ∃ before after, m.entry index = .iterator before ∧ t.entry index = .iterator after := by
  obtain ⟨before,after,old,now⟩ := beside.iterates
  refine ⟨before,after,?_,?_⟩
  · rw [Machine.entry,List.getD_eq_getElem?_getD,old]
    rfl
  · rw [Machine.entry,List.getD_eq_getElem?_getD,now]
    rfl

theorem Beside.stored (beside : Beside index m t) (inside : i < m.heap.length) : storedKeys t i = storedKeys m i := by
  unfold storedKeys Machine.ownPropertyKeysAt
  by_cases own : i = index
  · obtain ⟨before,after,old,now⟩ := beside.iterator
    rw [own,old,now]
    rfl
  · rw [beside.entry inside own,beside.length i]
    cases m.entry i with
    | moduleNamespace module => simp only [onlyNamespace beside.only]
    | externalModuleNamespace specifier => simp only [onlyExternal beside.only]
    | _ => rfl

theorem Beside.names (beside : Beside index m t) (inside : i < m.heap.length) : ForIn.names t i = ForIn.names m i := by
  have boxed : boxedText t i = boxedText m i := by
    unfold boxedText
    by_cases own : i = index
    · obtain ⟨before,after,old,now⟩ := beside.iterator
      rw [own,old,now]
    · rw [beside.entry inside own]
      cases m.entry i with
      | object header primitive =>
        cases primitive with
        | none => rfl
        | some primitive => exact beside.text primitive
      | _ => rfl
  rw [ForIn.names,ForIn.names,boxed,beside.stored inside]

theorem Beside.described (beside : Beside index m t) (inside : i < m.heap.length) (name) :
    ForIn.described t i name = ForIn.described m i name := by
  unfold ForIn.described
  by_cases own : i = index
  · obtain ⟨before,after,old,now⟩ := beside.iterator
    rw [own,old,now]
    rfl
  · rw [beside.entry inside own,beside.length i]
    cases m.entry i with
    | moduleNamespace module => simp only [onlyExport beside.only]
    | _ => rfl

structure Still (index : Nat) (m t : Machine) : Prop where
  beside : Beside index m t
  same : t.heap[index]? = m.heap[index]?

def ReadFault (v : Value) (fault : Fault) : Prop :=
  (∃ m : Machine, m.ownKeys v = .error fault) ∨ ∃ key m t, internalGetOwnProperty v key m = .error fault t

theorem allocateStill (at_ : ∃ state, m.heap[index]? = some (.iterator state)) (text) :
    After (allocate (.bigInt text)) m (fun _ t => Still index m t) (fun _ _ => True) := by
  refine (allocateFrame m _).mono (fun _ t done => ⟨.add at_ done.1 done.2.1,?_⟩) fun _ _ _ => trivial
  rw [done.2.1,List.getElem?_append_left (at_.elim fun _ found => (List.getElem?_eq_some_iff.mp found).1)]

theorem readElementStill (at_ : ∃ state, m.heap[index]? = some (.iterator state)) (target offset) :
    After (readElement target offset) m (fun _ t => Still index m t) (fun _ _ => True) := by
  have still : Still index m m := ⟨at_.elim fun _ found => .refl found,rfl⟩
  have lifted : ∀ {α : Type} (x : Except Fault α) {Q : α → Machine → Prop}, (∀ a, Q a m) → After (lift x) m Q fun _ _ => True := by
    intro α x Q all
    cases x with
    | ok a => exact all a
    | error fault => trivial
  unfold readElement
  simp only [afterBind,afterRead]
  refine lifted _ fun fields => lifted _ fun bounds => ?_
  simp only [afterIte,afterPure,afterBind]
  refine ⟨fun _ => still,fun _ => lifted _ fun buffer => ?_⟩
  split
  · trivial
  · simp only [afterIte,afterFail]
    refine ⟨fun _ => trivial,fun _ => ?_⟩
    unfold valueFromStorage
    split
    all_goals first | exact allocateStill at_ _ | exact still

theorem ownDescriptorShape (at_ : ∃ state, m.heap[index]? = some (.iterator state)) (there : m.slot v = .ok (some i)) (name) :
    After (ownDescriptor v (.named name)) m (fun d t => d.map Property.enumerable = described m i name ∧ Still index m t) (fun _ _ => True) := by
  have still : Still index m m := ⟨at_.elim fun _ found => .refl found,rfl⟩
  unfold ownDescriptor
  simp only [afterBind,afterRead,afterSlotAt there]
  unfold described
  cases entry : m.entry i with
  | moduleNamespace module =>
    simp only [PropertyKey.asString,afterBind]
    cases value : m.namespaceExport module name with
    | error fault => trivial
    | ok found =>
      cases found with
      | none => exact ⟨rfl,still⟩
      | some value => exact ⟨rfl,still⟩
  | array header elements lengthWritable => exact ⟨rfl,still⟩
  | typedArray header fields =>
    cases typed : (PropertyKey.named name).typedIndex with
    | none => exact ⟨rfl,still⟩
    | some typedIndex =>
      simp only [afterBind]
      cases known : Machine.valueForRuntimeIndex i with
      | error fault => trivial
      | ok target =>
        rw [afterLiftOk]
        have length : m.typedArrayLengthAt i = match m.typedArrayBounds target with
            | .ok bounds => viewLength bounds
            | .error _ => none := by
          rw [Machine.typedArrayLengthAt,known]
          rfl
        rw [length]
        cases m.typedArrayBounds target with
        | error fault => trivial
        | ok bounds =>
          rw [afterLiftOk]
          cases typedIndex with
          | none => exact ⟨rfl,still⟩
          | some offset =>
            dsimp only
            rw [afterIte,afterPure,afterBind]
            unfold viewLength
            refine ⟨fun out => ⟨?_,still⟩,fun inside => ?_⟩
            · rcases out with out | past
              · rw [if_pos out]
                rfl
              · cases bounds.outOfBounds with
                | true => rfl
                | false => simp [Nat.not_lt.mpr past]
            · obtain ⟨fits,less⟩ := not_or.mp inside
              refine (readElementStill at_ target offset).mono (fun _ _ kept => ⟨?_,kept⟩) fun _ _ _ => trivial
              rw [if_neg fits]
              simp only [Nat.not_le.mp less,if_true]
              rfl
  | _ =>
    rw [afterIte]
    exact ⟨fun kept => ⟨by simp only [HeapEntry.reported,if_pos kept],still⟩,fun other => ⟨by simp only [HeapEntry.reported,if_neg other],still⟩⟩

theorem descriptorEnumerable (property) : (PropertyDescriptor.fromProperty property).enumerable = some property.enumerable := by
  cases property with
  | data => rfl
  | accessor => rfl

theorem getOwnPropertyShape (at_ : ∃ state, m.heap[index]? = some (.iterator state)) (there : m.slot v = .ok (some i))
    (direct : m.isProxyValue v = false) (name) :
    After (internalGetOwnProperty v (.named name)) m
      (fun d t => d.map PropertyDescriptor.enumerable = (described m i name).map some ∧ Still index m t)
      (fun fault _ => ReadFault v fault) := by
  have shape : After (internalGetOwnProperty v (.named name)) m
      (fun d t => d.map PropertyDescriptor.enumerable = (described m i name).map some ∧ Still index m t) (fun _ _ => True) := by
    unfold internalGetOwnProperty
    simp only [afterBind,afterRead,direct,Bool.and_false,Bool.false_eq_true,if_false]
    refine (ownDescriptorShape at_ there name).mono (fun d t done => ⟨?_,done.2⟩) fun _ _ _ => trivial
    rw [← done.1]
    cases d with
    | none => rfl
    | some property => exact congrArg some (descriptorEnumerable property)
  unfold After at shape ⊢
  cases result : internalGetOwnProperty v (.named name) m with
  | ok d t =>
    rw [result] at shape
    exact shape
  | error fault t => exact .inr ⟨_,m,t,result⟩

end

end Bamts.Runtime.ForIn
