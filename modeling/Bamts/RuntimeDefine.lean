import Bamts.RuntimeStore

/-! The same for the operations that define properties, replace the elements of an array or seal an object. -/
set_option linter.all false
namespace Bamts.Runtime
open Effect

-- What the definition of `key` as `d` can turn a slot into.
inductive Defines (m : Machine) (object : Value) (key : PropertyKey) (d : Property) : Nat → HeapEntry → HeapEntry → Prop where
  | buffer {j e after} (write : BufferChange e after) : Defines m object key d j e after
  | length {i header elements lengthWritable v writable n} (there : m.slot object = .ok (some i))
      (named : key.eqAscii "length" = true) (shape : d = .data v writable false false)
      (exact : exactArrayLength v = some n) (keep : writable = true → lengthWritable = true) :
      Defines m object key d i (.array header elements lengthWritable)
        (header.arrayOf (defineArrayLength ⟨elements,header.properties⟩ lengthWritable n).1 (lengthWritable && writable))
  | element {i header elements lengthWritable offset} (there : m.slot object = .ok (some i))
      (at_ : key.index = some offset)
      (present : header.extensible = false → header.properties.containsKey key = true ∨ elements[offset]?.getD .hole ≠ .hole)
      (room : elements.length ≤ offset → lengthWritable = true)
      (valid : m.validateRedefinition (arrayDescriptor header elements lengthWritable key) d = .ok ()) :
      Defines m object key d i (.array header elements lengthWritable)
        (header.arrayOf ⟨(extended elements offset).set offset .hole,header.properties.insert key d⟩ lengthWritable)
  | property {i e header} (there : m.slot object = .ok (some i)) (some_ : e.header? = some header)
      (kinds : e.kind ∈ definableKinds ∨ e.kind = .array ∧ key.eqAscii "length" = false ∧ key.index = none)
      (present : header.extensible = false → header.properties.containsKey key = true)
      (valid : m.validateRedefinition (e.reported key) d = .ok ()) :
      Defines m object key d i e (e.withProperties (header.properties.insert key d))

section
variable {sound : Prop} {m : Machine} {index : Nat} {object : Value} {key : PropertyKey} {d : Property}

theorem Untouched.elim {C : Nat → HeapEntry → HeapEntry → Prop} (i e after) (no : Untouched i e after) :
    C i e after := False.elim no

theorem afterDescriptor {α} {p : Option Property → Exec α} {Q C i} (known : sound → Accounted stored m)
    (there : m.slot object = .ok (some i)) (kind : (m.entry i).kind ≠ .moduleNamespace) (plain : ¬Elemental (m.entry i) key)
    (next : After (p ((m.entry i).reported key)) m Q (Refused sound C m)) :
    After (do let d ← ownDescriptor object key; p d) m Q (Refused sound C m) := by
  rw [afterBind]
  refine (ownDescriptorSpec m object key).mono ?_ (fun _ _ failed => failed.mono known Untouched.elim)
  intro found t done
  obtain ⟨rfl,rfl⟩ := done.2.2.2 i there kind plain
  exact next

theorem describedFair {e : HeapEntry} {header} (some_ : e.header? = some header)
    (valid : m.validateRedefinition (e.reported key) d = .ok ()) (p) (found : header.properties.get key = some p) :
    e.kind ∉ bornUncharged ∨ Redefines m p d := by
  by_cases born : e.kind ∈ bornUncharged
  · refine .inr (redefinition ?_)
    have described : e.kind ∈ HeapEntry.describedKinds := by
      revert born
      cases e.kind with
      | _ => decide
    have report : e.reported key = some p := by
      cases e with
      | array => exact absurd (show Kind.array ∈ bornUncharged from born) (by decide)
      | _ => simp only [HeapEntry.reported,if_pos described,some_,Option.bind_some,found]
    rw [← report]
    exact valid
  · exact .inl born

theorem defineOnObjectSpec {e header} (known : sound → Accounted stored m)
    (there : m.slot object = .ok (some index)) (here : m.entry index = e) (some_ : e.header? = some header)
    (kinds : e.kind ∈ definableKinds) (plain : ¬Elemental e key) :
    After (defineOnObject object index e header key d) m (fun _ t => Kept sound (Defines m object key d) m t)
      (Refused sound (Defines m object key d) m) := by
  obtain ⟨found,_⟩ := slotFound there
  rw [here] at found
  unfold defineOnObject
  simp only [afterIte,afterFail]
  refine ⟨fun _ => .plain (.refl known) rfl,fun present => ?_⟩
  have present : header.extensible = false → header.properties.containsKey key = true := by simpa using present
  refine afterDescriptor known there (by rw [here]; rintro no; rw [no] at kinds; revert kinds; decide) (by rw [here]; exact plain) ?_
  rw [here]
  simp only [afterBind (p := Effect.read),afterRead,afterBind (p := lift _)]
  refine afterQuiet (quietRedefinition m _ d) known fun _ valid => ?_
  refine afterCharge known found _ fun t held => ?_
  refine afterSet held _ (fun _ => storedInsert some_ key d (definitionFair (describedFair some_ valid)))
    (fun sized => HeapEntry.withPropertiesSized _ sized) fun u held => ?_
  exact refundLast held found (.inr (.property there some_ (.inl kinds) present valid)) fun _ => Nat.le_refl _

theorem defineIndexSpec {header elements lengthWritable offset growth refund n t} (held : Holding stored sound m t index (.array header elements lengthWritable) n)
    (found : m.heap[index]? = some (.array header elements lengthWritable)) (there : m.slot object = .ok (some index)) (at_ : key.index = some offset)
    (present : header.extensible = false → header.properties.containsKey key = true ∨ elements[offset]?.getD .hole ≠ .hole)
    (room : elements.length ≤ offset → lengthWritable = true)
    (valid : m.validateRedefinition (arrayDescriptor header elements lengthWritable key) d = .ok ())
    (charges : definitionCharges header.properties key d = (growth,refund)) (paid : n = growth + (offset+1-elements.length)*valueBytes) :
    After (defineIndex index header elements lengthWritable offset key d refund) t
      (fun _ t => Kept sound (Defines m object key d) m t) (Refused sound (Defines m object key d) m) := by
  unfold defineIndex
  simp only [reachIndex at_ room]
  refine afterSet held refund (fun _ => ?_) (fun _ => trivial) fun u held =>
    refundLast held found (.inr (.element there at_ present room valid)) fun _ => Nat.le_refl _
  have fair := @definitionFair m key header.properties .array d fun _ _ => .inl (by decide)
  have charge := @PropertyMap.chargedInsert (counted .array) header.properties key d
  rw [PropertyMap.chargedAll _ arrayCounted,PropertyMap.chargedAll _ arrayCounted] at charge
  rw [charges] at fair
  rw [storedArrayOf,storedArray,List.length_set,extendedLength,paid]
  simp only [valueBytes] at *
  omega

theorem defineOnArraySpec {header elements lengthWritable} (known : sound → Accounted stored m)
    (there : m.slot object = .ok (some index)) (here : m.entry index = .array header elements lengthWritable) (named : key.eqAscii "length" = false) :
    After (defineOnArray object index header elements lengthWritable key d) m
      (fun _ t => Kept sound (Defines m object key d) m t) (Refused sound (Defines m object key d) m) := by
  obtain ⟨found,_⟩ := slotFound there
  rw [here] at found
  unfold defineOnArray
  simp only [afterIte,afterFail]
  refine ⟨fun _ => .plain (.refl known) rfl,fun present => ⟨fun _ => .plain (.refl known) rfl,fun room => ?_⟩⟩
  refine afterDescriptor known there (by rw [here]; rintro ⟨⟩) (by rw [here]; rintro ⟨⟨⟩,_⟩) ?_
  rw [here]
  simp only [afterBind (p := Effect.read),afterRead,afterBind (p := lift _)]
  refine afterQuiet (quietRedefinition m _ d) known fun _ valid => ?_
  cases at_ : key.index with
  | some offset =>
    have present : header.extensible = false → header.properties.containsKey key = true ∨ elements[offset]?.getD .hole ≠ .hole := by
      intro sealed
      refine or_iff_not_imp_left.mpr fun missing => ?_
      simpa [sealed,at_,missing] using present
    have room : elements.length ≤ offset → lengthWritable = true := by
      intro past
      exact Bool.eq_true_of_not_eq_false fun no => room ⟨by simp [at_,past],no⟩
    refine afterCharge known found _ fun t held => ?_
    exact defineIndexSpec held found there at_ present room valid rfl rfl
  | none =>
    have present : header.extensible = false → header.properties.containsKey key = true := by
      intro sealed
      simpa [sealed,at_] using present
    refine afterCharge known found _ fun t held => ?_
    have some_ : (HeapEntry.array header elements lengthWritable).header? = some header := rfl
    refine afterSet held (definitionCharges header.properties key d).2
      (fun _ => storedInsert some_ key d (definitionFair (describedFair some_ valid))) (fun _ => trivial) fun u held => ?_
    exact refundLast held found (.inr (.property there some_ (.inr ⟨rfl,named,at_⟩) present valid)) fun _ => Nat.le_refl _

theorem defineLengthCharge {parts lengthWritable n} (steady : ¬Regrows parts n) :
    (defineArrayLength parts lengthWritable n).1.elements.length*valueBytes +
      (defineArrayLength parts lengthWritable n).1.properties.chargeBytes +
      (releasedBytes parts (defineArrayLength parts lengthWritable n).1 + match (defineArrayLength parts lengthWritable n).2 with
        | .ok () => 0
        | .error _ => (n-parts.elements.length)*valueBytes) ≤
    parts.elements.length*valueBytes + parts.properties.chargeBytes + (n-parts.elements.length)*valueBytes := by
  unfold defineArrayLength
  split
  · simp only [releasedBytes,valueBytes]
    omega
  · have charge := applyLengthCharge steady "define array length"
    have short : ∀ fault, (applyArrayLength parts n "define array length").2 = .error fault → n-parts.elements.length = 0 := by
      intro fault failed
      unfold applyArrayLength at failed
      split at failed
      · cases failed
      · omega
    cases result : (applyArrayLength parts n "define array length").2 with
    | ok _ =>
      omega
    | error fault =>
      have := short fault result
      simp only [this] at charge ⊢
      omega

theorem defineLengthSpec {header elements lengthWritable} (known : sound → Accounted stored m)
    (there : m.slot object = .ok (some index)) (here : m.entry index = .array header elements lengthWritable) (named : key.eqAscii "length" = true)
    (steady : sound → ∀ v writable n, d = .data v writable false false → exactArrayLength v = some n → LengthSteady m index n) :
    After (defineLength index header elements lengthWritable d) m (fun _ t => Kept sound (Defines m object key d) m t)
      (Refused sound (Defines m object key d) m) := by
  obtain ⟨found,_⟩ := slotFound there
  rw [here] at found
  unfold defineLength
  split
  · rename_i v writable
    cases exact : exactArrayLength v with
    | none => exact .plain (.refl known) rfl
    | some n =>
      simp only [afterIte,afterFail]
      refine ⟨fun _ => .plain (.refl known) rfl,fun keep => ?_⟩
      have keep : writable = true → lengthWritable = true := by simpa using keep
      refine afterCharge known found _ fun t held => afterSet held _ ?_ (fun _ => trivial) fun u held =>
        afterRefund held found (.inr (.length there named rfl exact keep)) (fun _ => Nat.le_refl _) fun w kept => ?_
      · intro good
        rw [storedArrayOf,storedArray]
        exact defineLengthCharge (steady good v writable n rfl exact _ _ _ here)
      · cases result : (defineArrayLength ⟨elements,header.properties⟩ lengthWritable n).2 with
        | ok _ => exact kept
        | error fault =>
          refine .plain kept ?_
          unfold defineArrayLength at result
          split at result
          · cases result
            rfl
          · exact applyLengthQuiet fault result
  · exact .plain (.refl known) rfl

theorem defineTypedSpec (m i offset d) :
    After (defineTypedElement i offset d) m (fun _ t => Kept (Accounted stored m) (fun _ => BufferChange) m t)
      (fun fault t => t = m ∧ fault.isLedger = false) := by
  unfold defineTypedElement
  simp only [afterBind (p := Effect.read),afterRead,afterBind (p := lift _)]
  cases view : Machine.valueForRuntimeIndex i with
  | error fault => exact ⟨rfl,quietIndex i fault view⟩
  | ok value =>
    rw [afterLiftOk]
    cases bounds : m.typedArrayBounds value with
    | error fault => exact ⟨rfl,quietBounds m value fault bounds⟩
    | ok fit =>
      rw [afterLiftOk,afterIte]
      refine ⟨fun _ => ⟨rfl,rfl⟩,fun _ => ?_⟩
      split
      · rw [afterBind]
        exact (writeElementSpec m value offset _).mono (fun _ _ done => done) (fun _ _ failed => failed)
      · exact ⟨rfl,rfl⟩

def Property.LengthSteady (m : Machine) (object : Value) (key : PropertyKey) (d : Property) : Prop :=
  key.eqAscii "length" = true → ∀ i v writable n, m.slot object = .ok (some i) → d = .data v writable false false →
    exactArrayLength v = some n → Runtime.LengthSteady m i n

theorem defineDescriptorSpec (known : sound → Accounted stored m) (steady : sound → d.LengthSteady m object key) :
    After (defineDescriptor object key d) m (fun _ t => Kept sound (Defines m object key d) m t)
      (Refused sound (Defines m object key d) m) := by
  unfold defineDescriptor
  simp only [afterBind (p := Effect.read),afterRead,afterBind (p := runtimeSlot _)]
  refine afterRuntimeSlot known fun slot there => ?_
  cases slot with
  | none => exact .plain (.refl known) rfl
  | some i =>
    dsimp only
    split
    · rename_i header fields here
      split
      · exact .plain (.refl known) rfl
      · refine (defineTypedSpec m i _ d).mono (fun _ t done => done.mono known fun _ _ _ write => .buffer write) ?_
        intro fault t failed
        obtain ⟨rfl,quiet⟩ := failed
        exact .plain (.refl known) quiet
      · rename_i none_
        refine defineOnObjectSpec known there here rfl (show Kind.typedArray ∈ definableKinds by decide) fun no => ?_
        have some_ := no.2
        rw [none_] at some_
        cases some_
    · rename_i header elements lengthWritable here
      rw [afterIte]
      refine ⟨fun named => ?_,fun named => ?_⟩
      · exact defineLengthSpec known there here named fun good v writable n shape exact => steady good named i v writable n there shape exact
      · exact defineOnArraySpec known there here (Bool.eq_false_of_not_eq_true named)
    · rename_i plain _
      split
      · rename_i header some_
        rw [afterIte]
        refine ⟨fun kinds => defineOnObjectSpec known there rfl some_ kinds fun element => ?_,fun _ => .plain (.refl known) rfl⟩
        obtain ⟨header,fields,here⟩ := HeapEntry.kindTypedArray element.1
        exact plain header fields here
      · exact .plain (.refl known) rfl

inductive Replaces (m : Machine) (object : Value) (elements : List Value) : Nat → HeapEntry → HeapEntry → Prop where
  | elements {i header current lengthWritable} (there : m.slot object = .ok (some i)) :
      Replaces m object elements i (.array header current lengthWritable) (.array header elements lengthWritable)

theorem arrayAt {slot i e} (there : m.slot object = .ok slot) (same : (slot.map fun index => (index,m.entry index)) = some (i,e)) :
    m.slot object = .ok (some i) ∧ m.entry i = e ∧ m.heap[i]? = some e := by
  cases slot with
  | none => cases same
  | some j =>
    obtain ⟨rfl,rfl⟩ := Prod.mk.inj (Option.some.inj same)
    exact ⟨there,rfl,(slotFound there).1⟩

theorem replaceSpec (known : sound → Accounted stored m) (object elements) :
    After (replaceArrayElements object elements) m (fun _ t => Kept sound (Replaces m object elements) m t)
      (Refused sound (Replaces m object elements) m) := by
  unfold replaceArrayElements
  simp only [afterBind (p := Effect.read),afterRead,afterBind (p := runtimeSlot _)]
  refine afterRuntimeSlot known fun slot there => ?_
  split
  · rename_i i header current lengthWritable same
    obtain ⟨there,here,found⟩ := arrayAt there same
    refine afterCharge known found _ fun t held => afterSet held _ (fun _ => ?_) (fun _ => trivial) fun u held =>
      refundLast held found (.inr (.elements there)) fun _ => Nat.le_refl _
    rw [storedArray,storedArray]
    simp only [valueBytes]
    omega
  · exact .plain (.refl known) rfl

inductive Pushes (v : Value) : Nat → HeapEntry → HeapEntry → Prop where
  | element {i header elements} (open_ : header.extensible = true) :
      Pushes v i (.array header elements true) (.array header (elements ++ [v]) true)

theorem arrayPushSpec (known : sound → Accounted stored m) (object v) :
    After (arrayPush object v) m (fun _ t => Kept sound (Pushes v) m t) (Refused sound (Pushes v) m) := by
  unfold arrayPush
  simp only [afterBind (p := Effect.read),afterRead,afterBind (p := runtimeSlot _)]
  refine afterRuntimeSlot known fun slot there => ?_
  split
  · rename_i i header elements lengthWritable same
    obtain ⟨there,here,found⟩ := arrayAt there same
    simp only [afterIte,afterFail]
    refine ⟨fun _ => .plain (.refl known) rfl,fun writable => ⟨fun _ => .plain (.refl known) rfl,fun open_ =>
      ⟨fun _ => .plain (.refl known) rfl,fun _ => ?_⟩⟩⟩
    have : lengthWritable = true := Bool.eq_true_of_not_eq_false writable
    subst lengthWritable
    refine afterCharge known found _ fun t held => ?_
    refine (held.rewrite (.array header (elements ++ [v]) true) 0 (fun _ => ?_) fun _ => trivial).kept found
      (.inr (.element (Bool.eq_true_of_not_eq_false open_)))
    rw [storedArray,storedArray]
    simp only [List.length_append,List.length_singleton,valueBytes]
    omega
  · exact .plain (.refl known) rfl

-- The array parts after the length seam of `Object.defineProperty`.
def relengthed (parts : ArrayParts) (lengthWritable : Bool) (length : Option Nat) : ArrayParts :=
  length.elim parts fun n => (defineArrayLength parts lengthWritable n).1

inductive Relengths (m : Machine) (object : Value) (key : PropertyKey) (d : PropertyDescriptor) : Nat → HeapEntry → HeapEntry → Prop where
  | length {i header elements lengthWritable} (there : m.slot object = .ok (some i)) (named : key.eqAscii "length" = true)
      (keep : d.writable = some true → lengthWritable = true) :
      Relengths m object key d i (.array header elements lengthWritable)
        (header.arrayOf (relengthed ⟨elements,header.properties⟩ lengthWritable (d.value.bind exactArrayLength))
          (lengthWritable && d.writable != some false))

def LengthPaid (m : Machine) (object : Value) (d : PropertyDescriptor) : Prop :=
  ∀ i header elements lengthWritable n, m.slot object = .ok (some i) → m.entry i = .array header elements lengthWritable →
    d.value.bind exactArrayLength = some n → ¬Regrows ⟨elements,header.properties⟩ n ∧
    (elements.length < n → m.intrinsicSlots ≤ i → n*valueBytes+header.properties.chargeBytes ≤ m.held i)

theorem relengthedFits {parts lengthWritable n held} (steady : ¬Regrows parts n)
    (now : parts.elements.length*valueBytes+parts.properties.chargeBytes ≤ held)
    (then_ : parts.elements.length < n → n*valueBytes+parts.properties.chargeBytes ≤ held) :
    (defineArrayLength parts lengthWritable n).1.elements.length*valueBytes +
      (defineArrayLength parts lengthWritable n).1.properties.chargeBytes ≤ held := by
  unfold defineArrayLength
  split
  · exact now
  · by_cases grows : parts.elements.length < n
    · rw [applyArrayLength,if_pos (by omega)]
      simp only [resizeLength]
      exact then_ grows
    · have charge := applyLengthCharge steady "define array length"
      have : n-parts.elements.length = 0 := by omega
      rw [this] at charge
      omega

theorem quietDefineLength (parts lengthWritable n) :
    Quiet (defineArrayLength parts lengthWritable n).2 := by
  unfold defineArrayLength
  split
  · exact quietError rfl
  · exact applyLengthQuiet

theorem relengthSpec {e} (known : sound → Accounted stored m) (paid : sound → key.eqAscii "length" = true → LengthPaid m object e) :
    After (defineArrayLengthDescriptor object key e) m
      (fun r t => Kept sound (Relengths m object key e) m t ∧ (r = false → t = m ∧
        (key.eqAscii "length" = true → ∀ i, m.slot object = .ok (some i) → (m.entry i).kind ≠ .array))) (Refused sound (Relengths m object key e) m) := by
  unfold defineArrayLengthDescriptor
  simp only [afterBind (p := Effect.read),afterRead,afterBind (p := runtimeSlot _)]
  refine afterRuntimeSlot known fun slot there => ?_
  split
  · rename_i i header elements lengthWritable same
    obtain ⟨there,here,found⟩ := arrayAt there same
    rw [afterIte]
    refine ⟨fun other => ⟨.refl known,fun _ => ⟨rfl,fun named => absurd (other.symm.trans named) Bool.false_ne_true⟩⟩,fun named => ?_⟩
    have named : key.eqAscii "length" = true := Bool.eq_true_of_not_eq_false named
    simp only [afterIte,afterFail]
    refine ⟨fun _ => .plain (.refl known) rfl,fun _ => ⟨fun _ => .plain (.refl known) rfl,fun _ => ?_⟩⟩
    split
    · exact .plain (.refl known) rfl
    · rename_i length exact_
      simp only [afterIte,afterFail]
      refine ⟨fun _ => .plain (.refl known) rfl,fun keep => ?_⟩
      have keep : e.writable = some true → lengthWritable = true :=
        fun asked => Bool.eq_true_of_not_eq_false fun no => keep ⟨asked,no⟩
      have joined : (e.value.map exactArrayLength).join = e.value.bind exactArrayLength := by
        cases e.value with
        | _ => rfl
      have change : Relengths m object key e i (.array header elements lengthWritable) _ := .length there named keep
      rw [joined]
      cases length : e.value.bind exactArrayLength with
      | none =>
        rw [length] at change
        refine afterSet (Holding.start known found) 0 (fun _ => Nat.le_refl _) (fun _ => trivial) fun u held => ?_
        exact ⟨held.kept found (.inr change),(by rintro ⟨⟩)⟩
      | some n =>
        rw [length] at change
        have held := Holding.place known i (header.arrayOf (defineArrayLength ⟨elements,header.properties⟩ lengthWritable n).1
          (lengthWritable && e.writable != some false)) (fun good runtime => ?_) trivial
        · have kept := held.kept found (.inr change)
          cases result : (defineArrayLength ⟨elements,header.properties⟩ lengthWritable n).2 with
          | ok _ => exact ⟨kept,(by rintro ⟨⟩)⟩
          | error fault => exact .plain kept (quietDefineLength _ _ _ fault result)
        · obtain ⟨steady,paid⟩ := paid good named i header elements lengthWritable n there here length
          have now := (known good).covered i _ found runtime
          rw [storedArray] at now
          rw [storedArrayOf]
          exact relengthedFits steady now fun grows => paid grows runtime
  · rename_i other
    refine ⟨.refl known,fun _ => ⟨rfl,fun _ i at_ array => ?_⟩⟩
    rw [there] at at_
    cases at_
    obtain ⟨header,elements,lengthWritable,here⟩ := HeapEntry.kindArray array
    exact other i header elements lengthWritable (by rw [Option.map_some,here])

def Grown (m t : Machine) : Prop := ∀ (i : Nat) e, m.heap[i]? = some e → t.heap[i]? = some e

theorem Kept.grown {t} (kept : Kept sound Untouched m t) : Grown m t := by
  intro i e found
  obtain ⟨after,at_,same | no⟩ := kept.slots i e found
  · rw [at_,same]
  · exact False.elim no

theorem slotStays {t : Machine} {i e} (there : m.slot object = .ok (some i)) (later : t.heap[i]? = some e)
    (full : e ≠ .vacant) : t.slot object = .ok (some i) := by
  unfold Machine.slot at there ⊢
  split at there
  · cases there
  · split at there
    · cases there
    · rename_i decoded segment
      split at there
      · cases there
      · cases there
      · cases there
        rw [if_neg segment,later]
        split
        · cases ‹some _ = none›
        · exact absurd (Option.some.inj ‹_›) full
        · rfl
  · cases there

theorem Grown.slot {t} (grown : Grown m t) {i} (there : m.slot object = .ok (some i)) :
    t.slot object = .ok (some i) ∧ t.entry i = m.entry i := by
  obtain ⟨found,full⟩ := slotFound there
  have later := grown i _ found
  exact ⟨slotStays there later full,by rw [Machine.entry,List.getD_eq_getElem?_getD,later]; rfl⟩

theorem defineQuietly {d i} (there : m.slot object = .ok (some i)) (kind : (m.entry i).kind = .moduleNamespace ∨ Elemental (m.entry i) key) :
    After (defineDescriptor object key d) m (fun _ t => Kept (Accounted stored m) (fun _ => BufferChange) m t)
      (fun fault t => t = m ∧ fault.isLedger = false) := by
  unfold defineDescriptor
  simp only [afterBind (p := Effect.read),afterRead,afterBind (p := runtimeSlot _),afterSlotAt there]
  cases here : m.entry i with
  | typedArray header fields =>
    rw [here] at kind
    obtain ⟨_,typed⟩ := kind.resolve_left (by rintro ⟨⟩)
    dsimp only
    split
    · exact ⟨rfl,rfl⟩
    · exact defineTypedSpec m i _ d
    · rename_i none_
      rw [none_] at typed
      cases typed
  | moduleNamespace module => exact ⟨rfl,rfl⟩
  | _ =>
    rw [here] at kind
    rcases kind with no | no
    · cases no
    · cases no.1

def PropertyDescriptor.completed (d : PropertyDescriptor) (current : Option Property) : Property :=
  (if current.isNone then d.complete else d).intoProperty current

inductive Redescribes (m : Machine) (object : Value) (key : PropertyKey) (d : PropertyDescriptor) :
    Nat → HeapEntry → HeapEntry → Prop where
  | buffer {j e after} (write : BufferChange e after) : Redescribes m object key d j e after
  | define {current i e after} (reports : e.kind = .array → current = e.reported key)
      (change : Defines m object key (d.completed current) i e after) : Redescribes m object key d i e after

theorem Defines.slot {i e after} (change : Defines m object key d i e after) :
    BufferChange e after ∨ m.slot object = .ok (some i) := by
  cases change with
  | buffer write => exact .inl write
  | length there => exact .inr there
  | element there => exact .inr there
  | property there => exact .inr there

theorem validateSpec {current extensible e} (known : sound → Accounted stored m)
    (reports : ∀ i, m.slot object = .ok (some i) → (m.entry i).kind = .array → current = (m.entry i).reported key)
    (steady : sound → ∀ p : Property, p.LengthSteady m object key) :
    After (validateAndApply object key extensible e current) m (fun _ t => Kept sound (Redescribes m object key e) m t)
      (Refused sound (Redescribes m object key e) m) := by
  unfold validateAndApply
  simp only [afterBind,afterRead,afterIte,afterPure]
  refine ⟨fun _ => .refl known,fun _ => ⟨fun _ => .refl known,fun _ => ?_⟩⟩
  have turn : ∀ i x after, m.heap[i]? = some x → Defines m object key (e.completed current) i x after →
      Redescribes m object key e i x after := by
    intro i x after found change
    rcases change.slot with write | there
    · exact .buffer write
    · have here : m.entry i = x := by rw [Machine.entry,List.getD_eq_getElem?_getD,found]; rfl
      exact .define (fun array => by rw [reports i there (by rw [here]; exact array),here]) change
  have spec := @defineDescriptorSpec sound m object key (e.completed current) known fun good => steady good _
  refine spec.mono ?_ ?_
  · exact fun _ t kept => kept.turn turn
  · exact fun _ t refused => ⟨refused.kept.turn turn,refused.solvent,refused.limit⟩

theorem validateQuietly {current extensible e i}
    (there : m.slot object = .ok (some i)) (kind : (m.entry i).kind = .moduleNamespace ∨ Elemental (m.entry i) key) :
    After (validateAndApply object key extensible e current) m
      (fun _ t => Kept (Accounted stored m) (fun _ => BufferChange) m t) (fun fault t => t = m ∧ fault.isLedger = false) := by
  unfold validateAndApply
  simp only [afterBind,afterRead,afterIte,afterPure]
  exact ⟨fun _ => .refl id,fun _ => ⟨fun _ => .refl id,fun _ => defineQuietly there kind⟩⟩

theorem describeSpec {α e} {p : Bool → Exec α} {Q} (known : sound → Accounted stored m) (steady : sound → ∀ q : Property, q.LengthSteady m object key)
    (next : ∀ r t, Kept sound (Redescribes m object key e) m t → After (p r) t Q (Refused sound (Redescribes m object key e) m)) :
    After (do
        let current ← ownDescriptor object key
        let m ← Effect.read
        let extensible ← lift (m.isExtensible object)
        let r ← validateAndApply object key extensible e current
        p r) m Q (Refused sound (Redescribes m object key e) m) := by
  simp only [afterBind (p := ownDescriptor _ _),afterBind (p := Effect.read),afterRead,afterBind (p := lift _),
    afterBind (p := validateAndApply _ _ _ _ _)]
  refine (ownDescriptorSpec m object key).mono ?_ (fun _ _ failed => failed.mono known Untouched.elim)
  intro current t done
  obtain ⟨kept,_,where_,plain⟩ := done
  have grown := kept.grown
  have kept : Kept sound Untouched m t := kept.mono known fun _ _ _ => id
  rcases where_ with rfl | ⟨i,there,elemental⟩
  · refine afterQuiet (quietExtensible t object) known fun extensible _ => ?_
    refine (validateSpec known (fun i there array => ?_) steady).mono (fun r u done => next r u done) (fun _ _ failed => failed)
    have apart : ¬Elemental (t.entry i) key := by
      intro no
      cases array.symm.trans no.1
    exact (plain i there (by rw [array]; decide) apart).1
  · -- An element of a typed array may have been read into a new slot; nothing is charged any more.
    obtain ⟨there,here⟩ := grown.slot there
    have quietly : ∀ fault, fault.isLedger = false → Refused sound (Redescribes m object key e) m fault t :=
      fun fault quiet => .plain (kept.mono id Untouched.elim) quiet
    cases extensible : t.isExtensible object with
    | error fault => exact quietly fault (quietExtensible t object fault extensible)
    | ok extensible =>
      refine (validateQuietly there (.inr (here ▸ elemental))).mono (fun r u done => next r u ?_) ?_
      · exact kept.after (done.mono kept.accounted fun _ _ _ write => .buffer write)
      · intro fault u failed
        obtain ⟨rfl,quiet⟩ := failed
        exact quietly fault quiet

-- What `Object.defineProperty` can do.
inductive DefinesProperty (m : Machine) (object : Value) (key : PropertyKey) (d : PropertyDescriptor) :
    Nat → HeapEntry → HeapEntry → Prop where
  | length {i e after} (change : Relengths m object key d i e after) : DefinesProperty m object key d i e after
  | describe {i e after} (change : Redescribes m object key d i e after) : DefinesProperty m object key d i e after

theorem definePropertySpec {e} (known : sound → Accounted stored m) (paid : sound → key.eqAscii "length" = true → LengthPaid m object e) :
    After (defineProperty object key e) m (fun _ t => Kept sound (DefinesProperty m object key e) m t)
      (Refused sound (DefinesProperty m object key e) m) := by
  unfold defineProperty applyPropertyDescriptor
  simp only [afterBind (p := Effect.read),afterRead,afterIte,afterFail,afterBind (p := defineArrayLengthDescriptor _ _ _)]
  refine ⟨fun _ => ?_,fun _ => .plain (.refl known) rfl⟩
  refine (relengthSpec known paid).mono ?_ (fun _ _ failed => failed.mono id fun _ _ _ change => .length change)
  intro r t done
  obtain ⟨kept,other⟩ := done
  cases r with
  | true => exact ⟨fun _ => kept.mono id fun _ _ _ change => .length change,(absurd rfl ·)⟩
  | false =>
    refine ⟨(by rintro ⟨⟩),fun _ => ?_⟩
    obtain ⟨rfl,other⟩ := other rfl
    have steady : sound → ∀ q : Property, q.LengthSteady t object key := by
      intro _ q named i v writable n there _ _ header elements lengthWritable here
      exact absurd (by rw [here]; rfl) (other named i there)
    refine (describeSpec known steady (Q := fun _ u => Kept sound (Redescribes t object key e) t u) fun r u kept => ?_).mono ?_ ?_
    · rw [afterIte]
      exact ⟨fun _ => kept,fun _ => .plain kept rfl⟩
    · exact fun _ _ kept => kept.mono id fun _ _ _ change => .describe change
    · exact fun _ _ failed => failed.mono id fun _ _ _ change => .describe change

end

end Bamts.Runtime
