import Bamts.RuntimeChange

/-! One lemma for each operation that stores into a slot: what it turns the slot into, and what it charges. -/
set_option linter.all false
namespace Bamts.Runtime
open Effect Bytecode

@[simp] theorem resizeLength (elements n) : (resizeElements elements n).length = n := by
  simp only [resizeElements,List.length_append,List.length_take,List.length_replicate]
  omega

theorem storedArrayOf (header : Header) (parts lengthWritable) :
    stored (header.arrayOf parts lengthWritable) = parts.elements.length*valueBytes + parts.properties.chargeBytes :=
  storedArray _ _ _

def Regrows (parts : ArrayParts) (length : Nat) : Prop :=
  length < parts.elements.length ∧ ∃ offset, blockedOffset parts.properties length = some offset ∧
    parts.elements.length ≤ offset

theorem filterCharge (map : PropertyMap) (keep) :
    (map.filter keep).chargeBytes ≤ map.chargeBytes := by
  rw [← PropertyMap.chargedAll _ arrayCounted,← PropertyMap.chargedAll _ arrayCounted]
  exact map.chargedFilter keep

theorem applyLengthCharge {parts length} (steady : ¬Regrows parts length) (operation) :
    (applyArrayLength parts length operation).1.elements.length*valueBytes +
      (applyArrayLength parts length operation).1.properties.chargeBytes +
      releasedBytes parts (applyArrayLength parts length operation).1 ≤
    parts.elements.length*valueBytes + parts.properties.chargeBytes + (length-parts.elements.length)*valueBytes := by
  unfold applyArrayLength
  by_cases grows : parts.elements.length ≤ length
  · simp only [if_pos grows,releasedBytes,resizeLength,valueBytes]
    omega
  · have short : (blockedOffset parts.properties length).elim length (·+1) ≤ parts.elements.length := by
      cases blocked : blockedOffset parts.properties length with
      | none => simp only [Option.elim_none]; omega
      | some offset =>
        have : ¬parts.elements.length ≤ offset := fun past => steady ⟨by omega,offset,blocked,past⟩
        simp only [Option.elim_some]
        omega
    have less := filterCharge parts.properties (belowLength ((blockedOffset parts.properties length).elim length (·+1)))
    simp only [if_neg grows,releasedBytes,resizeLength,valueBytes]
    omega

theorem storedInsert {e header} (some_ : e.header? = some header) (key p) {growth refund} (fair : PropertyMap.row (counted e.kind) (key,p) + refund ≤
      header.properties.weight (counted e.kind) key + growth) :
    stored (e.withProperties (header.properties.insert key p)) + refund ≤ stored e + growth := by
  have charge := @PropertyMap.chargedInsert (counted e.kind) header.properties key p
  rw [storedProperties some_,stored,some_,Option.elim_some]
  omega

theorem storedRemove {e header} (some_ : e.header? = some header) {key p}
    (found : header.properties.get key = some p) (loose : p.configurable = true) :
    stored (e.withProperties (header.properties.remove key)) + (key.chargeBytes+p.chargeBytes) ≤ stored e := by
  have counts : counted e.kind p = true := by simp [counted,loose]
  have charge := @PropertyMap.chargedRemove (counted e.kind) header.properties key
  rw [PropertyMap.weight,found,Option.elim_some,PropertyMap.row,if_pos counts] at charge
  dsimp only at charge
  rw [storedProperties some_,stored,some_,Option.elim_some]
  omega

theorem storedValueFair {properties key kind} (v) (open_ : kind ∉ bornUncharged ∨ ∀ g s e c, properties.get key ≠ some (.accessor g s e c)) :
    PropertyMap.row (counted kind) (key,storedValue properties key v) + 0 ≤
      properties.weight (counted kind) key + keyGrowth properties key := by
  unfold PropertyMap.weight keyGrowth PropertyMap.containsKey storedValue
  rcases found : properties.get key with _ | ⟨old,writable,enumerable,configurable⟩ | ⟨g,s,enumerable,configurable⟩
  · simp [PropertyMap.row,counted,Property.plain,Property.configurable,Property.chargeBytes]
  · simp [PropertyMap.row,counted,Property.configurable,Property.chargeBytes]
  · rcases open_ with whole | plain
    · simp [PropertyMap.row,counted,whole,Property.plain,Property.chargeBytes]
    · exact absurd found (plain g s enumerable configurable)

theorem checkedData {header virtual key} (open_ : checkWritable header virtual key = .ok ()) :
    ∀ g s e c, header.properties.get key ≠ some (.accessor g s e c) := by
  intro g s e c found
  unfold checkWritable at open_
  rw [found] at open_
  cases open_

-- The elements once the index `offset` is one of them.
def extended (elements : List Value) (offset : Nat) : List Value :=
  if elements.length ≤ offset then resizeElements elements (offset+1) else elements

inductive Assigns (index : Nat) (key : PropertyKey) (v : Value) : Nat → HeapEntry → HeapEntry → Prop where
  | buffer {j e after} (write : BufferChange e after) : Assigns index key v j e after
  | length {header elements n} (named : key.eqAscii "length" = true) (exact : exactArrayLength v = some n) :
      Assigns index key v index (.array header elements true)
        (header.arrayOf (applyArrayLength ⟨elements,header.properties⟩ n "set array length").1 true)
  | element {header elements lengthWritable offset} (at_ : key.index = some offset)
      (room : elements.length ≤ offset → lengthWritable = true)
      (open_ : checkWritable header (elements[offset]?.getD .hole != .hole) key = .ok ()) :
      Assigns index key v index (.array header elements lengthWritable)
        (.array header ((extended elements offset).set offset v) lengthWritable)
  | property {e header} (some_ : e.header? = some header)
      (open_ : e.kind ≠ .timeout → checkWritable header false key = .ok ())
      (plain : e.kind = .array → key.eqAscii "length" = false ∧ key.index = none) :
      Assigns index key v index e
        (e.withProperties (header.properties.insert key (storedValue header.properties key v)))

theorem indexSmall {key : PropertyKey} {offset} (at_ : key.index = some offset) : offset < 4294967295 := by
  obtain ⟨name,_,index⟩ := Option.bind_eq_some_iff.mp at_
  exact (arrayIndexSome index).2

theorem applyLengthQuiet {parts n operation} : Quiet (applyArrayLength parts n operation).2 := by
  unfold applyArrayLength
  split
  · exact quietOk _
  · dsimp only
    split
    · exact quietError rfl
    · exact quietOk _

section
variable {sound : Prop} {m : Machine} {index : Nat} {key : PropertyKey} {v : Value}

theorem setArrayLengthSpec {header elements lengthWritable} (known : sound → Accounted stored m)
    (found : m.heap[index]? = some (.array header elements lengthWritable)) (named : key.eqAscii "length" = true)
    (steady : sound → ∀ n, exactArrayLength v = some n → ¬Regrows ⟨elements,header.properties⟩ n) :
    After (setArrayLength index header elements lengthWritable v) m (fun _ t => Kept sound (Assigns index key v) m t)
      (Refused sound (Assigns index key v) m) := by
  unfold setArrayLength
  cases exact : exactArrayLength v with
  | none => exact .plain (.refl known) rfl
  | some n =>
    simp only
    cases lengthWritable with
    | false => exact .plain (.refl known) rfl
    | true =>
      have change : Assigns index key v index (.array header elements true) _ := .length named exact
      refine afterCharge known found _ fun t held => afterSet held _ ?_ (fun _ => trivial) fun u held =>
        afterRefund held found (.inr change) (fun _ => Nat.le_refl _) fun w kept => ?_
      · intro good
        rw [storedArrayOf,storedArray]
        exact applyLengthCharge (steady good n exact) "set array length"
      · cases result : (applyArrayLength ⟨elements,header.properties⟩ n "set array length").2 with
        | ok _ => exact kept
        | error fault => exact .plain kept (applyLengthQuiet fault result)

theorem reachIndex {header : Header} {elements lengthWritable offset}
    (at_ : key.index = some offset) (room : elements.length ≤ offset → lengthWritable = true) (operation) :
    (if elements.length ≤ offset then
      arraySetLength ⟨elements,header.properties⟩ lengthWritable (numberValue (.ofNat (offset+1))) operation
    else (⟨elements,header.properties⟩,.ok ())) = (⟨extended elements offset,header.properties⟩,.ok ()) := by
  have small := indexSmall at_
  by_cases past : elements.length ≤ offset
  · rw [if_pos past,room past,arraySetLength,exactLength (by omega)]
    simp only [if_true,applyArrayLength,extended,if_pos past]
    rw [if_pos (by omega)]
  · rw [if_neg past,extended,if_neg past]

theorem extendedLength (elements offset) :
    (extended elements offset).length = elements.length+(offset+1-elements.length) := by
  unfold extended
  split
  · rw [resizeLength]
    omega
  · omega

theorem setArrayElementSpec {header elements lengthWritable offset}
    (known : sound → Accounted stored m) (found : m.heap[index]? = some (.array header elements lengthWritable))
    (at_ : key.index = some offset) (room : elements.length ≤ offset → lengthWritable = true)
    (open_ : checkWritable header (elements[offset]?.getD .hole != .hole) key = .ok ()) :
    After (setArrayElement index header elements lengthWritable offset v) m (fun _ t => Kept sound (Assigns index key v) m t)
      (Refused sound (Assigns index key v) m) := by
  refine afterCharge known found _ fun t held => ?_
  simp only [reachIndex at_ room]
  refine (held.rewrite (.array header ((extended elements offset).set offset v) lengthWritable) 0 ?_ fun _ => trivial).kept
    found (.inr (.element at_ room open_))
  rw [storedArray,storedArray,List.length_set,extendedLength]
  simp only [valueBytes]
  omega

theorem setPropertySpec {e header} (known : sound → Accounted stored m) (found : m.heap[index]? = some e)
    (some_ : e.header? = some header) (open_ : e.kind ≠ .timeout → checkWritable header false key = .ok ())
    (plain : e.kind = .array → key.eqAscii "length" = false ∧ key.index = none) :
    After (do
        chargeSlot index (keyGrowth header.properties key)
        setEntry index (e.withProperties (header.properties.insert key (storedValue header.properties key v)))) m
      (fun _ t => Kept sound (Assigns index key v) m t) (Refused sound (Assigns index key v) m) := by
  refine afterCharge known found _ fun t held => ?_
  refine (held.rewrite _ 0 ?_ fun sized => HeapEntry.withPropertiesSized _ sized).kept found (.inr (.property some_ open_ plain))
  intro _
  refine storedInsert some_ key _ (storedValueFair v ?_)
  by_cases timer : e.kind = .timeout
  · exact .inl (by rw [timer]; decide)
  · exact .inr (checkedData (open_ timer))

theorem quietChecked (header virtual key) : Quiet (checkWritable header virtual key) := by
  unfold checkWritable
  split
  · exact quietOk _
  · exact quietError rfl
  · split
    · exact quietOk _
    · exact quietError rfl

theorem setStoredSpec {e} (known : sound → Accounted stored m) (at_ : m.entry index = e) (other : e.kind ≠ .array) :
    After (setStoredData index e key v) m (fun _ t => Kept sound (Assigns index key v) m t)
      (Refused sound (Assigns index key v) m) := by
  unfold setStoredData
  cases some_ : e.header? with
  | none =>
    refine .plain (.refl known) ?_
    cases e with
    | _ => rfl
  | some header =>
    have found : m.heap[index]? = some e := entryFound at_ (by rintro rfl; cases some_)
    have stores := fun open_ => @setPropertySpec sound m index key v e header known found some_ open_ fun no => absurd no other
    simp only [afterBind (p := given _ _),afterGiven]
    refine ⟨fun asked => ?_,fun timer => stores fun other => absurd (by simpa using timer) other⟩
    exact afterQuiet (quietChecked header false key) known fun _ open_ => stores fun _ => open_

def LengthSteady (m : Machine) (index n : Nat) : Prop :=
  ∀ header elements lengthWritable, m.entry index = .array header elements lengthWritable →
    ¬Regrows ⟨elements,header.properties⟩ n

theorem setArraySpec {header elements lengthWritable} (known : sound → Accounted stored m)
    (here : m.entry index = .array header elements lengthWritable)
    (steady : sound → key.eqAscii "length" = true → ∀ n, exactArrayLength v = some n → LengthSteady m index n) :
    After (setArrayData index header elements lengthWritable key v) m (fun _ t => Kept sound (Assigns index key v) m t)
      (Refused sound (Assigns index key v) m) := by
  have found := entryFound here (nomatch ·)
  unfold setArrayData
  by_cases named : key.eqAscii "length" = true
  · rw [if_pos named]
    exact setArrayLengthSpec known found named fun good n exact => steady good named n exact _ _ _ here
  · rw [if_neg named]
    cases at_ : key.index with
    | some offset =>
      simp only [afterIte,afterFail,afterBind]
      refine ⟨fun _ => .plain (.refl known) rfl,fun room => ?_⟩
      refine afterQuiet (quietChecked _ _ _) known fun _ open_ => setArrayElementSpec known found at_ (fun past => ?_) open_
      exact Bool.eq_true_of_not_eq_false fun no => room ⟨past,no⟩
    | none =>
      simp only [afterBind (p := lift _)]
      refine afterQuiet (quietChecked _ _ _) known fun _ open_ => ?_
      exact setPropertySpec known found rfl (fun _ => open_) fun _ => ⟨Bool.eq_false_of_not_eq_true named,at_⟩

theorem setOwnDataSpec (known : sound → Accounted stored m)
    (steady : sound → key.eqAscii "length" = true → ∀ n, exactArrayLength v = some n → LengthSteady m index n) :
    After (setOwnData index key v) m (fun _ t => Kept sound (Assigns index key v) m t)
      (Refused sound (Assigns index key v) m) := by
  unfold setOwnData
  simp only [afterBind (p := Effect.read),afterRead]
  cases here : m.entry index with
  | typedArray header fields =>
    dsimp only
    split
    · exact .refl known
    · simp only [afterBind]
      refine afterQuiet (quietIndex index) known fun view _ => ?_
      refine (writeElementSpec m view _ v).mono (fun _ t done => done.mono known fun _ _ _ write => .buffer write) ?_
      intro fault t failed
      obtain ⟨rfl,quiet⟩ := failed
      exact .plain (.refl known) quiet
    · exact setStoredSpec known here (by rintro ⟨⟩)
  | array header elements lengthWritable => exact setArraySpec known here steady
  | _ => exact setStoredSpec known here (by rintro ⟨⟩)

-- The accessor `p` put under a key that may take one.
inductive Accesses (key : PropertyKey) : Nat → HeapEntry → HeapEntry → Prop where
  | property {j e header p} (some_ : e.header? = some header)
      (open_ : (header.properties.get key).elim header.extensible (·.configurable) = true) :
      Accesses key j e (e.withProperties (header.properties.insert key p))

theorem installFair {properties : PropertyMap} (kind accessor half) (open_ : ∀ p, properties.get key = some p → p.configurable = true) :
    PropertyMap.row (counted kind) (key,installAccessor (properties.get key) accessor half) + 0 ≤
      properties.weight (counted kind) key + accessorGrowth (properties.get key) key := by
  unfold PropertyMap.weight
  rcases found : properties.get key with _ | ⟨old,writable,enumerable,configurable⟩ | ⟨g,s,enumerable,configurable⟩
  · cases half with
    | _ =>
      simp [PropertyMap.row,counted,installAccessor,accessorGrowth,Property.configurable,Property.chargeBytes]
  · have loose : configurable = true := open_ _ found
    cases half with
    | _ =>
      simp [PropertyMap.row,counted,installAccessor,accessorGrowth,Property.configurable,Property.chargeBytes,loose]
  · cases half with
    | _ => simp [PropertyMap.row,counted,installAccessor,accessorGrowth,Property.configurable,Property.chargeBytes]

theorem defineAccessorSpec (known : sound → Accounted stored m) (object accessor half) :
    After (defineAccessor object key accessor half) m (fun _ t => Kept sound (Accesses key) m t)
      (Refused sound (Accesses key) m) := by
  unfold defineAccessor
  simp only [afterBind (p := Effect.read),afterRead,afterBind (p := runtimeSlot _)]
  refine afterRuntimeSlot known fun slot there => ?_
  have refuse : ∀ text, After (fail (typeError text)) m (fun (_ : Unit) t => Kept sound (Accesses key) m t)
      (Refused sound (Accesses key) m) := fun _ => .plain (.refl known) rfl
  cases slot with
  | none => exact refuse _
  | some i =>
    obtain ⟨found,_⟩ := slotFound there
    dsimp only
    split
    · exact refuse _
    · split
      · exact refuse _
      · rename_i header some_
        split
        · exact refuse _
        · split
          · exact refuse _
          · rename_i open_
            have open_ : (header.properties.get key).elim header.extensible (·.configurable) = true := by
              cases at_ : header.properties.get key with
              | none => simpa [at_] using open_
              | some p => simpa [at_] using open_
            refine afterCharge known found _ fun t held => ?_
            refine (held.rewrite _ 0 (fun _ => ?_) fun sized => HeapEntry.withPropertiesSized _ sized).kept found
              (.inr (.property some_ open_))
            refine storedInsert some_ key _ (installFair _ accessor half fun p at_ => ?_)
            rw [at_] at open_
            exact open_

inductive Deletes (key : PropertyKey) : Nat → HeapEntry → HeapEntry → Prop where
  | stored {j e header p} (some_ : e.header? = some header) (found : header.properties.get key = some p)
      (loose : p.configurable = true) : Deletes key j e (e.withProperties (header.properties.remove key))
  | element {j header elements lengthWritable offset} (none_ : header.properties.get key = none)
      (at_ : key.index = some offset) : Deletes key j (.array header elements lengthWritable)
        (.array header (elements.set offset .hole) lengthWritable)

theorem deleteStoredSpec {e header p} (known : sound → Accounted stored m)
    (found : m.heap[index]? = some e) (some_ : e.header? = some header) (at_ : header.properties.get key = some p) :
    After (deleteStored index e header key p) m (fun _ t => Kept sound (Deletes key) m t)
      (Refused sound (Deletes key) m) := by
  unfold deleteStored
  rw [afterIte]
  refine ⟨fun loose => ?_,fun _ => .refl known⟩
  refine afterSet (Holding.start known found) _ (fun _ => storedRemove some_ at_ loose)
    (fun sized => HeapEntry.withPropertiesSized _ sized) fun u held => ?_
  exact afterRefund held found (.inr (.stored some_ at_ loose)) (fun _ => Nat.le_refl _) fun w kept => kept

theorem deleteOffsetSpec {header elements lengthWritable} (known : sound → Accounted stored m)
    (found : m.heap[index]? = some (.array header elements lengthWritable)) (none_ : header.properties.get key = none) :
    After (deleteArrayOffset index header elements lengthWritable key) m (fun _ t => Kept sound (Deletes key) m t)
      (Refused sound (Deletes key) m) := by
  unfold deleteArrayOffset
  rw [afterIte]
  refine ⟨fun _ => .refl known,fun _ => ?_⟩
  cases at_ : key.index with
  | none => exact afterRefund (Holding.start known found) found (.inl rfl) (fun _ => Nat.le_refl _) fun w kept => kept
  | some offset =>
    refine afterSet (Holding.start known found) 0 (fun _ => ?_) (fun _ => trivial) fun u held => ?_
    · rw [storedArray,storedArray,List.length_set]
    · exact afterRefund held found (.inr (.element none_ at_)) (fun _ => Nat.le_refl _) fun w kept => kept

theorem deleteAtSpec (known : sound → Accounted stored m) (full : m.entry index ≠ .vacant) :
    After (deleteAt index key) m (fun _ t => Kept sound (Deletes key) m t) (Refused sound (Deletes key) m) := by
  unfold deleteAt
  simp only [afterBind (p := Effect.read),afterRead]
  have found := entryFound rfl full
  cases here : m.entry index with
  | proxy record =>
    exact afterRefund (Holding.start known found) found (.inl rfl) (fun _ => Nat.le_refl _) fun w kept => kept
  | processEnv prototype extensible =>
    dsimp only
    split
    · exact .plain (.refl known) rfl
    · exact .refl known
  | moduleNamespace module => exact .refl known
  | externalModuleNamespace specifier => exact .refl known
  | vacant => exact absurd here full
  | array header elements lengthWritable =>
    rw [here] at found
    dsimp only
    split
    · exact deleteStoredSpec known found rfl ‹_›
    · exact deleteOffsetSpec known found ‹_›
  | _ =>
    rw [here] at found
    dsimp only
    split
    · exact .refl known
    · split
      · exact deleteStoredSpec known found ‹_› ‹_›
      · exact .refl known

theorem internalDeleteSpec (known : sound → Accounted stored m) (object key) :
    After (internalDelete object key) m (fun _ t => Kept sound (Deletes key) m t) (Refused sound (Deletes key) m) := by
  unfold internalDelete
  simp only [afterBind (p := Effect.read),afterRead,afterIte,afterFail,afterBind (p := runtimeSlot _)]
  refine ⟨fun _ => .plain (.refl known) rfl,fun _ => afterRuntimeSlot known fun slot there => ?_⟩
  cases slot with
  | none => exact .refl known
  | some i =>
    obtain ⟨_,full⟩ := slotFound there
    dsimp only
    split
    · simp only [afterBind]
      exact afterQuiet (quietIndex i) known fun view _ => afterQuiet (quietBounds m view) known fun bounds _ => .refl known
    · exact deleteAtSpec known full

inductive Redefines (m : Machine) : Property → Property → Prop where
  | loose {p q} (configurable : p.configurable = true) : Redefines m p q
  | writable {v w next enumerable} : Redefines m (.data v true enumerable false) (.data w next enumerable false)
  | same {v w enumerable} (same : m.sameValue w v = true) :
      Redefines m (.data v false enumerable false) (.data w false enumerable false)
  | accessor {g s g' s' enumerable} (getter : m.sameValue (g'.getD .undefined) (g.getD .undefined) = true)
      (setter : m.sameValue (s'.getD .undefined) (s.getD .undefined) = true) :
      Redefines m (.accessor g s enumerable false) (.accessor g' s' enumerable false)

theorem redefinition {p q} (ok : m.validateRedefinition (some p) q = .ok ()) : Redefines m p q := by
  unfold Machine.validateRedefinition at ok
  dsimp only at ok
  split at ok
  · exact .loose ‹_›
  · rename_i fixed
    split at ok
    · cases ok
    · rename_i fixedNext
      split at ok
      · cases ok
      · rename_i listed
        have listed : q.enumerable = p.enumerable := by simpa using listed
        cases p with
        | data v writable enumerable configurable =>
          cases q with
          | data w next enumerable' configurable' =>
            have : configurable = false := Bool.eq_false_of_not_eq_true fixed
            have : configurable' = false := Bool.eq_false_of_not_eq_true fixedNext
            have : enumerable' = enumerable := listed
            subst configurable configurable' enumerable'
            dsimp only at ok
            split at ok
            · have : writable = true := ‹_›
              subst writable
              exact .writable
            · have : writable = false := Bool.eq_false_of_not_eq_true ‹_›
              subst writable
              split at ok
              · cases ok
              · have : next = false := Bool.eq_false_of_not_eq_true ‹_›
                subst next
                split at ok
                · exact .same ‹_›
                · cases ok
          | accessor => cases ok
        | accessor g s enumerable configurable =>
          cases q with
          | data => cases ok
          | accessor g' s' enumerable' configurable' =>
            have : configurable = false := Bool.eq_false_of_not_eq_true fixed
            have : configurable' = false := Bool.eq_false_of_not_eq_true fixedNext
            have : enumerable' = enumerable := listed
            subst configurable configurable' enumerable'
            dsimp only at ok
            split at ok
            · cases ok
            · split at ok
              · cases ok
              · exact .accessor (Bool.eq_true_of_not_eq_false ‹_›) (Bool.eq_true_of_not_eq_false ‹_›)

theorem quietRedefinition (m : Machine) (current next) :
    Quiet (m.validateRedefinition current next) := by
  unfold Machine.validateRedefinition
  cases current with
  | none => exact quietOk _
  | some p =>
    dsimp only
    split
    · exact quietOk _
    · split
      · exact quietError rfl
      · split
        · exact quietError rfl
        · cases p with
          | data =>
            cases next with
            | data =>
              dsimp only
              split
              · exact quietOk _
              · split
                · exact quietError rfl
                · split
                  · exact quietOk _
                  · exact quietError rfl
            | accessor => exact quietError rfl
          | accessor =>
            cases next with
            | data => exact quietError rfl
            | accessor =>
              dsimp only
              split
              · exact quietError rfl
              · split
                · exact quietError rfl
                · exact quietOk _

theorem definitionFair {properties kind d} (valid : ∀ p, properties.get key = some p → kind ∉ bornUncharged ∨ Redefines m p d) :
    PropertyMap.row (counted kind) (key,d) + (definitionCharges properties key d).2 ≤
      properties.weight (counted kind) key + (definitionCharges properties key d).1 := by
  unfold PropertyMap.weight definitionCharges
  cases found : properties.get key with
  | none =>
    simp only [PropertyMap.row,Option.elim_none]
    split
    · omega
    · omega
  | some p =>
    have counts : counted kind p = true ∨ (counted kind d = false ∧ d.chargeBytes = p.chargeBytes) := by
      by_cases whole : kind ∈ bornUncharged
      · cases (valid p found).resolve_left (not_not.mpr whole) with
        | loose configurable => exact .inl (by simp [counted,configurable])
        | writable => exact .inr ⟨by simp [counted,whole,Property.configurable],rfl⟩
        | same => exact .inr ⟨by simp [counted,whole,Property.configurable],rfl⟩
        | accessor => exact .inr ⟨by simp [counted,whole,Property.configurable],rfl⟩
      · exact .inl (by simp [counted,whole])
    simp only [PropertyMap.row,Option.elim_some]
    rcases counts with all | ⟨none_,same⟩
    · rw [if_pos all]
      split
      · split
        · dsimp only
          omega
        · dsimp only
          omega
      · split
        · dsimp only
          omega
        · dsimp only
          omega
    · simp [none_,same]

end

end Bamts.Runtime
