import Bamts.RuntimeDefine
import Bamts.RuntimeKey
import Bamts.RuntimeSolvent

/-! The two validators of a redefinition against each other, and what every row of definitions
on one key leaves of a property that is not configurable. -/
set_option linter.all false
namespace Bamts.Runtime
open Effect Binary64

def Value.isNegativeZero (v : Value) : Bool :=
  match v.decode with
  | some (.number x) => x.isZero && x.negative
  | _ => false

theorem zeroNumber {x : Double} (zero : x.isZero = true) : x.isNaN = false := by
  unfold Double.isZero at zero
  unfold Double.isNaN Double.exponent
  have zero : x.bits.toNat % 2^63 = 0 := by simpa using zero
  have low : x.bits.toNat / 2^52 % 2^11 = 0 := by omega
  rw [low]
  rfl

theorem zeroEq {x y : Double} (equal : x.eq y = true) : x.isZero = y.isZero := by
  unfold Double.eq at equal
  simp only [Bool.and_eq_true,Bool.or_eq_true,beq_iff_eq] at equal
  rcases equal.2 with same | ⟨left,right⟩
  · unfold Double.isZero
    rw [same]
  · rw [left,right]

theorem bothZero {x y : Double} (left : x.isZero = true) (right : y.isZero = true) : x.eq y = true := by
  simp [Double.eq,zeroNumber left,zeroNumber right,left,right]

-- The comparison of two numbers by the machine's `same_value`.
theorem sameNumbers (x y : Double) :
    (if x.isNaN && y.isNaN then true else if x.isZero && y.isZero then x.negative == y.negative else x.eq y) = true ↔
      (x.eq y || x.isNaN && y.isNaN) = true ∧ (x.isZero && x.negative) = (y.isZero && y.negative) := by
  by_cases nans : (x.isNaN && y.isNaN) = true
  · have nan := Bool.and_eq_true_iff.mp nans
    have left : x.isZero = false := Bool.eq_false_of_not_eq_true fun zero => by rw [zeroNumber zero] at nan; cases nan.1
    have right : y.isZero = false := Bool.eq_false_of_not_eq_true fun zero => by rw [zeroNumber zero] at nan; cases nan.2
    simp [nans,left,right]
  · rw [if_neg nans,Bool.eq_false_of_not_eq_true nans,Bool.or_false]
    by_cases zeros : (x.isZero && y.isZero) = true
    · have zero := Bool.and_eq_true_iff.mp zeros
      rw [if_pos zeros,bothZero zero.1 zero.2,zero.1,zero.2]
      simp
    · rw [if_neg zeros]
      refine ⟨fun equal => ⟨equal,?_⟩,And.left⟩
      have same := zeroEq equal
      have left : x.isZero = false := Bool.eq_false_of_not_eq_true fun zero => zeros (by rw [← same,zero]; rfl)
      rw [← same,left]
      rfl

theorem sameInteger (x : Double) (raw) :
    (if x.isZero && (int32Double raw).isZero then !x.negative else x.eq (int32Double raw)) = true ↔
      x.eq (int32Double raw) = true ∧ (x.isZero && x.negative) = false := by
  by_cases zeros : (x.isZero && (int32Double raw).isZero) = true
  · have zero := Bool.and_eq_true_iff.mp zeros
    rw [if_pos zeros,bothZero zero.1 zero.2,zero.1]
    simp
  · rw [if_neg zeros]
    refine ⟨fun equal => ⟨equal,?_⟩,And.left⟩
    have same := zeroEq equal
    have left : x.isZero = false := Bool.eq_false_of_not_eq_true fun zero => zeros (by rw [← same,zero]; rfl)
    rw [left]
    rfl

theorem noNumber {v : Value} (other : ∀ x, v.decode ≠ some (.number x)) : v.isNegativeZero = false := by
  unfold Value.isNegativeZero
  split
  · rename_i x isV
    exact absurd isV (other x)
  · rfl

theorem numberWords {m : Machine} {a b x} (isA : a.decode = some (.number x))
    (numbers : ∀ y, b.decode ≠ some (.number y)) (integers : ∀ raw, b.decode ≠ some (.int32 raw)) :
    m.sameValueZero a b = (a == b) ∧ m.sameValueZero b a = (b == a) := by
  rcases decodedKinds b with ⟨y,isB⟩ | ⟨y,isB⟩ | ⟨y,isB⟩ | plainB
  · exact absurd isB (numbers y)
  · exact absurd isB (integers y)
  · exact referenceWords isA isB (.inl ⟨x,rfl⟩) ⟨y,rfl⟩
  · exact ⟨samePlain (.inr plainB),samePlain (.inl plainB)⟩

theorem sameValueIff (m : Machine) (a b) :
    m.sameValue a b = true ↔ m.sameValueZero a b = true ∧ a.isNegativeZero = b.isNegativeZero := by
  unfold Machine.sameValue
  split
  · rename_i x y isA isB
    simp only [Machine.sameValueZero,Value.isNegativeZero,isA,isB]
    exact sameNumbers x y
  · rename_i x raw isA isB
    simp only [Machine.sameValueZero,Value.isNegativeZero,isA,isB]
    exact sameInteger x raw
  · rename_i raw x isA isB
    simp only [Machine.sameValueZero,Value.isNegativeZero,isA,isB]
    rw [eq_comm (a := false)]
    exact sameInteger x raw
  · rename_i numbers integers integers'
    refine ⟨fun same => ⟨same,?_⟩,And.left⟩
    by_cases numberA : ∃ x, a.decode = some (.number x)
    · obtain ⟨x,isA⟩ := numberA
      rw [(numberWords isA (fun y isB => numbers x y isA isB) fun raw isB => integers x raw isA isB).1] at same
      rw [eq_of_beq same]
    · by_cases numberB : ∃ y, b.decode = some (.number y)
      · obtain ⟨y,isB⟩ := numberB
        rw [(numberWords isB (fun x isA => numbers x y isA isB) fun raw isA => integers' raw y isA isB).2] at same
        rw [eq_of_beq same]
      · rw [noNumber fun x isA => numberA ⟨x,isA⟩,noNumber fun y isB => numberB ⟨y,isB⟩]

theorem sameValueRefl (m : Machine) (v) : m.sameValue v v = true :=
  (sameValueIff m v v).mpr ⟨(sameDigest m v v).mpr rfl,rfl⟩

theorem sameValueTrans {m : Machine} {a b c} (first : m.sameValue a b = true) (second : m.sameValue b c = true) :
    m.sameValue a c = true := by
  obtain ⟨firstZero,firstSign⟩ := (sameValueIff m a b).mp first
  obtain ⟨secondZero,secondSign⟩ := (sameValueIff m b c).mp second
  refine (sameValueIff m a c).mpr ⟨(sameDigest m a c).mpr ?_,firstSign.trans secondSign⟩
  exact ((sameDigest m a b).mp firstZero).trans ((sameDigest m b c).mp secondZero)

section Accepts

variable {m : Machine} {d : PropertyDescriptor}

def Admits (m : Machine) (d : PropertyDescriptor) : Property → Prop
  | .data v writable _ _ => d.isAccessor = false ∧
    (writable = false → d.writable.getD false = false ∧ d.value.all (fun w => m.sameValue w v) = true)
  | .accessor getter setter _ _ => (d.isAccessor = true ∨ d.isData = false) ∧
    d.getter.all (fun v => m.sameValue v (getter.getD .undefined)) = true ∧
    d.setter.all (fun v => m.sameValue v (setter.getD .undefined)) = true

end Accepts

theorem sameObject {m : Machine} {a b} (same : m.sameValue b a = true) (object : m.isObject a = true ∨ a = .undefined) :
    b = a := by
  have zero := ((sameValueIff m b a).mp same).1
  rcases object with object | rfl
  · unfold Machine.isObject at object
    split at object
    · rename_i i there
      have kind : (m.entry i).kind ∉ [Kind.string,.bigInt,.promiseResolver,.promiseAll,.asyncActivation,.promiseAllElement] := by
        simpa using object
      have slot := there
      unfold Machine.slot at there
      split at there
      · cases there
      · rename_i id isA
        have opaque_ : textDigest (referred m.heap id) = none := by
          rw [← slotReferred (m := m) isA,Machine.slotOk,slot]
          change textDigest (m.entry i) = none
          cases here : m.entry i with
          | string =>
            rw [here] at kind
            exact absurd List.mem_cons_self kind
          | bigInt =>
            rw [here] at kind
            exact absurd (List.mem_cons_of_mem _ List.mem_cons_self) kind
          | _ => rfl
        have digest := (sameDigest m b a).mp zero
        rw [digestReferred isA,opaque_,Option.getD_none] at digest
        rcases decodedKinds b with ⟨x,isB⟩ | ⟨x,isB⟩ | ⟨x,isB⟩ | plainB
        · rw [digestNumber isB] at digest
          cases digest
        · rw [digestInt32 isB] at digest
          cases digest
        · rw [digestReferred isB] at digest
          rcases textKinds (some (referred m.heap x)) with text | ⟨text,found⟩ | ⟨text,found⟩
          · rw [Option.getD_some] at text
            rw [text,Option.getD_none] at digest
            injection digest with bits
            cases a
            cases bits
            rfl
          · rw [Option.some.inj found] at digest
            cases digest
          · rw [Option.some.inj found] at digest
            cases digest
        · rw [digestPlain plainB] at digest
          cases digest
      · cases there
    · rename_i there
      split at object
      · rename_i id isA
        unfold Machine.slot at there
        rw [isA] at there
        dsimp only at there
        split at there
        · cases there
        · split at there
          · cases there
          · cases there
          · cases there
      · cases object
    · cases object
  · rw [samePlain (.inr (by decide))] at zero
    exact eq_of_beq zero

structure SameHalf (m : Machine) (old new : Option Value) : Prop where
  same : m.sameValue (new.getD .undefined) (old.getD .undefined) = true
  -- A function, or its absence, stays the very value it was.
  identical : m.isObject (old.getD .undefined) = true ∨ old.getD .undefined = .undefined → new.getD .undefined = old.getD .undefined

inductive Retains (m : Machine) : Property → Property → Prop where
  | data {v w : Value} {writable writable' enumerable : Bool}
      (readonly : writable = false → writable' = false ∧ m.sameValue w v = true) :
      Retains m (.data v writable enumerable false) (.data w writable' enumerable false)
  | accessor {g s g' s' : Option Value} {enumerable : Bool} (getter : SameHalf m g g') (setter : SameHalf m s s') :
      Retains m (.accessor g s enumerable false) (.accessor g' s' enumerable false)

section Retains

variable {m t : Machine} {p q r : Property}

theorem SameHalf.of {old new} (same : m.sameValue (new.getD .undefined) (old.getD .undefined) = true) :
    SameHalf m old new := ⟨same,sameObject same⟩

theorem SameHalf.trans {a b c} (first : SameHalf m a b) (second : SameHalf m b c) : SameHalf m a c :=
  .of (sameValueTrans second.same first.same)

theorem Retains.refl (fixed : p.configurable = false) : Retains m p p := by
  cases p with
  | data v writable e c =>
    cases (fixed : c = false)
    exact .data fun no => ⟨no,sameValueRefl m v⟩
  | accessor g s e c =>
    cases (fixed : c = false)
    exact .accessor (.of (sameValueRefl m _)) (.of (sameValueRefl m _))

theorem Retains.fixed (kept : Retains m p q) : q.configurable = false := by
  cases kept with
  | data => rfl
  | accessor => rfl

theorem Retains.trans (first : Retains m p q) (second : Retains m q r) : Retains m p r := by
  cases first with
  | data readonly =>
    cases second with
    | data readonly' =>
      refine .data fun no => ?_
      obtain ⟨no',same⟩ := readonly no
      obtain ⟨no'',same'⟩ := readonly' no'
      exact ⟨no'',sameValueTrans same' same⟩
  | accessor getter setter =>
    cases second with
    | accessor getter' setter' => exact .accessor (getter.trans getter') (setter.trans setter')

theorem Redefines.retains (change : Redefines m p q) (fixed : p.configurable = false) : Retains m p q := by
  cases change with
  | loose configurable =>
    rw [fixed] at configurable
    cases configurable
  | writable => exact .data fun no => by cases no
  | same same => exact .data fun _ => ⟨rfl,same⟩
  | accessor getter setter => exact .accessor (.of getter) (.of setter)

def KeepsTexts (m t : Machine) : Prop := ∀ (i : Nat) e, m.heap[i]? = some e → textDigest e ≠ none → t.heap[i]? = some e

theorem KeepsTexts.text (kept : KeepsTexts m t) {id} (known : textDigest (referred m.heap id) ≠ none) :
    referred t.heap id = referred m.heap id := by
  unfold referred at known ⊢
  split at known
  · exact absurd rfl known
  · rename_i inside
    rw [List.getD_eq_getElem?_getD] at known ⊢
    rw [List.getD_eq_getElem?_getD]
    cases found : m.heap[id.slot.toNat-1]? with
    | none =>
      rw [found] at known
      exact absurd rfl known
    | some e =>
      rw [found] at known
      rw [kept _ e found known]

theorem noReference {e bits} : textDigest e ≠ some (.reference bits) := by
  cases e with
  | _ => rintro ⟨⟩

theorem digestFree {v} (free : ∀ id, v.decode ≠ some (.heapRef id)) (heap) :
    keyDigest heap v = keyDigest [] v ∧ ∃ bits, keyDigest heap v = .number bits ∨ keyDigest heap v = .other bits := by
  rcases decodedKinds v with ⟨x,isV⟩ | ⟨x,isV⟩ | ⟨x,isV⟩ | plain
  · rw [digestNumber isV,digestNumber isV]
    exact ⟨rfl,_,.inl rfl⟩
  · rw [digestInt32 isV,digestInt32 isV]
    exact ⟨rfl,_,.inl rfl⟩
  · exact absurd isV (free x)
  · rw [digestPlain plain,digestPlain plain]
    exact ⟨rfl,_,.inr rfl⟩

theorem KeepsTexts.digest (kept : KeepsTexts m t) {a b} (same : keyDigest m.heap a = keyDigest m.heap b) :
    keyDigest t.heap a = keyDigest t.heap b := by
  by_cases refA : ∃ id, a.decode = some (.heapRef id)
  · obtain ⟨x,isA⟩ := refA
    by_cases refB : ∃ id, b.decode = some (.heapRef id)
    · obtain ⟨y,isB⟩ := refB
      rw [digestReferred isA,digestReferred isB] at same ⊢
      cases textA : textDigest (referred m.heap x) with
      | none =>
        cases textB : textDigest (referred m.heap y) with
        | none =>
          rw [textA,textB] at same
          injection same with bits
          have : a = b := by
            cases a
            cases bits
            rfl
          subst this
          rw [isA] at isB
          cases isB
          rfl
        | some other =>
          rw [textA,textB] at same
          exact absurd (textB.trans (congrArg some same.symm)) noReference
      | some text =>
        have textB : textDigest (referred m.heap y) ≠ none := by
          intro none_
          rw [textA,none_] at same
          exact noReference (textA.trans (congrArg some same))
        rw [kept.text (by rw [textA]; rintro ⟨⟩),kept.text textB,textA]
        rw [textA] at same
        exact same
    · obtain ⟨_,bits,digest⟩ := digestFree (fun id isB => refB ⟨id,isB⟩) m.heap
      rw [← same] at digest
      exact (digest.elim (digestNoNumber isA).1 (digestNoNumber isA).2).elim
  · have freeA := digestFree fun id isA => refA ⟨id,isA⟩
    by_cases refB : ∃ id, b.decode = some (.heapRef id)
    · obtain ⟨y,isB⟩ := refB
      obtain ⟨_,bits,digest⟩ := freeA m.heap
      rw [same] at digest
      exact (digest.elim (digestNoNumber isB).1 (digestNoNumber isB).2).elim
    · have freeB := digestFree fun id isB => refB ⟨id,isB⟩
      rw [(freeA t.heap).1,(freeB t.heap).1,← (freeA m.heap).1,← (freeB m.heap).1]
      exact same

theorem KeepsTexts.same (kept : KeepsTexts m t) {a b} (same : m.sameValue a b = true) : t.sameValue a b = true := by
  obtain ⟨zero,sign⟩ := (sameValueIff m a b).mp same
  refine (sameValueIff t a b).mpr ⟨(sameDigest t a b).mpr ?_,sign⟩
  exact kept.digest ((sameDigest m a b).mp zero)

theorem Retains.later (kept : Retains m p q) (texts : KeepsTexts m t) : Retains t p q := by
  cases kept with
  | data readonly =>
    refine .data fun no => ?_
    obtain ⟨no',same⟩ := readonly no
    exact ⟨no',texts.same same⟩
  | accessor getter setter => exact .accessor (.of (texts.same getter.same)) (.of (texts.same setter.same))

end Retains

-- An object whose own properties under `key` are those of its property map.
structure Ordinary (m : Machine) (object : Value) (key : PropertyKey) (i : Nat) : Prop where
  there : m.slot object = .ok (some i)
  described : (m.entry i).kind ∈ HeapEntry.describedKinds
  plain : ¬Elemental (m.entry i) key

structure DescriptorCall where
  extensible : Bool
  descriptor : PropertyDescriptor
  current : Option Property

def DescriptorCall.run (object : Value) (key : PropertyKey) (call : DescriptorCall) : Exec Unit := do
  let _ ← validateAndApply object key call.extensible call.descriptor call.current

section Run

variable {m t : Machine} {object : Value} {key : PropertyKey} {i : Nat} {p : Property}

structure Retaining (object : Value) (key : PropertyKey) (i : Nat) (p : Property) (t : Machine) : Prop where
  ordinary : Ordinary t object key i
  retained : ∃ q, (t.entry i).reported key = some q ∧ Retains t p q

theorem reportedMap {e : HeapEntry} (described : e.kind ∈ HeapEntry.describedKinds) :
    e.reported key = e.header?.bind fun header => header.properties.get key := by
  cases e with
  | array => exact absurd (show Kind.array ∈ HeapEntry.describedKinds from described) (by decide)
  | _ => rw [HeapEntry.reported,if_pos described]; rintro _ _ _ ⟨⟩

theorem textHeadless {e} (text : textDigest e ≠ none) : e.header? = none ∧ e.kind ≠ .array ∧ e.kind ≠ .arrayBuffer := by
  cases e with
  | string | bigInt => exact ⟨rfl,by rintro ⟨⟩,by rintro ⟨⟩⟩
  | _ => exact absurd rfl text

theorem redescribedTexts {d} (kept : Kept False (Redescribes m object key d) m t) : KeepsTexts m t := by
  intro j e found text
  obtain ⟨headless,notArray,notBuffer⟩ := textHeadless text
  obtain ⟨after,at_,rfl | change⟩ := kept.slots j e found
  · exact at_
  · have none_ : ∀ w : BufferChange e after, False := by
      rintro ⟨header,data,bytes,rfl,_⟩
      exact notBuffer rfl
    cases change with
    | buffer write => exact (none_ write).elim
    | define _ change =>
      cases change with
      | buffer write => exact (none_ write).elim
      | length => exact absurd rfl notArray
      | element => exact absurd rfl notArray
      | property _ some_ =>
        rw [headless] at some_
        cases some_

theorem Retaining.step {d} (held : Retaining object key i p m) (kept : Kept False (Redescribes m object key d) m t) : Retaining object key i p t := by
  obtain ⟨⟨there,described,plain⟩,q,reported,retains⟩ := held
  have texts := redescribedTexts kept
  obtain ⟨found,full⟩ := slotFound there
  obtain ⟨after,at_,change⟩ := kept.slots i _ found
  have here : t.entry i = after := by
    rw [Machine.entry,List.getD_eq_getElem?_getD,at_]
    rfl
  have stays : after.kind = (m.entry i).kind → Ordinary t object key i := by
    intro kind
    refine ⟨slotStays there at_ ?_,by rw [here,kind]; exact described,?_⟩
    · rintro rfl
      rw [← kind] at described
      exact absurd described (by decide)
    · rintro ⟨typed,numeric⟩
      rw [here,kind] at typed
      exact plain ⟨typed,numeric⟩
  have noBuffer : ∀ x, BufferChange (m.entry i) x → False := by
    rintro x ⟨header,data,bytes,buffer,_⟩
    rw [buffer] at described
    exact absurd (show Kind.arrayBuffer ∈ HeapEntry.describedKinds from described) (by decide)
  have noArray : (m.entry i).kind ≠ .array := by
    intro array
    rw [array] at described
    exact absurd described (by decide)
  rcases change with rfl | change
  · exact ⟨stays rfl,q,by rw [here]; exact reported,retains.later texts⟩
  · cases change with
    | buffer write => exact (noBuffer _ write).elim
    | define _ change =>
      generalize entry : m.entry i = e at change
      cases change with
      | buffer write =>
        rw [← entry] at write
        exact (noBuffer _ write).elim
      | length =>
        rw [entry] at noArray
        exact absurd rfl noArray
      | element =>
        rw [entry] at noArray
        exact absurd rfl noArray
      | property there' some_ kinds present valid =>
        rw [entry] at reported
        rw [reported] at valid
        have ordinary := stays (by rw [HeapEntry.withPropertiesKind,entry])
        refine ⟨ordinary,_,?_,(retains.trans ((redefinition valid).retains retains.fixed)).later texts⟩
        rw [reportedMap ordinary.described,here,HeapEntry.withPropertiesHeader,some_]
        simp [PropertyMap.getInsert]

theorem Ordinary.called (ordinary : Ordinary m object key i) (call : DescriptorCall) :
    After (call.run object key) m (fun _ t => Kept False (Redescribes m object key call.descriptor) m t)
      (fun _ t => Kept False (Redescribes m object key call.descriptor) m t) := by
  unfold DescriptorCall.run
  rw [afterBind]
  refine (validateSpec False.elim ?_ False.elim).mono (fun _ t kept => kept) (fun _ t refused => refused.kept)
  intro j there array
  rw [ordinary.there] at there
  cases there
  have described := ordinary.described
  rw [array] at described
  exact absurd described (by decide)

end Run

end Bamts.Runtime
