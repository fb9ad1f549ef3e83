import Bamts.RuntimeCollect

/-! Two keys of a collection are the same value, zeros not told apart, exactly when they are hashed from the
same digest. -/
set_option linter.all false
namespace Bamts.Binary64.Double

theorem negateFields (x : Double) : x.negate.bits.toNat % 2^63 = x.bits.toNat % 2^63 ∧ (x.negate.negative = !x.negative) := by
  have top : (0x8000000000000000 : UInt64).toNat = 2^63 := rfl
  have low : (x.bits.toNat ^^^ 2^63) % 2^63 = x.bits.toNat % 2^63 := by
    rw [Nat.xor_mod_two_pow,Nat.mod_self,Nat.xor_zero]
  have high : (x.bits.toNat ^^^ 2^63) / 2^63 = x.bits.toNat / 2^63 ^^^ 1 := by
    rw [Nat.xor_div_two_pow,Nat.div_self (by decide)]
  have small : x.bits.toNat < 2^64 := x.bits.toNat_lt
  have cases_ : x.bits.toNat / 2^63 = 0 ∨ x.bits.toNat / 2^63 = 1 := by omega
  simp only [negate,negative,UInt64.toNat_xor,top]
  refine ⟨low,?_⟩
  rcases cases_ with zero | one
  · rw [zero] at high
    have : 2^63 ≤ x.bits.toNat ^^^ 2^63 := by
      have : (0 ^^^ 1 : Nat) = 1 := rfl
      omega
    rw [decide_eq_true this,decide_eq_false (by omega)]
    rfl
  · rw [one] at high
    have : ¬2^63 ≤ x.bits.toNat ^^^ 2^63 := by
      have : (1 ^^^ 1 : Nat) = 0 := rfl
      omega
    rw [decide_eq_false this,decide_eq_true (by omega)]
    rfl

theorem toIntNegate {x : Double} {z} (whole : x.toInt = some z) : x.negate.toInt = some (-z) := by
  obtain ⟨low,sign⟩ := x.negateFields
  have exponent : x.negate.exponent = x.exponent := by
    simp only [Double.exponent]
    omega
  have fraction : x.negate.fraction = x.fraction := by
    simp only [Double.fraction]
    omega
  have finite : x.negate.isFinite = x.isFinite := by rw [isFinite,isFinite,exponent]
  have magnitude : x.negate.whole = x.whole := by
    have digits : x.negate.significand = x.significand := by rw [significand,significand,exponent,fraction]
    have place : x.negate.scale = x.scale := by rw [scale,scale,exponent]
    rw [Double.whole,Double.whole,digits,place]
  unfold toInt at whole ⊢
  rw [finite,magnitude,sign]
  split at whole
  · rename_i open_
    rw [if_pos open_]
    obtain ⟨n,known,rfl⟩ := Option.map_eq_some_iff.mp whole
    rw [known]
    cases x.negative with
    | true => simp
    | false => simp
  · cases whole

theorem toIntOfZero {x : Double} (zero : x.isZero = true) : x.toInt = some 0 := by
  have bits : x.bits.toNat % 2^63 = 0 := by simpa [isZero] using zero
  have exponent : x.exponent = 0 := by
    simp only [Double.exponent]
    omega
  have fraction : x.fraction = 0 := by
    simp only [Double.fraction]
    omega
  have finite : x.isFinite = true := by rw [isFinite,exponent]; rfl
  have magnitude : x.whole = some 0 := by
    have none : x.significand = 0 := by rw [significand,if_pos exponent,fraction]
    have place : x.scale = 1 := by rw [scale,exponent]; rfl
    rw [whole,none,place,if_neg (by decide),Nat.zero_mod,if_pos rfl,Nat.zero_div]
  rw [toInt,if_pos finite,magnitude]
  simp

end Bamts.Binary64.Double

namespace Bamts.Runtime
open Binary64

theorem int32Whole (raw) : (int32Double raw).toInt = some raw.toInt32.toInt := by
  have low := raw.toInt32.le_toInt
  have high := raw.toInt32.toInt_lt
  unfold int32Double
  cases value : raw.toInt32.toInt with
  | ofNat n =>
    rw [value] at high
    exact Double.toIntOfNat (by simp at high; omega)
  | negSucc n =>
    have whole := Double.toIntOfNat (n := n+1) (by simp at low; omega)
    exact Double.toIntNegate whole

theorem int32Injective {a b} (same : (int32Double a).bits = (int32Double b).bits) : a = b := by
  have doubles : int32Double a = int32Double b := congrArg Double.mk same
  have whole := (int32Whole a).symm.trans (doubles ▸ int32Whole b)
  have signed : a.toInt32 = b.toInt32 := Int32.toInt_inj.mp (Option.some.inj whole)
  have := congrArg Int32.toUInt32 signed
  simpa using this

theorem int32Zero {raw} (zero : (int32Double raw).isZero = true) : (int32Double raw).bits = 0 := by
  have whole := (int32Whole raw).symm.trans (Double.toIntOfZero zero)
  have : raw.toInt32.toInt = 0 := Option.some.inj whole
  rw [int32Double,this]
  rfl

def normalBits (x : Double) : UInt64 := if x.isNaN then Value.canonNan else if x.isZero then 0 else x.bits

theorem canonIsNaN : (⟨Value.canonNan⟩ : Double).isNaN = true := by decide

theorem zeroPlain : (⟨0⟩ : Double).isNaN = false ∧ (⟨0⟩ : Double).isZero = true := by decide

theorem normalInt32 (raw) : normalBits (int32Double raw) = (int32Double raw).bits := by
  rw [normalBits,Double.plainOfInt (int32Whole raw)]
  split
  · rename_i nan
    cases nan
  · split
    · rename_i zero
      exact (int32Zero zero).symm
    · rfl

theorem normalEq (a b) : normalBits a = normalBits b ↔ (a.eq b || a.isNaN && b.isNaN) = true := by
  have mk : ∀ {x : Double} {bits : UInt64}, x.bits = bits → x = ⟨bits⟩ := fun same => congrArg Double.mk same
  unfold normalBits Double.eq
  cases nanA : a.isNaN with
  | true =>
    cases nanB : b.isNaN with
    | true => simp
    | false =>
      cases zeroB : b.isZero with
      | true => simp; decide
      | false =>
        simp
        intro same
        rw [mk same.symm,canonIsNaN] at nanB
        cases nanB
  | false =>
    cases nanB : b.isNaN with
    | true =>
      cases zeroA : a.isZero with
      | true => simp; decide
      | false =>
        simp
        intro same
        rw [mk same,canonIsNaN] at nanA
        cases nanA
    | false =>
      cases zeroA : a.isZero with
      | true =>
        cases zeroB : b.isZero with
        | true => simp
        | false =>
          simp
          constructor
          · intro same
            rw [mk same.symm,zeroPlain.2] at zeroB
            cases zeroB
          · intro same
            rw [mk same,show (⟨b.bits⟩ : Double) = b from rfl,zeroB] at zeroA
            cases zeroA
      | false =>
        cases zeroB : b.isZero with
        | true =>
          simp
          constructor
          · intro same
            rw [mk same,zeroPlain.2] at zeroA
            cases zeroA
          · intro same
            rw [mk same,show (⟨b.bits⟩ : Double) = b from rfl,zeroB] at zeroA
            cases zeroA
        | false => simp

def referred (heap : List HeapEntry) (id : SlotId) : HeapEntry :=
  if id.segment ≠ runtimeHeapSegment then .vacant else heap.getD (id.slot.toNat-1) .vacant

theorem digestReferred {heap key id} (decoded : key.decode = some (.heapRef id)) :
    keyDigest heap key = (textDigest (referred heap id)).getD (.reference key.bits) := by
  simp only [keyDigest,decoded,referred]
  split
  · rfl
  · rfl

theorem slotReferred {m : Machine} {key id} (decoded : key.decode = some (.heapRef id)) :
    ((m.slotOk key).map m.entry).getD .vacant = referred m.heap id := by
  simp only [Machine.slotOk,Machine.slot,decoded,referred]
  by_cases foreign : id.segment ≠ runtimeHeapSegment
  · simp only [if_pos foreign]
    rfl
  · simp only [if_neg foreign,List.getD_eq_getElem?_getD]
    cases found : m.heap[id.slot.toNat-1]? with
    | none => rfl
    | some e =>
      cases e with
      | vacant => rfl
      | _ => simp [Machine.entry,found]

def sameEntries (a b : Option HeapEntry) (otherwise : Bool) : Bool :=
  match a,b with
  | some (.string x), some (.string y) => x == y
  | some (.bigInt x), some (.bigInt y) => x == y
  | _, _ => otherwise

theorem textKinds (a) : textDigest (a.getD .vacant) = none ∨ (∃ text, a = some (.string text)) ∨
    ∃ text, a = some (.bigInt text) := by
  cases a with
  | none => exact .inl rfl
  | some e =>
    cases e with
    | string text => exact .inr (.inl ⟨text,rfl⟩)
    | bigInt text => exact .inr (.inr ⟨text,rfl⟩)
    | _ => exact .inl rfl

theorem sameEntriesPlain {a b same}
    (plain : textDigest (a.getD .vacant) = none ∨ textDigest (b.getD .vacant) = none) : sameEntries a b same = same := by
  unfold sameEntries
  split
  · rcases plain with no | no
    · cases no
    · cases no
  · rcases plain with no | no
    · cases no
    · cases no
  · rfl

theorem sameEntriesDigest (a b) {same x y} (bits : same = true ↔ x = y) (entries : x = y → a = b) :
    sameEntries a b same = true ↔
      (textDigest (a.getD .vacant)).getD (.reference x) = (textDigest (b.getD .vacant)).getD (.reference y) := by
  rcases textKinds a with plainA | ⟨text,rfl⟩ | ⟨text,rfl⟩
  · rw [sameEntriesPlain (.inl plainA),bits,plainA]
    rcases textKinds b with plainB | ⟨text,rfl⟩ | ⟨text,rfl⟩
    · simp [plainB]
    · exact ⟨fun equal => (by rw [entries equal] at plainA; cases plainA),nofun⟩
    · exact ⟨fun equal => (by rw [entries equal] at plainA; cases plainA),nofun⟩
  · rcases textKinds b with plainB | ⟨other,rfl⟩ | ⟨other,rfl⟩
    · rw [sameEntriesPlain (.inr plainB),bits,plainB]
      exact ⟨fun equal => (by rw [← entries equal] at plainB; cases plainB),nofun⟩
    · simp [sameEntries,textDigest]
    · show same = true ↔ _
      rw [bits]
      exact ⟨fun equal => (by cases entries equal),nofun⟩
  · rcases textKinds b with plainB | ⟨other,rfl⟩ | ⟨other,rfl⟩
    · rw [sameEntriesPlain (.inr plainB),bits,plainB]
      exact ⟨fun equal => (by rw [← entries equal] at plainB; cases plainB),nofun⟩
    · show same = true ↔ _
      rw [bits]
      exact ⟨fun equal => (by cases entries equal),nofun⟩
    · simp [sameEntries,textDigest]

theorem sameReferences {m : Machine} {a b left right} (decodedA : a.decode = some (.heapRef left)) (decodedB : b.decode = some (.heapRef right)) :
    m.strictEqual a b = true ↔ keyDigest m.heap a = keyDigest m.heap b := by
  have bits : (a == b) = true ↔ a.bits = b.bits := by
    rw [beq_iff_eq]
    exact ⟨congrArg _,fun same => by cases a; cases b; cases same; rfl⟩
  rw [digestReferred decodedA,digestReferred decodedB,← slotReferred (m := m) decodedA,← slotReferred (m := m) decodedB]
  unfold Machine.strictEqual
  rw [decodedA,decodedB]
  refine sameEntriesDigest _ _ bits fun same => ?_
  have : a = b := by simpa using bits.mpr same
  rw [this]

theorem sameWords {a b : Value} : (a == b) = true ↔ a.bits = b.bits := by
  rw [beq_iff_eq]
  exact ⟨congrArg _,fun same => by cases a; cases b; cases same; rfl⟩

def Value.isPlain (v : Value) : Bool :=
  match v.decode with
  | some (.number _) | some (.int32 _) | some (.heapRef _) => false
  | _ => true

theorem digestPlain {heap v} (plain : v.isPlain = true) : keyDigest heap v = .other v.bits := by
  unfold Value.isPlain at plain
  unfold keyDigest
  split
  all_goals simp_all

theorem samePlain {m : Machine} {a b} (plain : a.isPlain = true ∨ b.isPlain = true) : m.sameValueZero a b = (a == b) := by
  unfold Value.isPlain at plain
  have strict : m.strictEqual a b = (a == b) := by
    unfold Machine.strictEqual
    split
    all_goals simp_all
  unfold Machine.sameValueZero
  split
  all_goals simp_all

theorem decodedKinds (v : Value) : (∃ x, v.decode = some (.number x)) ∨ (∃ raw, v.decode = some (.int32 raw)) ∨
    (∃ id, v.decode = some (.heapRef id)) ∨ v.isPlain = true := by
  cases decoded : v.decode with
  | none => exact .inr (.inr (.inr (by simp [Value.isPlain,decoded])))
  | some kind =>
    cases kind with
    | number x => exact .inl ⟨x,rfl⟩
    | int32 raw => exact .inr (.inl ⟨raw,rfl⟩)
    | heapRef id => exact .inr (.inr (.inl ⟨id,rfl⟩))
    | _ => exact .inr (.inr (.inr (by simp [Value.isPlain,decoded])))

theorem digestNumber {heap v x} (decoded : v.decode = some (.number x)) :
    keyDigest heap v = .number (normalBits x) := by
  simp only [keyDigest,decoded]
  rfl

theorem digestInt32 {heap v raw} (decoded : v.decode = some (.int32 raw)) :
    keyDigest heap v = .number (normalBits (int32Double raw)) := by
  simp only [keyDigest,decoded,normalInt32]

theorem digestNoNumber {heap v id} (decoded : v.decode = some (.heapRef id))
    {bits} : keyDigest heap v ≠ .number bits ∧ keyDigest heap v ≠ .other bits := by
  rw [digestReferred decoded]
  cases referred heap id with
  | _ => exact ⟨nofun,nofun⟩

theorem apartDigest {m : Machine} {a b} (words : m.sameValueZero a b = (a == b)) (kinds : a.decode ≠ b.decode)
    (digests : keyDigest m.heap a ≠ keyDigest m.heap b) :
    m.sameValueZero a b = true ↔ keyDigest m.heap a = keyDigest m.heap b := by
  have apart : (a == b) = false := by
    rw [beq_eq_false_iff_ne]
    exact fun same => kinds (congrArg Value.decode same)
  rw [words,apart]
  exact ⟨nofun,fun same => absurd same digests⟩

theorem plainApart {a b : Value} (plain : a.isPlain = true) (other : b.isPlain = false) : a.decode ≠ b.decode := by
  intro same
  unfold Value.isPlain at plain other
  rw [same,other] at plain
  cases plain

theorem referenceWords {m : Machine} {a b x y} (isA : a.decode = some x) (isB : b.decode = some y)
    (number : (∃ d, x = .number d) ∨ ∃ n, x = .int32 n) (reference : ∃ r, y = .heapRef r) :
    m.sameValueZero a b = (a == b) ∧ m.sameValueZero b a = (b == a) := by
  obtain ⟨r,rfl⟩ := reference
  obtain ⟨d,rfl⟩ | ⟨n,rfl⟩ := number
  · simp only [Machine.sameValueZero,Machine.strictEqual,isA,isB,and_self]
  · simp only [Machine.sameValueZero,Machine.strictEqual,isA,isB,and_self]

/-- The hash agrees with the equality: keys are the same exactly when their digests are. -/
theorem sameDigest (m : Machine) (a b) : m.sameValueZero a b = true ↔ keyDigest m.heap a = keyDigest m.heap b := by
  have comm : ∀ x y : Double, (x.eq y || x.isNaN && y.isNaN) = (y.eq x || y.isNaN && x.isNaN) := by
    intro x y
    rw [Bool.eq_iff_iff,← normalEq,← normalEq]
    exact eq_comm
  rcases decodedKinds a with ⟨x,isA⟩ | ⟨x,isA⟩ | ⟨x,isA⟩ | plainA
  · rcases decodedKinds b with ⟨y,isB⟩ | ⟨y,isB⟩ | ⟨y,isB⟩ | plainB
    · simp only [digestNumber isA,digestNumber isB,KeyDigest.number.injEq,normalEq,Machine.sameValueZero,isA,isB]
    · have whole : (int32Double y).isNaN = false := Double.plainOfInt (int32Whole y)
      simp only [digestNumber isA,digestInt32 isB,KeyDigest.number.injEq,normalEq,Machine.sameValueZero,isA,isB,whole,
        Bool.and_false,Bool.or_false]
    · refine apartDigest (referenceWords isA isB (.inl ⟨x,rfl⟩) ⟨y,rfl⟩).1 (by rw [isA,isB]; rintro ⟨⟩) ?_
      rw [digestNumber isA]
      exact (digestNoNumber isB).1.symm
    · refine apartDigest (samePlain (.inr plainB)) (plainApart plainB (by simp [Value.isPlain,isA])).symm ?_
      rw [digestPlain plainB,digestNumber isA]
      rintro ⟨⟩
  · rcases decodedKinds b with ⟨y,isB⟩ | ⟨y,isB⟩ | ⟨y,isB⟩ | plainB
    · have whole : (int32Double x).isNaN = false := Double.plainOfInt (int32Whole x)
      simp only [digestNumber isB,digestInt32 isA,KeyDigest.number.injEq,normalEq,Machine.sameValueZero,isA,isB]
      rw [comm,whole,Bool.and_false,Bool.or_false]
    · simp only [digestInt32 isB,digestInt32 isA,KeyDigest.number.injEq,normalInt32,Machine.sameValueZero,
        Machine.strictEqual,isA,isB,beq_iff_eq]
      exact ⟨fun same => by rw [same],int32Injective⟩
    · refine apartDigest (referenceWords isA isB (.inr ⟨x,rfl⟩) ⟨y,rfl⟩).1 (by rw [isA,isB]; rintro ⟨⟩) ?_
      rw [digestInt32 isA]
      exact (digestNoNumber isB).1.symm
    · refine apartDigest (samePlain (.inr plainB)) (plainApart plainB (by simp [Value.isPlain,isA])).symm ?_
      rw [digestPlain plainB,digestInt32 isA]
      rintro ⟨⟩
  · rcases decodedKinds b with ⟨y,isB⟩ | ⟨y,isB⟩ | ⟨y,isB⟩ | plainB
    · refine apartDigest (referenceWords isB isA (.inl ⟨y,rfl⟩) ⟨x,rfl⟩).2 (by rw [isA,isB]; rintro ⟨⟩) ?_
      rw [digestNumber isB]
      exact (digestNoNumber isA).1
    · refine apartDigest (referenceWords isB isA (.inr ⟨y,rfl⟩) ⟨x,rfl⟩).2 (by rw [isA,isB]; rintro ⟨⟩) ?_
      rw [digestInt32 isB]
      exact (digestNoNumber isA).1
    · have strict : m.sameValueZero a b = m.strictEqual a b := by simp only [Machine.sameValueZero,isA,isB]
      rw [strict]
      exact sameReferences isA isB
    · refine apartDigest (samePlain (.inr plainB)) (plainApart plainB (by simp [Value.isPlain,isA])).symm ?_
      rw [digestPlain plainB]
      exact (digestNoNumber isA).2
  · rcases decodedKinds b with ⟨y,isB⟩ | ⟨y,isB⟩ | ⟨y,isB⟩ | plainB
    · refine apartDigest (samePlain (.inl plainA)) (plainApart plainA (by simp [Value.isPlain,isB])) ?_
      rw [digestPlain plainA,digestNumber isB]
      rintro ⟨⟩
    · refine apartDigest (samePlain (.inl plainA)) (plainApart plainA (by simp [Value.isPlain,isB])) ?_
      rw [digestPlain plainA,digestInt32 isB]
      rintro ⟨⟩
    · refine apartDigest (samePlain (.inl plainA)) (plainApart plainA (by simp [Value.isPlain,isB])) ?_
      rw [digestPlain plainA]
      exact (digestNoNumber isB).2.symm
    · rw [samePlain (.inl plainA),sameWords,digestPlain plainA,digestPlain plainB,KeyDigest.other.injEq]

end Bamts.Runtime
