import Bamts.BigIntExact
import Bamts.BigIntText
import Bamts.RuntimeBoxing
import Bamts.RuntimeObject
import Bamts.TypedSort

/-! How the elements of a typed array are compared: by a function of the program, or by their numbers. -/
set_option linter.all false
namespace Bamts.Runtime
open Binary64 Effect BigInt StableSort TypedSort

def ElementKind.isBigInt : ElementKind → Bool
  | .bigInt64 | .bigUint64 => true
  | _ => false

def bigintIndex (value : Value) : Exec (Option Nat) := do
  let slot ← runtimeSlot value
  let m ← read
  match slot with
  | none => pure none
  | some index =>
    match m.entry index with
    | .bigInt _ => pure (some index)
    | _ => pure none

def bigintFromValue (value : Value) : Exec (Option BigIntValue) := do
  let index ← bigintIndex value
  let m ← read
  match index with
  | none => pure none
  | some index =>
    match m.entry index with
    | .bigInt text =>
      match parseString text.toList with
      | .ok x => pure (some x)
      | .error _ => fail (rangeError "corrupt BigInt payload on the heap")
    | _ => fail (.panicked .unexpected)

-- `expect` and `unreachable!`
def expected {α : Type} : Option α → Exec α
  | some x => pure x
  | none => fail (.panicked .unexpected)

-- `f64::total_cmp` compares the bits as a sign and a magnitude.
def totalKey (x : Double) : Int := if x.negative then -1-((x.bits.toNat%2^63 : Nat) : Int) else ((x.bits.toNat%2^63 : Nat) : Int)

def zeroOrder (left right : Double) : Ordering :=
  match left.negative,right.negative with
  | true, false => .lt
  | false, true => .gt
  | _, _ => .eq

def numberOrder (left right : Double) : Ordering :=
  match left.isNaN,right.isNaN with
  | true, true => .eq
  | true, false => .gt
  | false, true => .lt
  | false, false =>
    if left.isZero && right.isZero then zeroOrder left right else compare (totalKey left) (totalKey right)

def defaultTypedArrayOrder (kind : ElementKind) (left right : Value) : Exec Ordering :=
  if kind.isBigInt then do
    let found ← bigintFromValue left
    let x ← expected found
    let found ← bigintFromValue right
    let y ← expected found
    pure (x.cmp y)
  else do
    let x ← expected (numericF64 left)
    let y ← expected (numericF64 right)
    pure (numberOrder x y)

structure Calls where
  callValue : Value → Value → List Value → Exec Value
  coerceNumberObservable : Value → Exec Value

def resultOrder (result : Double) : Ordering := if result.isNaN || result.isZero then .eq else if result.negative then .lt else .gt

def compareTypedArrayElements (calls : Calls) (kind : ElementKind) (compare : Option Value) (left right : Value) : Exec Ordering :=
  match compare with
  | none => defaultTypedArrayOrder kind left right
  | some function => do
    let result ← calls.callValue function .undefined [left,right]
    let result ← calls.coerceNumberObservable result
    let result ← expected (numericF64 result)
    pure (resultOrder result)

def stableSortTypedValues (calls : Calls) (kind : ElementKind) (source : Vec Value) (compare : Option Value) : Exec (Vec Value) :=
  stableSort (compareTypedArrayElements calls kind compare) source

-- NaN is above all keys.
def numberRank (x : Double) : Int := if x.isNaN then 2^63 else totalKey x

theorem totalKeyBound (x) : totalKey x < 2^63 := by
  rw [totalKey]
  split
  · omega
  · omega

theorem zeroKeys {x y} (zeroX : x.isZero = true) (zeroY : y.isZero = true) : zeroOrder x y = compare (totalKey x) (totalKey y) := by
  simp only [Double.isZero,beq_iff_eq] at zeroX zeroY
  rw [zeroOrder,totalKey,totalKey,zeroX,zeroY]
  cases x.negative with
  | true =>
    cases y.negative with
    | true => decide
    | false => decide
  | false =>
    cases y.negative with
    | true => decide
    | false => decide

theorem numberOrderRank (x y) : numberOrder x y = compare (numberRank x) (numberRank y) := by
  rw [numberOrder,numberRank,numberRank]
  cases nanX : x.isNaN with
  | true =>
    cases nanY : y.isNaN with
    | true => exact (compare_eq_iff_eq.mpr rfl).symm
    | false => exact (compare_gt_iff_gt.mpr (totalKeyBound y)).symm
  | false =>
    cases nanY : y.isNaN with
    | true => exact (compare_lt_iff_lt.mpr (totalKeyBound x)).symm
    | false =>
      simp only [Bool.false_eq_true,if_false]
      split
      · rename_i zeros
        rw [Bool.and_eq_true] at zeros
        exact zeroKeys zeros.1 zeros.2
      · rfl

theorem rankSame (x y) : numberRank x = numberRank y ↔ Double.SameValue x y := by
  have boundX := totalKeyBound x
  have boundY := totalKeyBound y
  rw [numberRank,numberRank,Double.SameValue]
  cases nanX : x.isNaN with
  | true =>
    cases nanY : y.isNaN with
    | true => exact iff_of_true rfl (.inl ⟨rfl,rfl⟩)
    | false =>
      refine iff_of_false (fun same => ?_) ?_
      · simp only [Bool.false_eq_true,if_true,if_false] at same
        omega
      · rintro (⟨-,nan⟩ | rfl)
        · cases nan
        · rw [nanX] at nanY
          cases nanY
  | false =>
    cases nanY : y.isNaN with
    | true =>
      refine iff_of_false (fun same => ?_) ?_
      · simp only [Bool.false_eq_true,if_true,if_false] at same
        omega
      · rintro (⟨nan,-⟩ | rfl)
        · cases nan
        · rw [nanX] at nanY
          cases nanY
    | false =>
      simp only [Bool.false_eq_true,if_false,false_and,false_or]
      refine ⟨fun same => congrArg Double.mk (UInt64.toNat_inj.mp ?_),fun same => by rw [same]⟩
      have smallX := x.bits.toNat_lt
      have smallY := y.bits.toNat_lt
      simp only [totalKey,Double.negative,decide_eq_true_eq] at same
      split at same
      · split at same
        · omega
        · omega
      · split at same
        · omega
        · omega

theorem magnitudePlace (x) : NumberFormat.magnitude x*2^1075 = (x.significand : ℚ)*2^x.scale := by
  rw [NumberFormat.magnitude,numerator,denominator]
  by_cases large : 1075 ≤ x.scale
  · rw [Nat.sub_eq_zero_of_le large,Nat.pow_zero,Nat.cast_one,div_one]
    push_cast
    rw [mul_assoc,← pow_add,Nat.sub_add_cancel large]
  · have split_ : (2 : ℚ)^1075 = 2^(1075-x.scale)*2^x.scale := by
      rw [← pow_add]
      congr 1
      omega
    rw [Nat.sub_eq_zero_of_le (by omega),Nat.pow_zero,Nat.mul_one,split_,← mul_assoc]
    push_cast
    rw [div_mul_cancel₀ _ (by positivity)]

theorem bitsParts (x : Double) : x.bits.toNat%2^63 = x.exponent*2^52+x.fraction ∧ x.fraction < 2^52 := by
  rw [Double.exponent,Double.fraction]
  omega

theorem significandMono {x y : Double} (less : x.bits.toNat%2^63 ≤ y.bits.toNat%2^63) : x.significand*2^x.scale ≤ y.significand*2^y.scale := by
  obtain ⟨partsX,smallX⟩ := bitsParts x
  obtain ⟨partsY,smallY⟩ := bitsParts y
  rcases Nat.lt_or_ge x.exponent y.exponent with below | above
  · have some_ : y.exponent ≠ 0 := by omega
    have scaleY : y.scale = y.exponent := Nat.max_eq_left (by omega)
    have full : 2^52*2^y.exponent ≤ y.significand*2^y.scale := by
      rw [Double.significand,if_neg some_,scaleY]
      exact Nat.mul_le_mul_right _ (Nat.le_add_right _ _)
    refine Nat.le_trans ?_ full
    rw [Double.significand,Double.scale]
    split
    · rename_i none_
      exact Nat.mul_le_mul smallX.le (Nat.pow_le_pow_right (by decide) (by omega))
    · have scaleX : max x.exponent 1 = x.exponent := Nat.max_eq_left (by omega)
      rw [scaleX]
      calc (2^52+x.fraction)*2^x.exponent ≤ 2^53*2^x.exponent := Nat.mul_le_mul_right _ (by omega)
        _ = 2^52*2^(x.exponent+1) := by rw [Nat.pow_succ]; ring
        _ ≤ 2^52*2^y.exponent := Nat.mul_le_mul_left _ (Nat.pow_le_pow_right (by decide) below)
  · have same : x.exponent = y.exponent := by omega
    have fractions : x.fraction ≤ y.fraction := by omega
    rw [Double.significand,Double.significand,Double.scale,Double.scale,same]
    refine Nat.mul_le_mul_right _ ?_
    split
    · exact fractions
    · exact Nat.add_le_add_left fractions _

theorem magnitudeMono {x y} (less : x.bits.toNat%2^63 ≤ y.bits.toNat%2^63) : NumberFormat.magnitude x ≤ NumberFormat.magnitude y := by
  have positive : (0 : ℚ) < 2^1075 := by positivity
  refine le_of_mul_le_mul_right ?_ positive
  rw [magnitudePlace,magnitudePlace]
  exact_mod_cast significandMono less

theorem keyNumeric {x y} (less : exactNumber x < exactNumber y) : totalKey x < totalKey y := by
  have upX : 0 ≤ NumberFormat.magnitude x := div_nonneg (Nat.cast_nonneg _) (Nat.cast_nonneg _)
  have upY : 0 ≤ NumberFormat.magnitude y := div_nonneg (Nat.cast_nonneg _) (Nat.cast_nonneg _)
  revert less
  rw [exactNumber,exactNumber,totalKey,totalKey]
  cases x.negative with
  | true =>
    cases y.negative with
    | true =>
      intro less
      have bits : y.bits.toNat%2^63 < x.bits.toNat%2^63 := by
        by_contra above
        have more := magnitudeMono (Nat.le_of_not_lt above)
        simp only [if_true] at less
        linarith
      simp only [if_true]
      omega
    | false =>
      simp only [if_true,Bool.false_eq_true,if_false]
      omega
  | false =>
    cases y.negative with
    | true =>
      intro less
      simp only [if_true,Bool.false_eq_true,if_false] at less
      linarith
    | false =>
      intro less
      have bits : x.bits.toNat%2^63 < y.bits.toNat%2^63 := by
        by_contra above
        have more := magnitudeMono (Nat.le_of_not_lt above)
        simp only [Bool.false_eq_true,if_false] at less
        linarith
      simp only [Bool.false_eq_true,if_false]
      exact_mod_cast bits

-- What the default order of numbers promises; infinities bound the rest, and NaN is behind them.
structure Ascending (order : Double → Double → Ordering) : Prop where
  swap : ∀ x y, order y x = (order x y).swap
  trans : ∀ x y z, order x y ≠ .gt → order y z ≠ .gt → order x z ≠ .gt
  same : ∀ x y, order x y = .eq ↔ Double.SameValue x y
  numeric : ∀ x y, x.isFinite = true → y.isFinite = true → exactNumber x < exactNumber y → order x y = .lt
  zeros : order Double.negativeZero Double.zero = .lt
  bottom : ∀ x, order Double.infinity.negate x ≠ .gt
  top : ∀ x, x.isNaN = false → order x Double.infinity ≠ .gt
  last : ∀ x y, x.isNaN = false → y.isNaN = true → order x y = .lt

theorem finitePlain {x : Double} (finite : x.isFinite = true) : ¬x.isNaN = true := by
  rw [Double.isFinite,bne_iff_ne] at finite
  rw [Double.isNaN,Bool.and_eq_true,beq_iff_eq]
  exact fun nan => finite nan.1

theorem plainBits {x : Double} (plain : x.isNaN = false) : x.bits.toNat%2^63 ≤ 2047*2^52 := by
  simp only [Double.isNaN,Double.exponent,Double.fraction,Bool.and_eq_false_iff,beq_eq_false_iff_ne,bne_eq_false_iff_eq] at plain
  omega

theorem numberOrderAscending : Ascending numberOrder := by
  have less : ∀ x y, numberRank x ≤ numberRank y ↔ numberOrder x y ≠ .gt := fun x y => by
    rw [numberOrderRank,Ne,compare_gt_iff_gt,not_lt]
  refine ⟨fun x y => ?_,fun x y z first second => ?_,fun x y => ?_,fun x y finiteX finiteY below => ?_,by decide,fun x => ?_,fun x plain => ?_,
    fun x y plain nan => ?_⟩
  · rw [numberOrderRank,numberOrderRank]
    exact Std.OrientedOrd.eq_swap
  · exact (less x z).mp (((less x y).mpr first).trans ((less y z).mpr second))
  · rw [numberOrderRank,compare_eq_iff_eq,rankSame]
  · rw [numberOrderRank,compare_lt_iff_lt,numberRank,numberRank,if_neg (finitePlain finiteX),if_neg (finitePlain finiteY)]
    exact keyNumeric below
  · refine (less _ x).mp ?_
    have bottom : numberRank Double.infinity.negate = -1-2047*2^52 := by decide
    rw [bottom,numberRank,totalKey]
    split
    · decide
    · rename_i plain
      have bits := plainBits (Bool.eq_false_iff.mpr plain)
      split
      · omega
      · omega
  · refine (less x _).mp ?_
    have top : numberRank Double.infinity = 2047*2^52 := by decide
    have bits := plainBits plain
    rw [top,numberRank,totalKey,plain,if_neg (by decide)]
    split
    · omega
    · omega
  · rw [numberOrderRank,compare_lt_iff_lt,numberRank,numberRank,plain,nan]
    exact totalKeyBound x

def bigintOf (m : Machine) (value : Value) : Option BigIntValue :=
  match m.slot value with
  | .ok (some index) =>
    match m.entry index with
    | .bigInt text => (parseString text.toList).toOption
    | _ => none
  | _ => none

def IsElement (m : Machine) (kind : ElementKind) (value : Value) : Prop :=
  if kind.isBigInt then (bigintOf m value).isSome = true else (numericF64 value).isSome = true

def elementRank (m : Machine) (kind : ElementKind) (value : Value) : Int :=
  if kind.isBigInt then ((bigintOf m value).map BigIntValue.toInt).getD 0 else ((numericF64 value).map numberRank).getD 0

def elementLe (m : Machine) (kind : ElementKind) (left right : Value) : Bool := decide (elementRank m kind left ≤ elementRank m kind right)

section Default
variable {m : Machine} {kind : ElementKind}

theorem bigintFound {value x} (found : bigintOf m value = some x) : bigintFromValue value m = .ok (some x) m := by
  unfold bigintOf at found
  split at found
  · rename_i index slot
    split at found
    · rename_i text entry
      have read_ : parseString text.toList = .ok x := by
        revert found
        cases parseString text.toList with
        | ok y =>
          intro found
          exact congrArg Except.ok (Option.some.inj found)
        | error e =>
          intro found
          cases found
      have index_ : bigintIndex value m = .ok (some index) m := by
        have there : runtimeSlot value m = .ok (some index) m := by
          rw [runtimeSlot,doneBind (rfl : read m = .ok m m),slot]
          rfl
        rw [bigintIndex,doneBind there,doneBind (rfl : read m = .ok m m)]
        dsimp only
        rw [entry]
        rfl
      rw [bigintFromValue,doneBind index_,doneBind (rfl : read m = .ok m m)]
      dsimp only
      rw [entry]
      dsimp only
      rw [read_]
      rfl
    · cases found
  · cases found

theorem ordersBigInts (big : kind.isBigInt = true) {left right x y} (foundX : bigintOf m left = some x)
    (foundY : bigintOf m right = some y) : defaultTypedArrayOrder kind left right m = .ok (compare x.toInt y.toInt) m := by
  rw [defaultTypedArrayOrder,if_pos big,doneBind (bigintFound foundX),doneBind (rfl : expected (some x) m = .ok x m),
    doneBind (bigintFound foundY),doneBind (rfl : expected (some y) m = .ok y m),← BigIntValue.cmpInt]
  rfl

theorem ordersNumbers (plain : kind.isBigInt = false) {left right x y} (foundX : numericF64 left = some x)
    (foundY : numericF64 right = some y) : defaultTypedArrayOrder kind left right m = .ok (numberOrder x y) m := by
  rw [defaultTypedArrayOrder,if_neg (Bool.eq_false_iff.mp plain),foundX,foundY,doneBind (rfl : expected (some x) m = .ok x m),
    doneBind (rfl : expected (some y) m = .ok y m)]
  rfl

theorem ordersElements {left right} (isX : IsElement m kind left) (isY : IsElement m kind right) :
    defaultTypedArrayOrder kind left right m = .ok (compare (elementRank m kind left) (elementRank m kind right)) m := by
  rw [IsElement] at isX isY
  rw [elementRank,elementRank]
  by_cases big : kind.isBigInt = true
  · rw [if_pos big] at isX isY
    obtain ⟨x,foundX⟩ := Option.isSome_iff_exists.mp isX
    obtain ⟨y,foundY⟩ := Option.isSome_iff_exists.mp isY
    rw [if_pos big,if_pos big,ordersBigInts big foundX foundY,foundX,foundY]
    rfl
  · rw [if_neg big] at isX isY
    obtain ⟨x,foundX⟩ := Option.isSome_iff_exists.mp isX
    obtain ⟨y,foundY⟩ := Option.isSome_iff_exists.mp isY
    rw [if_neg big,if_neg big,ordersNumbers (Bool.eq_false_iff.mpr big) foundX foundY,foundX,foundY,numberOrderRank]
    rfl

theorem defaultConsistent (calls) {inside} (elements : ∀ v, inside v → IsElement m kind v) :
    Consistent inside (fun t => t = m) (compareTypedArrayElements calls kind none) (elementLe m kind) fun _ _ => False := by
  refine ⟨⟨fun x y _ _ => ?_,fun x y z _ _ _ first second => ?_⟩,fun x y insideX insideY s same => ?_⟩
  · rw [elementLe,elementLe,decide_eq_true_eq,decide_eq_true_eq]
    exact Int.le_total _ _
  · rw [elementLe,decide_eq_true_eq] at first second ⊢
    exact Int.le_trans first second
  · rw [same]
    unfold After compareTypedArrayElements
    dsimp only
    rw [ordersElements (elements x insideX) (elements y insideY)]
    refine ⟨rfl,?_⟩
    rw [elementLe,decide_eq_true_eq,Ne,compare_gt_iff_gt,not_lt]

end Default

theorem typedSort :
    (∀ calls kind source compare m,
      After (stableSortTypedValues calls kind source compare) m (fun out _ => out.items.Perm source.items) fun _ _ => True) ∧
    (∀ calls kind (source : Vec Value) compare (steady : Machine → Prop) le (E : Fault → Machine → Prop) m,
      Consistent (fun v => v ∈ source.items) steady (compareTypedArrayElements calls kind compare) le E → steady m →
      After (stableSortTypedValues calls kind source compare) m (fun out _ => Arranged (fun v => v ∈ source.items) le source.items out.items ∧
        ∀ other, Arranged (fun v => v ∈ source.items) le source.items other → other = out.items) E) ∧
    (∀ calls kind (source : Vec Value) m, (∀ v ∈ source.items, IsElement m kind v) → ∃ out,
      stableSortTypedValues calls kind source none m = .ok out m ∧ Arranged (fun v => v ∈ source.items) (elementLe m kind) source.items out.items ∧
      ∀ other, Arranged (fun v => v ∈ source.items) (elementLe m kind) source.items other → other = out.items) ∧
    (∀ calls kind m left right, IsElement m kind left → IsElement m kind right → ∃ order,
      compareTypedArrayElements calls kind none left right m = .ok order m ∧ (order ≠ .gt ↔ elementLe m kind left right = true)) ∧
    (∀ calls (kind : ElementKind) m left right x y, kind.isBigInt = true → bigintOf m left = some x → bigintOf m right = some y →
      compareTypedArrayElements calls kind none left right m = .ok (compare x.toInt y.toInt) m) ∧
    (∀ calls (kind : ElementKind) m left right x y, kind.isBigInt = false → numericF64 left = some x → numericF64 right = some y →
      compareTypedArrayElements calls kind none left right m = .ok (numberOrder x y) m) ∧
    Ascending numberOrder := by
  have arranged : ∀ calls kind (source : Vec Value) compare (steady : Machine → Prop) le (E : Fault → Machine → Prop) m,
      Consistent (fun v => v ∈ source.items) steady (compareTypedArrayElements calls kind compare) le E → steady m →
      After (stableSortTypedValues calls kind source compare) m (fun out t => steady t ∧
        Arranged (fun v => v ∈ source.items) le source.items out.items ∧
        ∀ other, Arranged (fun v => v ∈ source.items) le source.items other → other = out.items) E := by
    intro calls kind source compare steady le E m consistent holds
    refine (stableSortArranged consistent (fun _ among => among) holds).mono (fun out t found => ?_) fun _ _ failed => failed
    exact ⟨found.1,found.2,fun other arranged => arrangedUnique consistent.toPreorder (fun _ among => among) arranged found.2⟩
  refine ⟨fun calls kind source compare m => stableSortPerm source m,?_,?_,?_,?_,?_,numberOrderAscending⟩
  · intro calls kind source compare steady le E m consistent holds
    exact (arranged calls kind source compare steady le E m consistent holds).mono (fun _ _ found => found.2) fun _ _ failed => failed
  · intro calls kind source m elements
    have done := arranged calls kind source none _ _ _ m (defaultConsistent calls elements) rfl
    unfold After at done
    cases result : stableSortTypedValues calls kind source none m with
    | error e t =>
      rw [result] at done
      exact done.elim
    | ok out t =>
      rw [result] at done
      obtain ⟨rfl,sorted⟩ := done
      exact ⟨out,rfl,sorted⟩
  · intro calls kind m left right isX isY
    refine ⟨_,ordersElements isX isY,?_⟩
    rw [elementLe,decide_eq_true_eq,Ne,compare_gt_iff_gt,not_lt]
  · intro calls kind m left right x y big foundX foundY
    exact ordersBigInts big foundX foundY
  · intro calls kind m left right x y plain foundX foundY
    exact ordersNumbers plain foundX foundY

end Bamts.Runtime
