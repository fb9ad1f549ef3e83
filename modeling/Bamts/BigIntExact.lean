import Bamts.BigIntBits
import Bamts.NumberSignificand
import Bamts.NumberRadix

/-! Big integers beside numbers, and the arithmetic of big integers as a whole: every operation is the one
of the integers, and an error has its reason in the operands. -/
set_option linter.all false
namespace Bamts.BigInt
open Limbs Binary64 NumberFormat Bamts.Runtime

def exactNumber (x : Double) : ℚ := if x.negative then -NumberFormat.magnitude x else NumberFormat.magnitude x

def wholePart (x : Double) : Nat := numerator x/denominator x

def fromF64Bits (x : Double) : BigIntValue :=
  if x.isZero then BigIntValue.zero
  else
    let mantissa := if x.exponent = 0 then x.fraction else x.fraction ||| 2^52
    let base := trim [UInt32.ofNat mantissa,UInt32.ofNat (mantissa/2^32)]
    fromParts x.negative (if 1075 ≤ x.exponent then magShlBits base (x.exponent-1075) else magShrBits base (1075-x.exponent))

def compareWithF64 (x : BigIntValue) (other : Double) : Option Ordering :=
  if other.isNaN then none
  else if other = Double.infinity then some .lt
  else if other = Double.infinity.negate then some .gt
  else
    let truncated := trunc other
    let order := x.cmp (fromF64Bits truncated)
    if order ≠ .eq then some order else some (compare (exactNumber truncated) (exactNumber other))

theorem fromF64Int (x) : (fromF64Bits x).toInt = signedInt x.negative (wholePart x) := by
  have mantissa : (if x.exponent = 0 then x.fraction else x.fraction ||| 2^52) = x.significand := by
    have parts := congrArg Prod.fst (decomposeScale x)
    rw [decompose] at parts
    refine Eq.trans ?_ parts
    split <;> rfl
  have small := significandLt x
  have base : value [UInt32.ofNat x.significand,UInt32.ofNat (x.significand/2^32)] = x.significand := by
    rw [valueCons,valueCons,valueNil,ofNatToNat,ofNatToNat]
    omega
  unfold fromF64Bits
  rw [mantissa]
  split
  · rename_i zero
    rw [wholePart,zeroNumerator zero,Nat.zero_div,signedZero]
    rfl
  · rw [BigIntValue.toIntFromParts]
    split
    · rename_i large
      have scale : x.scale = x.exponent := Nat.max_eq_left (by omega)
      rw [magShlBitsValue,valueTrim,base,wholePart,numerator,denominator,scale,Nat.sub_eq_zero_of_le large,Nat.pow_zero,Nat.div_one]
    · rename_i short
      rw [magShrBitsValue,valueTrim,base,wholePart,numerator,denominator]
      by_cases tiny : x.exponent = 0
      · have scale : x.scale = 1 := by rw [Double.scale,tiny]; rfl
        have fraction : ∀ n, 52 ≤ n → x.significand < 2^n := fun n far => by
          rw [Double.significand,if_pos tiny]
          exact Nat.lt_of_lt_of_le (Nat.mod_lt _ (by decide)) (Nat.pow_le_pow_right (by decide) far)
        rw [tiny,scale,Nat.sub_zero,Nat.sub_eq_zero_of_le (by decide),Nat.pow_zero,Nat.mul_one,Nat.div_eq_of_lt (fraction _ (by decide)),
          Nat.div_eq_of_lt (fraction _ (by decide))]
      · have scale : x.scale = x.exponent := Nat.max_eq_left (Nat.one_le_iff_ne_zero.mpr tiny)
        rw [scale,Nat.sub_eq_zero_of_le (Nat.le_of_not_le short),Nat.pow_zero,Nat.mul_one]

theorem fieldsOf {x : Double} {sign : Bool} {e f} (bits : x.bits.toNat = (if sign then 2^63 else 0)+e*2^52+f) (exponent : e < 2^11)
    (fraction : f < 2^52) : x.negative = sign ∧ x.exponent = e ∧ x.fraction = f := by
  rw [Double.negative,Double.exponent,Double.fraction,bits]
  cases sign with
  | false =>
    rw [if_neg Bool.false_ne_true]
    exact ⟨decide_eq_false (by omega),by omega,by omega⟩
  | true =>
    rw [if_pos rfl]
    exact ⟨decide_eq_true (by omega),by omega,by omega⟩

theorem truncParts (x) : (trunc x).negative = x.negative ∧ numerator (trunc x) = wholePart x*denominator (trunc x) := by
  have bits := Double.bitsSplit x
  have fraction : x.fraction < 2^52 := Nat.mod_lt _ (by decide)
  have exponent : x.exponent < 2^11 := Nat.mod_lt _ (by decide)
  unfold trunc
  split
  · rename_i tiny
    have top : (x.bits &&& 0x8000000000000000).toNat = (if x.negative then 2^63 else 0)+0*2^52+0 := by
      have mask : (0x8000000000000000 : UInt64).toNat = 2^63 := rfl
      have small : x.bits.toNat < 2^(63+1) := x.bits.toNat_lt
      have high := BigIntValue.highBit small
      rw [UInt64.toNat_and,mask,Nat.and_two_pow,Double.negative]
      by_cases reached : 2^63 ≤ x.bits.toNat
      · rw [high.mpr reached,decide_eq_true reached]
        rfl
      · rw [Bool.eq_false_iff.mpr fun bit => reached (high.mp bit),decide_eq_false reached]
        rfl
    obtain ⟨sign,none_,nothing⟩ := fieldsOf (show (Double.mk (x.bits &&& 0x8000000000000000)).bits.toNat = _ from top) (by decide) (by decide)
    have scale : x.scale ≤ 1022 := Nat.max_le.mpr ⟨Nat.le_of_lt_succ tiny,by decide⟩
    have below : numerator x < denominator x := by
      have short : x.significand < 2^53 := by
        rw [Double.significand]
        split <;> omega
      rw [numerator,denominator,Nat.sub_eq_zero_of_le (Nat.le_trans scale (by decide)),Nat.pow_zero,Nat.mul_one]
      exact Nat.lt_of_lt_of_le short (Nat.pow_le_pow_right (by decide) (by omega))
    refine ⟨sign,?_⟩
    rw [wholePart,Nat.div_eq_of_lt below,Nat.zero_mul,numerator,Double.significand,if_pos none_,nothing,Nat.zero_mul]
  · split
    · rename_i whole
      have scale : x.scale = x.exponent := Nat.max_eq_left (by omega)
      refine ⟨rfl,?_⟩
      rw [wholePart,denominator,scale,Nat.sub_eq_zero_of_le whole,Nat.pow_zero,Nat.div_one,Nat.mul_one]
    · rename_i tiny short
      have scale : x.scale = x.exponent := Nat.max_eq_left (by omega)
      have some_ : x.exponent ≠ 0 := by omega
      have inside : 2^(1075-x.exponent) ∣ 2^52 := Nat.pow_dvd_pow 2 (by omega)
      have low : x.bits.toNat%2^(1075-x.exponent) = x.fraction%2^(1075-x.exponent) := by rw [Double.fraction,Nat.mod_mod_of_dvd _ inside]
      have less := Nat.mod_le x.fraction (2^(1075-x.exponent))
      have small : x.bits.toNat < 2^64 := x.bits.toNat_lt
      have behind : (2^52+x.fraction)%2^(1075-x.exponent) = x.fraction%2^(1075-x.exponent) := by
        obtain ⟨k,parts⟩ := inside
        rw [parts,Nat.mul_add_mod]
      have whole := Nat.div_add_mod (2^52+x.fraction) (2^(1075-x.exponent))
      have kept : (Double.mk (UInt64.ofNat (x.bits.toNat-x.bits.toNat%2^(1075-x.exponent)))).bits.toNat =
          (if x.negative then 2^63 else 0)+x.exponent*2^52+(x.fraction-x.fraction%2^(1075-x.exponent)) := by
        rw [UInt64.toNat_ofNat',Nat.mod_eq_of_lt (by omega),low]
        omega
      obtain ⟨sign,exponent',fraction'⟩ := fieldsOf kept exponent (by omega)
      refine ⟨sign,?_⟩
      rw [wholePart,numerator,numerator,denominator,denominator,Double.scale,exponent',Nat.max_eq_left (Nat.one_le_iff_ne_zero.mpr some_),scale,
        show x.exponent-1075 = 0 by omega,Nat.pow_zero,Nat.mul_one,Nat.mul_one,Double.significand,Double.significand,exponent',if_neg some_,if_neg some_,
        fraction',Nat.mul_comm]
      omega

theorem exactWhole (x) : exactNumber (trunc x) = (signedInt x.negative (wholePart x) : ℚ) := by
  obtain ⟨sign,parts⟩ := truncParts x
  have positive : (denominator (trunc x) : ℚ) ≠ 0 := Nat.cast_ne_zero.mpr (Nat.two_pow_pos _).ne'
  have size : magnitude (trunc x) = wholePart x := by
    rw [magnitude,parts,Nat.cast_mul,mul_div_cancel_right₀ _ positive]
  rw [exactNumber,sign,size]
  cases x.negative
  · rfl
  · exact (Int.cast_neg _).symm

theorem wholeBounds (x) : (wholePart x : ℚ) ≤ magnitude x ∧ magnitude x < wholePart x+1 := by
  have positive : 0 < (denominator x : ℚ) := Nat.cast_pos.mpr (Nat.two_pow_pos _)
  have floor_ : ⌊magnitude x⌋₊ = wholePart x := by rw [magnitude,Nat.floor_div_eq_div,wholePart]
  have nonnegative : 0 ≤ magnitude x := div_nonneg (Nat.cast_nonneg _) positive.le
  rw [← floor_]
  exact ⟨Nat.floor_le nonnegative,Nat.lt_floor_add_one _⟩

theorem wholeOrder {z x} (differs : z ≠ signedInt x.negative (wholePart x)) :
    compare z (signedInt x.negative (wholePart x)) = compare (z : ℚ) (exactNumber x) := by
  obtain ⟨least,most⟩ := wholeBounds x
  rw [exactNumber]
  cases negative : x.negative with
  | false =>
    rw [negative,signedFalse] at differs
    rw [signedFalse,if_neg Bool.false_ne_true]
    rcases lt_or_gt_of_ne differs with below | above
    · have less : (z : ℚ) < wholePart x := by exact_mod_cast below
      rw [compare_lt_iff_lt.mpr below,compare_lt_iff_lt.mpr (lt_of_lt_of_le less least)]
    · have more : (wholePart x : ℚ)+1 ≤ z := by exact_mod_cast Int.add_one_le_of_lt above
      rw [compare_gt_iff_gt.mpr above,compare_gt_iff_gt.mpr (lt_of_lt_of_le most more)]
  | true =>
    rw [negative,signedTrue] at differs
    rw [signedTrue,if_pos rfl]
    rcases lt_or_gt_of_ne differs with below | above
    · have less : (z : ℚ)+1 ≤ -(wholePart x : ℚ) := by exact_mod_cast Int.add_one_le_of_lt below
      rw [compare_lt_iff_lt.mpr below,compare_lt_iff_lt.mpr (show (z : ℚ) < -magnitude x by linarith)]
    · have more : -(wholePart x : ℚ) < z := by exact_mod_cast above
      rw [compare_gt_iff_gt.mpr above,compare_gt_iff_gt.mpr (show -magnitude x < (z : ℚ) by linarith)]

theorem compareFinite (x) {other} (finite : other.isFinite = true) :
    compareWithF64 x other = some (compare (x.toInt : ℚ) (exactNumber other)) := by
  have plain : ¬other.isNaN = true := by
    rw [Double.isFinite,bne_iff_ne] at finite
    rw [Double.isNaN,Bool.and_eq_true,beq_iff_eq]
    exact fun nan => finite nan.1
  have up : other ≠ Double.infinity := fun same => by rw [same] at finite; cases finite
  have down : other ≠ Double.infinity.negate := fun same => by rw [same] at finite; cases finite
  have sign := (truncParts other).1
  have same : wholePart (trunc other) = wholePart other := by
    have positive : 0 < denominator (trunc other) := Nat.two_pow_pos _
    rw [wholePart,(truncParts other).2,Nat.mul_div_cancel _ positive]
  rw [compareWithF64,if_neg plain,if_neg up,if_neg down]
  dsimp only
  rw [BigIntValue.cmpInt,fromF64Int,sign,same,exactWhole]
  by_cases equal : x.toInt = signedInt other.negative (wholePart other)
  · rw [← equal,compare_eq_iff_eq.mpr rfl,if_neg (not_not.mpr rfl)]
  · rw [wholeOrder equal,if_pos]
    intro met
    rw [← wholeOrder equal,compare_eq_iff_eq] at met
    exact equal met

theorem finiteElse {x} (plain : ¬x.isNaN = true) (up : x ≠ Double.infinity) (down : x ≠ Double.infinity.negate) : x.isFinite = true := by
  rw [Double.isFinite,bne_iff_ne]
  intro top
  have fraction : x.fraction = 0 := by
    by_contra some_
    refine plain ?_
    rw [Double.isNaN,top,bne_iff_ne.mpr some_]
    rfl
  cases sign : x.negative with
  | false => exact up (Double.sameOfFields sign top fraction)
  | true => exact down (Double.sameOfFields sign top fraction)

theorem compareExact (x other) : compareWithF64 x other =
    if other.isNaN then none else if other = Double.infinity then some .lt else if other = Double.infinity.negate then some .gt
    else some (compare (x.toInt : ℚ) (exactNumber other)) := by
  by_cases nan : other.isNaN = true
  · rw [compareWithF64,if_pos nan,if_pos nan]
  · by_cases up : other = Double.infinity
    · rw [compareWithF64,if_neg nan,if_neg nan,if_pos up,if_pos up]
    · by_cases down : other = Double.infinity.negate
      · rw [compareWithF64,if_neg nan,if_neg nan,if_neg up,if_neg up,if_pos down,if_pos down]
      · rw [compareFinite x (finiteElse nan up down),if_neg nan,if_neg up,if_neg down]

theorem arithmeticExact :
    (∀ x y : BigIntValue, x.toInt = y.toInt → x = y) ∧
    (∀ x y : BigIntValue, x.neg.toInt = -x.toInt ∧ (x.add y).toInt = x.toInt+y.toInt ∧ (x.sub y).toInt = x.toInt-y.toInt ∧
      (x.mul y).toInt = x.toInt*y.toInt) ∧
    (∀ x y : BigIntValue, y.toInt = 0 → x.divRem y = .error (.range "BigInt division by zero")) ∧
    (∀ x y : BigIntValue, y.toInt ≠ 0 →
      ∃ q r, x.divRem y = .ok (q,r) ∧ q.toInt = x.toInt.tdiv y.toInt ∧ r.toInt = x.toInt.tmod y.toInt) ∧
    (∀ x y : BigIntValue, (x.exponentiate y).map BigIntValue.toInt = power x.toInt y.toInt) ∧
    (∀ x y : BigIntValue, (x.shl y).map BigIntValue.toInt = shifted x.toInt y.toInt ∧ (x.shr y).map BigIntValue.toInt = shifted x.toInt (-y.toInt)) ∧
    (∀ x y : BigIntValue, x.bitNot.toInt = Int.lnot x.toInt ∧ (x.bitAnd y).toInt = Int.land x.toInt y.toInt ∧
      (x.bitOr y).toInt = Int.lor x.toInt y.toInt ∧ (x.bitXor y).toInt = Int.xor x.toInt y.toInt) ∧
    (∀ (x : BigIntValue) (bits : Nat), (x.asUintN bits).toInt = x.toInt%2^bits ∧ (x.asIntN bits).toInt = x.toInt.bmod (2^bits)) ∧
    (∀ x y : BigIntValue, x.cmp y = compare x.toInt y.toInt) ∧
    ∀ (x : BigIntValue) (other : Double), compareWithF64 x other =
      if other.isNaN then none else if other = Double.infinity then some .lt else if other = Double.infinity.negate then some .gt
      else some (compare (x.toInt : ℚ) (exactNumber other)) := by
  refine ⟨fun x y same => BigIntValue.unique same,?_,fun x y none_ => x.divRemZero y none_,fun x y some_ => x.divRemInt y some_,
    fun x y => x.exponentiateInt y,fun x y => ⟨x.shlInt y,x.shrInt y⟩,?_,fun x bits => ⟨x.asUintNInt bits,x.asIntNInt bits⟩,
    fun x y => x.cmpInt y,compareExact⟩
  · intro x y
    exact ⟨x.toIntNeg,x.toIntAdd y,x.toIntSub y,x.toIntMul y⟩
  · intro x y
    exact ⟨x.bitNotInt,x.bitwiseInt y .and,x.bitwiseInt y .or,x.bitwiseInt y .xor⟩

theorem powerRefused : BigIntValue.exponentiate (fromParts false [2]) (fromParts false [3000000]) = .error (.range "BigInt value is too large") ∧
    ((fromParts false [2]).toInt^(fromParts false [3000000]).toInt.natAbs).natAbs.size ≤ maxValueBits := by
  refine ⟨by decide,?_⟩
  have base : (fromParts false [2]).toInt = 2 := by decide
  have exponent : (fromParts false [3000000]).toInt.natAbs = 3000000 := by decide
  have size : ∀ n, (Int.natAbs 2^n).size = n+1 := fun n => Nat.size_pow
  rw [base,exponent,Int.natAbs_pow,size]
  decide

end Bamts.BigInt
