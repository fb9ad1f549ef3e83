import Bamts.NumberFixed
import Mathlib.Data.Int.Log
import Mathlib.Data.Rat.Floor
import Mathlib.Algebra.Order.Floor.Semifield
import Mathlib.Tactic.NormNum
import Mathlib.Tactic.FieldSimp

/-! The significand of `toPrecision` and `toExponential`: the exponent moves until the rounded number
has as many digits as asked for. -/
set_option linter.all false
namespace Bamts.NumberFormat
open Limbs Numeral Binary64 Bytecode Bamts.Runtime

def significandLoop (value : Double) (precision : Nat) : Nat → Int → Option (List UInt16 × Int)
  | 0, _ => none
  | fuel+1, exponent =>
    let digits := (exactRoundScaled value ((precision : Int)-1-exponent)).toDecimalString
    if precision < digits.length then significandLoop value precision fuel (exponent+1)
    else if digits.length < precision then significandLoop value precision fuel (exponent-1)
    else some (digits,exponent)

def roundedSignificand (value : Double) (precision fuel : Nat) : Option (List UInt16 × Int) :=
  significandLoop value precision fuel (shortestDigits value).2

def magnitude (x : Double) : ℚ := (numerator x : ℚ)/denominator x

-- The multiple of `10^(exponent-precision+1)` nearest to `value`, by its digits.
def Rounds (value : Double) (precision : Nat) (digits : List UInt16) (exponent : Int) : Prop :=
  ∃ n, digits = spelled (numeral 10 n) ∧ 10^(precision-1) ≤ n ∧ n < 10^precision ∧
    n = ⌊magnitude value*10^((precision : Int)-1-exponent)+1/2⌋₊

def decimalExponent (value : Double) : Int := Int.log 10 (magnitude value)

theorem scaledRatio (x scale) : (top x scale : ℚ)/bottom x scale = magnitude x*10^scale := by
  rw [top,bottom,magnitude]
  rcases Int.le_total 0 scale with up | down
  · have none_ : (-scale).toNat = 0 := by omega
    have same : (10 : ℚ)^scale = 10^scale.toNat := by
      rw [← zpow_natCast,Int.toNat_of_nonneg up]
    rw [none_,same]
    push_cast
    ring
  · have none_ : scale.toNat = 0 := by omega
    have same : (10 : ℚ)^scale = (10^(-scale).toNat)⁻¹ := by
      rw [← zpow_natCast,Int.toNat_of_nonneg (by omega),← zpow_neg,neg_neg]
    rw [none_,same]
    push_cast
    rw [mul_one,div_mul_eq_div_div]
    exact div_eq_mul_inv _ _

theorem quotientFloor (x scale) : top x scale/bottom x scale = ⌊magnitude x*10^scale⌋₊ := by
  rw [← scaledRatio,Nat.floor_div_eq_div]

theorem nearestFloor (x scale) : nearestMultiple (top x scale) (bottom x scale) = ⌊magnitude x*10^scale+1/2⌋₊ := by
  have positive : (bottom x scale : ℚ) ≠ 0 := Nat.cast_ne_zero.mpr (bottomPositive x scale).ne'
  have ratio : magnitude x*10^scale+1/2 = ((2*top x scale+bottom x scale : Nat) : ℚ)/((2*bottom x scale : Nat) : ℚ) := by
    rw [← scaledRatio]
    push_cast
    field_simp
  rw [ratio,Nat.floor_div_eq_div,nearestMultiple]

def computed (value : Double) (precision : Nat) (exponent : Int) : Nat := (exactRoundScaled value ((precision : Int)-1-exponent)).value

theorem computedExact (value precision exponent) :
    computed value precision exponent = ⌊magnitude value*10^((precision : Int)-1-exponent)+1/2⌋₊ ↔
    OneLimb ⌊magnitude value*10^((precision : Int)-1-exponent)⌋₊ := by
  rw [← nearestFloor,← quotientFloor]
  exact exactRoundExact value _

theorem spelledLength (n) : (spelled (numeral 10 n)).length = (numeral 10 n).length := List.length_map _

theorem tooLong {n precision} (positive : 0 < precision) : precision < (numeral 10 n).length ↔ 10^precision ≤ n := by
  rw [← Nat.not_le,numeralLength (by decide) positive,Nat.not_lt]

theorem tooShort {n precision} (positive : 0 < precision) (some_ : 0 < n) : (numeral 10 n).length < precision ↔ n < 10^(precision-1) := by
  obtain ⟨less,rfl⟩ : ∃ less, precision = less+1 := ⟨precision-1,by omega⟩
  rw [Nat.add_sub_cancel,Nat.lt_succ_iff]
  rcases Nat.eq_zero_or_pos less with none_ | more
  · have digit : 0 < (numeral 10 n).length := numeralPositive n
    rw [none_,Nat.pow_zero]
    omega
  · exact numeralLength (by decide) more

section Loop
variable {value : Double} {precision fuel : Nat} {exponent : Int}

theorem loopTurn : significandLoop value precision (fuel+1) exponent =
    if precision < (numeral 10 (computed value precision exponent)).length then significandLoop value precision fuel (exponent+1)
    else if (numeral 10 (computed value precision exponent)).length < precision then significandLoop value precision fuel (exponent-1)
    else some (spelled (numeral 10 (computed value precision exponent)),exponent) := by
  simp only [significandLoop,Big.toDecimalStringNumeral,spelledLength]
  rfl

theorem loopResult {digits last} (found : significandLoop value precision fuel exponent = some (digits,last)) :
    digits = spelled (numeral 10 (computed value precision last)) := by
  induction fuel generalizing exponent with
  | zero => cases found
  | succ fuel ih =>
    rw [loopTurn] at found
    split at found
    · exact ih found
    · split at found
      · exact ih found
      · cases Option.some.inj found
        rfl

theorem loopStops (positive : 0 < precision) (low : 10^(precision-1) ≤ computed value precision exponent)
    (high : computed value precision exponent < 10^precision) :
    significandLoop value precision (fuel+1) exponent = some (spelled (numeral 10 (computed value precision exponent)),exponent) := by
  have some_ : 0 < computed value precision exponent := Nat.lt_of_lt_of_le (Nat.pow_pos (by decide)) low
  rw [loopTurn,if_neg (by rw [tooLong positive]; omega),if_neg (by rw [tooShort positive some_]; omega)]

theorem loopRises (positive : 0 < precision) (high : 10^precision ≤ computed value precision exponent) :
    significandLoop value precision (fuel+1) exponent = significandLoop value precision fuel (exponent+1) := by
  rw [loopTurn,if_pos ((tooLong positive).mpr high)]

theorem loopFalls (positive : 0 < precision) (some_ : 0 < computed value precision exponent)
    (low : computed value precision exponent < 10^(precision-1)) :
    significandLoop value precision (fuel+1) exponent = significandLoop value precision fuel (exponent-1) := by
  have short := (tooShort positive some_).mpr low
  rw [loopTurn,if_neg (Nat.not_lt.mpr (Nat.le_of_lt short)),if_pos short]

end Loop

section Leading
variable {value : Double} {precision : Nat}

theorem leadingBounds (positive : 0 < magnitude value) (precision : Nat) (exponent) :
    (10 : ℚ)^((precision : Int)-1+(decimalExponent value-exponent)) ≤ magnitude value*10^((precision : Int)-1-exponent) ∧
    magnitude value*10^((precision : Int)-1-exponent) < 10^((precision : Int)+(decimalExponent value-exponent)) := by
  have least : (10 : ℚ)^decimalExponent value ≤ magnitude value := by exact_mod_cast Int.zpow_log_le_self (b := 10) (by decide) positive
  have most : magnitude value < (10 : ℚ)^(decimalExponent value+1) := by exact_mod_cast Int.lt_zpow_succ_log_self (b := 10) (by decide) (magnitude value)
  have power : (0 : ℚ) < 10^((precision : Int)-1-exponent) := zpow_pos (by norm_num) _
  have ten : (10 : ℚ) ≠ 0 := by norm_num
  constructor
  · calc (10 : ℚ)^((precision : Int)-1+(decimalExponent value-exponent))
        = 10^decimalExponent value*10^((precision : Int)-1-exponent) := by
          rw [← zpow_add₀ ten]
          congr 1
          omega
      _ ≤ magnitude value*10^((precision : Int)-1-exponent) := mul_le_mul_of_nonneg_right least power.le
  · calc magnitude value*10^((precision : Int)-1-exponent)
        < 10^(decimalExponent value+1)*10^((precision : Int)-1-exponent) := mul_lt_mul_of_pos_right most power
      _ = 10^((precision : Int)+(decimalExponent value-exponent)) := by
          rw [← zpow_add₀ ten]
          congr 1
          omega

theorem atLeading (positive : 0 < magnitude value) (some_ : 0 < precision) :
    (10 : ℚ)^(precision-1) ≤ magnitude value*10^((precision : Int)-1-decimalExponent value) ∧
    magnitude value*10^((precision : Int)-1-decimalExponent value) < 10^precision := by
  obtain ⟨low,high⟩ := leadingBounds positive precision (decimalExponent value)
  have less : (precision : Int)-1+0 = ((precision-1 : Nat) : Int) := by omega
  rw [sub_self,less,zpow_natCast] at low
  rw [sub_self,add_zero,zpow_natCast] at high
  exact ⟨low,high⟩

theorem aboveLeading (value) (precision : Nat) (exponent) :
    magnitude value*10^((precision : Int)-1-(exponent+1)) = magnitude value*10^((precision : Int)-1-exponent)/10 := by
  have ten : (10 : ℚ) ≠ 0 := by norm_num
  have less : (precision : Int)-1-(exponent+1) = (precision : Int)-1-exponent-1 := by omega
  rw [less,zpow_sub_one₀ ten]
  ring

theorem lastExponent {digits exponent} (positive : 0 < magnitude value) (some_ : 0 < precision)
    (rounds : Rounds value precision digits exponent) : exponent = decimalExponent value ∨ exponent = decimalExponent value+1 := by
  obtain ⟨n,-,low,high,nearest⟩ := rounds
  obtain ⟨least,most⟩ := leadingBounds positive precision exponent
  have ten : (1 : ℚ) ≤ 10 := by norm_num
  have whole : (1 : ℚ) ≤ 10^(precision-1) := one_le_pow₀ ten
  rcases Int.lt_trichotomy exponent (decimalExponent value) with before | same | after
  · exfalso
    have reach : (10 : ℚ)^precision ≤ magnitude value*10^((precision : Int)-1-exponent) := by
      calc (10 : ℚ)^precision = 10^(precision : Int) := (zpow_natCast _ _).symm
        _ ≤ 10^((precision : Int)-1+(decimalExponent value-exponent)) := zpow_le_zpow_right₀ ten (by omega)
        _ ≤ _ := least
    have large : 10^precision ≤ n := by
      rw [nearest]
      refine Nat.le_floor ?_
      push_cast
      linarith
    omega
  · exact .inl same
  · refine .inr ?_
    by_contra other
    have far : magnitude value*10^((precision : Int)-1-exponent) < 10^(precision-1)/10 := by
      calc magnitude value*10^((precision : Int)-1-exponent) < 10^((precision : Int)+(decimalExponent value-exponent)) := most
        _ ≤ 10^(((precision-1 : Nat) : Int)-1) := zpow_le_zpow_right₀ ten (by omega)
        _ = 10^(precision-1)/10 := by rw [zpow_sub_one₀ (by norm_num),zpow_natCast]; ring
    have small : n < 10^(precision-1) := by
      rw [nearest,Nat.floor_lt (by linarith [mul_pos positive (zpow_pos (show (0 : ℚ) < 10 by norm_num) ((precision : Int)-1-exponent))])]
      push_cast
      linarith
    omega

def leadingQuotient (value : Double) (precision : Nat) : Nat := ⌊magnitude value*10^((precision : Int)-1-decimalExponent value)⌋₊

theorem leadingRange (positive : 0 < magnitude value) (some_ : 0 < precision) :
    10^(precision-1) ≤ leadingQuotient value precision ∧ leadingQuotient value precision < 10^precision := by
  obtain ⟨low,high⟩ := atLeading positive some_
  have power : (0 : ℚ) ≤ 10^(precision-1) := by positivity
  constructor
  · refine Nat.le_floor ?_
    push_cast
    exact low
  · rw [leadingQuotient,Nat.floor_lt (power.trans low)]
    push_cast
    exact high

theorem roundedOver (positive : 0 < magnitude value) (some_ : 0 < precision)
    (over_ : ¬⌊magnitude value*10^((precision : Int)-1-decimalExponent value)+1/2⌋₊ < 10^precision) :
    ⌊magnitude value*10^((precision : Int)-1-(decimalExponent value+1))⌋₊ = 10^(precision-1)-1 ∧
    ⌊magnitude value*10^((precision : Int)-1-(decimalExponent value+1))+1/2⌋₊ = 10^(precision-1) ∧
    leadingQuotient value precision = 10^precision-1 := by
  obtain ⟨low,high⟩ := atLeading positive some_
  obtain ⟨less,rfl⟩ : ∃ less, precision = less+1 := ⟨precision-1,by omega⟩
  rw [Nat.add_sub_cancel] at low ⊢
  rw [aboveLeading,leadingQuotient]
  generalize magnitude value*10^(((less+1 : Nat) : Int)-1-decimalExponent value) = y at low high over_ ⊢
  have whole : 0 < 10^less := Nat.pow_pos (by decide)
  have ten : (10 : ℚ)^(less+1) = 10*10^less := by ring
  have unit : (1 : ℚ) ≤ 10^less := by exact_mod_cast whole
  have close : (10 : ℚ)^(less+1) ≤ y+1/2 := by
    have floor := Nat.not_lt.mp over_
    rw [Nat.le_floor_iff (by linarith only [low,unit])] at floor
    exact_mod_cast floor
  have cast : ((10^less-1 : Nat) : ℚ) = 10^less-1 := by
    rw [Nat.cast_sub whole]
    push_cast
    rfl
  have cast' : ((10^(less+1)-1 : Nat) : ℚ) = 10^(less+1)-1 := by
    rw [Nat.cast_sub (Nat.pow_pos (by decide))]
    push_cast
    rfl
  refine ⟨?_,?_,?_⟩
  · rw [Nat.floor_eq_iff (by linarith only [close,ten,unit]),cast]
    constructor <;> linarith only [close,ten,high]
  · rw [Nat.floor_eq_iff (by linarith only [close,ten,unit])]
    push_cast
    constructor <;> linarith only [close,ten,high]
  · rw [Nat.floor_eq_iff (by linarith only [close,ten,unit]),cast']
    constructor <;> linarith only [close,high]

theorem nines {k} (some_ : 0 < k) : (10^k-1)%2 = 1 := by
  obtain ⟨less,rfl⟩ : ∃ less, k = less+1 := ⟨k-1,by omega⟩
  have whole : 0 < 10^less := Nat.pow_pos (by decide)
  omega

theorem foundIfOneLimb (positive : 0 < magnitude value) (some_ : 0 < precision) (start : (shortestDigits value).2 = decimalExponent value)
    (limb : OneLimb (leadingQuotient value precision)) :
    ∃ fuel digits exponent, roundedSignificand value precision fuel = some (digits,exponent) ∧ Rounds value precision digits exponent := by
  obtain ⟨low,high⟩ := leadingRange positive some_
  have first := (computedExact value precision (decimalExponent value)).mpr limb
  have least : leadingQuotient value precision ≤ computed value precision (decimalExponent value) := by
    rw [first]
    exact Nat.floor_le_floor (by linarith)
  by_cases over_ : computed value precision (decimalExponent value) < 10^precision
  · refine ⟨1,_,_,?_,_,rfl,low.trans least,over_,first⟩
    rw [roundedSignificand,start]
    exact loopStops some_ (low.trans least) over_
  · have over_' := over_
    rw [first] at over_'
    obtain ⟨tenth,rounded,nine⟩ := roundedOver positive some_ over_'
    rw [nine,oneLimbOdd (nines some_)] at limb
    have second : computed value precision (decimalExponent value+1) = 10^(precision-1) := by
      have exact_ := (computedExact value precision (decimalExponent value+1)).mpr (by
        exact oneLimbSmall (by omega))
      rw [exact_,rounded]
    have below : 10^(precision-1) < 10^precision := Nat.pow_lt_pow_right (by decide) (by omega)
    refine ⟨2,spelled (numeral 10 (computed value precision (decimalExponent value+1))),decimalExponent value+1,?_,_,rfl,?_,?_,?_⟩
    · rw [roundedSignificand,start,loopRises some_ (Nat.not_lt.mp over_)]
      exact loopStops some_ second.ge (second.trans_lt below)
    · exact second.ge
    · exact second.trans_lt below
    · rw [second,rounded]

theorem nearOver (positive : 0 < magnitude value) (some_ : 0 < precision)
    (over_ : 10^(precision-1) ≤ ⌊magnitude value*10^((precision : Int)-1-(decimalExponent value+1))+1/2⌋₊) :
    ⌊magnitude value*10^((precision : Int)-1-(decimalExponent value+1))⌋₊ = 10^(precision-1)-1 ∧ 10^precision ≤ leadingQuotient value precision+5 := by
  obtain ⟨low,high⟩ := atLeading positive some_
  obtain ⟨less,rfl⟩ : ∃ less, precision = less+1 := ⟨precision-1,by omega⟩
  rw [Nat.add_sub_cancel] at low over_ ⊢
  rw [aboveLeading] at over_ ⊢
  rw [leadingQuotient]
  generalize magnitude value*10^(((less+1 : Nat) : Int)-1-decimalExponent value) = y at low high over_ ⊢
  have ten : (10 : ℚ)^(less+1) = 10*10^less := by ring
  have unit : (1 : ℚ) ≤ 10^less := by exact_mod_cast Nat.one_le_pow less 10 (by decide)
  have close : (10 : ℚ)^less ≤ y/10+1/2 := by
    rw [Nat.le_floor_iff (by linarith only [low,unit])] at over_
    exact_mod_cast over_
  have cast : ((10^less-1 : Nat) : ℚ) = 10^less-1 := by
    rw [Nat.cast_sub (Nat.pow_pos (by decide))]
    push_cast
    rfl
  constructor
  · rw [Nat.floor_eq_iff (by linarith only [low,unit]),cast]
    constructor <;> linarith only [close,ten,high]
  · have five : ⌊y⌋₊+5 = ⌊y+5⌋₊ := (Nat.floor_add_natCast (by linarith only [low,unit]) 5).symm
    rw [five]
    refine Nat.le_floor ?_
    push_cast
    linarith only [close,ten]

theorem tenDigits {n v} (kept : Kept n v) (low : 10^10 ≤ n+5) (high : n < 10^10) : 10^(10-1) ≤ v ∧ v+1 < 10^10 := by
  have rest := kept.low (by omega)
  omega

theorem oneLimbIfFound {fuel digits exponent} (positive : 0 < magnitude value) (some_ : 0 < precision)
    (start : (shortestDigits value).2 = decimalExponent value) (found : roundedSignificand value precision fuel = some (digits,exponent))
    (rounds : Rounds value precision digits exponent) : OneLimb (leadingQuotient value precision) := by
  have where_ := lastExponent positive some_ rounds
  have made := loopResult found
  obtain ⟨n,text,low,high,nearest⟩ := rounds
  have same : computed value precision exponent = n := numeralInjective (spelledUnique (numeralDigits _) (numeralDigits _) (made.symm.trans text))
  have limb := (computedExact value precision exponent).mp (same.trans nearest)
  rcases where_ with here | above
  · rwa [here] at limb
  · rw [nearest,above] at low
    obtain ⟨tenth,near⟩ := nearOver positive some_ low
    have below := (leadingRange positive some_).2
    rcases Nat.lt_or_ge precision 10 with few | many
    · have nine : 10^precision ≤ 10^9 := Nat.pow_le_pow_right (by decide) (by omega)
      exact oneLimbSmall (by omega)
    · rw [above,tenth,oneLimbOdd (nines (by omega))] at limb
      have ten : precision = 10 := by
        by_contra more
        have large : 10^10 ≤ 10^(precision-1) := Nat.pow_le_pow_right (by decide) (by omega)
        omega
      subst ten
      obtain ⟨v,kept,result⟩ := exactRoundValue value (((10 : Nat) : Int)-1-decimalExponent value)
      rw [quotientFloor] at kept
      obtain ⟨least,most⟩ := tenDigits kept near below
      have one : roundUp (top value (((10 : Nat) : Int)-1-decimalExponent value)) (bottom value (((10 : Nat) : Int)-1-decimalExponent value)) ≤ 1 := by
        rw [roundUp]
        split <;> omega
      have stopped : computed value 10 (decimalExponent value) = v + _ := result
      cases fuel with
      | zero => cases found
      | succ fuel =>
        rw [roundedSignificand,start,loopStops some_ (by omega) (by omega)] at found
        have last := congrArg Prod.snd (Option.some.inj found)
        omega

end Leading

theorem magnitudePositive {value} (some_ : value.isZero = false) : 0 < magnitude value := by
  have fraction : value.exponent = 0 → value.fraction ≠ 0 := by
    intro none_ nothing
    rw [Double.isZero,beq_eq_false_iff_ne] at some_
    rw [Double.exponent] at none_
    rw [Double.fraction] at nothing
    omega
  have significand : 0 < value.significand := by
    rw [Double.significand]
    split
    · rename_i none_
      exact Nat.pos_of_ne_zero (fraction none_)
    · omega
  have top_ : 0 < numerator value := Nat.mul_pos significand (Nat.two_pow_pos _)
  have bottom_ : 0 < denominator value := Nat.two_pow_pos _
  exact div_pos (Nat.cast_pos.mpr top_) (Nat.cast_pos.mpr bottom_)

theorem significandExact (value : Double) (precision : Nat) (some_ : value.isZero = false) (digits_ : 0 < precision)
    (start : (shortestDigits value).2 = decimalExponent value) :
    (∃ fuel digits exponent, roundedSignificand value precision fuel = some (digits,exponent) ∧ Rounds value precision digits exponent) ↔
    OneLimb ⌊magnitude value*10^((precision : Int)-1-decimalExponent value)⌋₊ := by
  have positive := magnitudePositive some_
  constructor
  · rintro ⟨fuel,digits,exponent,found,rounds⟩
    exact oneLimbIfFound positive digits_ start found rounds
  · exact foundIfOneLimb positive digits_ start

def unitPlace (i : Nat) : Nat :=
  top ⟨0x3ff0000000000000⟩ ((11 : Nat)-1- -(i : Int))/bottom ⟨0x3ff0000000000000⟩ ((11 : Nat)-1- -(i : Int))

/-- The search for eleven digits of 1: where it starts, and the low limbs of the quotient at every place it visits. -/
theorem unitTable :
    ((shortestDigits ⟨0x3ff0000000000000⟩).2 = decimalExponent ⟨0x3ff0000000000000⟩ ∧ (shortestDigits ⟨0x3ff0000000000000⟩).2 = -((0 : Nat) : Int)) ∧
    (∀ i : Fin 22, unitPlace i%2^32 ≠ 0) ∧ unitPlace 22%2^32 = 0 ∧ 10^11 ≤ unitPlace 22%2^64 := by
  decide +kernel

theorem unitComputed (i : Nat) : ∃ v up, Kept (unitPlace i) v ∧ up ≤ 1 ∧ computed ⟨0x3ff0000000000000⟩ 11 (-(i : Int)) = v+up := by
  obtain ⟨v,kept,result⟩ := exactRoundValue ⟨0x3ff0000000000000⟩ ((11 : Nat)-1- -(i : Int))
  refine ⟨v,_,kept,?_,result⟩
  rw [roundUp]
  split <;> omega

theorem unitLow {i : Nat} (before : i < 22) :
    0 < computed ⟨0x3ff0000000000000⟩ 11 (-(i : Int)) ∧ computed ⟨0x3ff0000000000000⟩ 11 (-(i : Int)) < 10^10 := by
  obtain ⟨v,up,kept,few,result⟩ := unitComputed i
  have real : unitPlace i%2^32 ≠ 0 := unitTable.2.1 ⟨i,before⟩
  have low := kept.low real
  omega

theorem unitHigh : 10^11 ≤ computed ⟨0x3ff0000000000000⟩ 11 (-((22 : Nat) : Int)) := by
  obtain ⟨v,up,kept,-,result⟩ := unitComputed 22
  rw [result]
  exact Nat.le_trans unitTable.2.2.2 (Nat.le_trans (kept.twoLimbs unitTable.2.2.1) (Nat.le_add_right v up))

theorem unitExponent : (shortestDigits ⟨0x3ff0000000000000⟩).2 = decimalExponent ⟨0x3ff0000000000000⟩ := unitTable.1.1

theorem significandExactUnit :
    ∃ fuel digits exponent, roundedSignificand ⟨0x3ff0000000000000⟩ 3 fuel = some (digits,exponent) ∧ Rounds ⟨0x3ff0000000000000⟩ 3 digits exponent :=
  (significandExact ⟨0x3ff0000000000000⟩ 3 (by decide) (by decide) unitExponent).mpr (oneLimbSmall (by
    have range := leadingRange (magnitudePositive (show Double.isZero ⟨0x3ff0000000000000⟩ = false by decide)) (show 0 < 3 by decide)
    exact Nat.lt_trans range.2 (by decide)))

theorem significandEndless : (shortestDigits ⟨0x3ff0000000000000⟩).2 = decimalExponent ⟨0x3ff0000000000000⟩ ∧
    ¬∃ fuel digits exponent, roundedSignificand ⟨0x3ff0000000000000⟩ 11 fuel = some (digits,exponent) := by
  have never : ∀ fuel i : Nat, i ≤ 22 → significandLoop ⟨0x3ff0000000000000⟩ 11 fuel (-(i : Int)) = none := by
    intro fuel
    induction fuel with
    | zero => exact fun _ _ => rfl
    | succ fuel ih =>
      intro i within
      rcases Nat.lt_or_eq_of_le within with before | last
      · obtain ⟨some_,low⟩ := unitLow before
        have next : -(i : Int)-1 = -((i+1 : Nat) : Int) := by omega
        rw [loopFalls (by decide) some_ low,next]
        exact ih (i+1) (by omega)
      · rw [last,loopRises (by decide) unitHigh]
        exact ih 21 (by decide)
  refine ⟨unitExponent,?_⟩
  rintro ⟨fuel,digits,exponent,found⟩
  have start : (shortestDigits ⟨0x3ff0000000000000⟩).2 = -((0 : Nat) : Int) := unitTable.1.2
  rw [roundedSignificand,start,never fuel 0 (by decide)] at found
  cases found

end Bamts.NumberFormat
