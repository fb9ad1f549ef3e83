import Bamts.NumberRadix
import Bamts.RuntimeArray
import Bamts.DecimalText

/-! The `f64` fields of date text: their parser, `to_integer`, and the rounding of whole numbers. -/
set_option linter.all false
namespace Bamts.Date
open ByteText Binary64 Bytecode Bamts.Runtime

def numberUnit (c : Char) : UInt16 := if c.toNat < 128 then UInt16.ofNat c.toNat else 0xFFFD

/-- `str::parse::<f64>` -/
def parseNumber (text : Text) : Option Double := parseF64 ⟨text.map numberUnit⟩

/-- `to_integer` of a finite number; a missing value is what `make_time` and `make_day` answer with `NaN`. -/
def toInteger (x : Double) : Option Int := if x.isFinite then some (truncate x) else none

def roundWhole (n : Nat) : Nat :=
  let unit := 2^(Nat.log2 n - 52)
  let q := n/unit
  let r := n%unit
  (if unit < 2*r ∨ (2*r = unit ∧ q % 2 = 1) then q+1 else q) * unit

/-- The result of an `f64` operation on whole numbers; past the largest finite number it is infinite. -/
def rounded (value : Int) : Option Int :=
  if roundWhole value.natAbs < 2^1024 then some (value.sign * roundWhole value.natAbs) else none

theorem roundWholeSmall {n} (small : n < 2^53) : roundWhole n = n := by
  have unit : Nat.log2 n - 52 = 0 := by
    by_cases none_ : n = 0
    · subst none_; decide
    · have := (Nat.log2_lt none_).mpr small
      omega
  simp only [roundWhole,unit,Nat.pow_zero,Nat.div_one,Nat.mod_one,Nat.mul_one]
  rw [if_neg (by omega)]

theorem roundWholeLarge {n} (large : 2^53 ≤ n) : 2^53 ≤ roundWhole n ∧ roundWhole n ≤ 2*n := by
  have some_ : n ≠ 0 := by omega
  have below := Nat.log2_self_le some_
  have long : 53 ≤ Nat.log2 n := (Nat.le_log2 some_).mpr large
  obtain ⟨place,top⟩ : ∃ place, Nat.log2 n = 52+place := ⟨Nat.log2 n-52,by omega⟩
  have short : Nat.log2 n - 52 = place := by omega
  have one : 1 ≤ place := by omega
  simp only [roundWhole,short]
  have bits : 2^(52+place) = 2^52*2^place := Nat.pow_add 2 52 place
  have room := Nat.two_pow_pos place
  have two : 2^1 ≤ 2^place := Nat.pow_le_pow_right (by decide) one
  rw [top,bits] at below
  have floor := Nat.div_mul_le_self n (2^place)
  have least : 2^52 ≤ n/2^place := (Nat.le_div_iff_mul_le room).mpr below
  generalize n/2^place = q at floor least
  generalize 2^place = unit at room two floor below
  have low : 2^52*unit ≤ q*unit := Nat.mul_le_mul_right _ least
  have next : (q+1)*unit = q*unit + unit := by ring
  split
  · rw [next]; omega
  · omega

theorem roundedSmall {value} (small : value.natAbs < 2^53) : rounded value = some value := by
  rw [rounded,roundWholeSmall small,if_pos (by omega),Int.sign_mul_natAbs]

theorem roundedLarge {value} (large : 2^53 ≤ value.natAbs) (finite : value.natAbs < 2^60) :
    ∃ result, rounded value = some result ∧ 2^53 ≤ result.natAbs ∧ result.natAbs ≤ 2*value.natAbs := by
  obtain ⟨low,high⟩ := roundWholeLarge large
  have unit : value.sign.natAbs = 1 := Int.natAbs_sign_of_ne_zero (by omega)
  refine ⟨_,if_pos (by omega),?_,?_⟩
  · rw [Int.natAbs_mul,unit,Int.natAbs_natCast]; omega
  · rw [Int.natAbs_mul,unit,Int.natAbs_natCast]; omega

theorem wholeTruncates {x n} (found : x.whole = some n) : numerator x/denominator x = n := by
  rw [Double.whole] at found
  rw [numerator,denominator]
  split at found
  · rename_i large
    have none_ : 1075-x.scale = 0 := by omega
    rw [none_,Nat.pow_zero,Nat.div_one]
    exact Option.some.inj found
  · rename_i small
    split at found
    · have none_ : x.scale-1075 = 0 := by omega
      rw [none_,Nat.pow_zero,Nat.mul_one]
      exact Option.some.inj found
    · cases found

theorem toIntegerWhole {x value} (whole : x.toInt = some value) : toInteger x = some value := by
  obtain ⟨finite,magnitude,sign⟩ := Double.toIntCases whole
  rw [toInteger,if_pos finite,truncate,wholeTruncates magnitude,← sign]

theorem numberUnitDigit {c} (digit : isDecimal c = true) :
    isDigit (numberUnit c) = true ∧ (numberUnit c).toNat = c.toNat := by
  obtain ⟨d,small,rfl,_⟩ := decimalIsDigit digit
  have table : ∀ d : Fin 10, isDigit (numberUnit (digitChar d)) = true ∧
      (numberUnit (digitChar d)).toNat = (digitChar d).toNat := by decide
  exact table ⟨d,small⟩

theorem numberUnitsValue {text} (digits : ∀ c ∈ text, isDecimal c = true) :
    digitsValue (text.map numberUnit) 0 = digitsOf text := by
  rw [digitsValue,digitsOf,Numeral.read,List.foldl_map,List.foldl_map]
  refine List.foldl_ext _ _ _ fun n c among => ?_
  rw [(numberUnitDigit (digits c among)).2]

theorem scaledPlain (n) : scaled false n 0 = Double.ofNat n ∧ scaled true n 0 = (Double.ofNat n).negate := by
  constructor
  · simp only [scaled,Double.ofNat,Bool.false_eq_true,if_false,Int.le_refl,if_true,Int.toNat_zero,Nat.pow_zero,Nat.mul_one]
  · simp only [scaled,Double.ofNat,if_true,Int.le_refl,Int.toNat_zero,Nat.pow_zero,Nat.mul_one]

theorem scaledWhole {n} (small : n < 2^53) (negative) :
    (scaled negative n 0).toInt = some (if negative then -(n : Int) else n) := by
  have exact_ := Double.toIntOfNat small
  cases negative with
  | false =>
    rw [(scaledPlain n).1,if_neg Bool.false_ne_true]
    exact exact_
  | true =>
    rw [(scaledPlain n).2,if_pos rfl]
    exact Double.toIntNegate exact_

/-- Digits after at most a minus are read exactly below `2^53`. -/
theorem parseNumberDigits (negative : Bool) {text} (digits : IsDigits text) (small : digitsOf text < 2^53) :
    ∃ x, parseNumber ((if negative then ['-'] else []) ++ text) = some x ∧
      toInteger x = some (if negative then -(digitsOf text : Int) else digitsOf text) := by
  obtain ⟨some_,all⟩ := digits
  have units : ∀ u ∈ text.map numberUnit, isDigit u = true := by
    intro u among
    obtain ⟨c,inside,rfl⟩ := List.mem_map.mp among
    exact (numberUnitDigit (all c inside)).1
  have parsed := NumberFormat.parseF64Digits negative (mt List.map_eq_nil_iff.mp some_) units
  have minus : ((if negative then ['-'] else []) ++ text).map numberUnit =
      (if negative then [45] else []) ++ text.map numberUnit := by
    cases negative <;> rfl
  rw [numberUnitsValue all,← minus] at parsed
  exact ⟨_,parsed,toIntegerWhole (scaledWhole small negative)⟩

end Bamts.Date
