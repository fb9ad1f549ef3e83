import Bamts.NumberDivision

/-! The digits of large integers in any radix, numbers rounded exactly at a decimal place, and
`Number.prototype.toFixed` on top of them. -/
set_option linter.all false
namespace Bamts.NumberFormat
open Limbs Numeral Binary64 Bytecode Bamts.Runtime

inductive NumberFormatError where
  | fractionDigits | precision | radix
  deriving DecidableEq, Repr

def digitTable : List UInt16 := (ascii "0123456789abcdefghijklmnopqrstuvwxyz").asUnits

def digitChar (d : Nat) : UInt16 := digitTable.getD d 0

-- `digit_value`: letters of either case continue the ten digits.
def digitValue (unit : UInt16) : Option Nat :=
  if 48 ≤ unit ∧ unit ≤ 57 then some (unit.toNat-48)
  else if 97 ≤ unit ∧ unit ≤ 122 then some (unit.toNat-97+10)
  else if 65 ≤ unit ∧ unit ≤ 90 then some (unit.toNat-65+10)
  else none

theorem digitValueUnit {d} (small : d < 36) : digitValue (digitChar d) = some d := by
  have table : ∀ d : Fin 36, digitValue (digitChar d) = some d.val := by decide
  exact table ⟨d,small⟩

def spelled (digits : List Nat) : List UInt16 := digits.map digitChar

theorem spelledBack {digits} (small : ∀ d ∈ digits, d < 36) : (spelled digits).map digitValue = digits.map some := by
  rw [spelled,List.map_map]
  exact List.map_congr_left fun d among => digitValueUnit (small d among)

theorem spelledUnique {a b} (small : ∀ d ∈ a, d < 36) (small' : ∀ d ∈ b, d < 36) (same : spelled a = spelled b) : a = b := by
  have back := (spelledBack small).symm.trans ((congrArg _ same).trans (spelledBack small'))
  exact List.map_injective_iff.mpr (Option.some_injective Nat) back

namespace Big

theorem valueDivmodSmall (b) {divisor} (positive : 0 < divisor) :
    (divmodSmall b divisor).1.value = b.value/divisor ∧ (divmodSmall b divisor).2 = b.value%divisor :=
  ⟨(valueNormalize _).trans (divSmallDiv positive b.limbs),divSmallMod positive b.limbs⟩

def radixDigits (radix : Nat) (base : 2 ≤ radix) (b : Big) : List Nat :=
  if b.isZero then [] else (divmodSmall b radix).2 :: radixDigits radix base (divmodSmall b radix).1
termination_by b.value
decreasing_by
  rename_i some_
  rw [(valueDivmodSmall b (by omega)).1]
  exact Nat.div_lt_self (Nat.pos_of_ne_zero fun none_ => some_ ((isZeroIff b).mpr none_)) base

theorem radixDigitsValue {radix} (base b) : radixDigits radix base b = Nat.digits radix b.value := by
  generalize size : b.value = n
  induction n using Nat.strong_induction_on generalizing b with
  | h n ih =>
    obtain ⟨quotient,remainder⟩ := valueDivmodSmall b (show 0 < radix by omega)
    rw [radixDigits]
    split
    · rename_i none_
      rw [← size,(isZeroIff b).mp none_,Nat.digits_zero]
    · rename_i some_
      have positive : 0 < n := Nat.pos_of_ne_zero fun none_ => some_ ((isZeroIff b).mpr (size.trans none_))
      rw [size] at quotient remainder
      rw [Nat.digits_def' base positive,ih _ (Nat.div_lt_self positive base) _ quotient,remainder]

def toRadixString (radix : Nat) (base : 2 ≤ radix) (b : Big) : List UInt16 :=
  if b.isZero then [48] else (spelled (radixDigits radix base b)).reverse

theorem toRadixStringNumeral {radix} (base b) : toRadixString radix base b = spelled (numeral radix b.value) := by
  rw [toRadixString,numeral]
  split
  · rename_i none_
    rw [if_pos ((isZeroIff b).mp none_)]
    rfl
  · rename_i some_
    rw [if_neg fun none_ => some_ ((isZeroIff b).mpr none_),radixDigitsValue,spelled,spelled,List.map_reverse]

theorem decimalRadix : 2 ≤ 10 := by decide

def toDecimalString (b : Big) : List UInt16 := toRadixString 10 decimalRadix b

theorem toDecimalStringNumeral (b) : toDecimalString b = spelled (numeral 10 b.value) := toRadixStringNumeral _ b

end Big

-- A finite number is `significand * 2^exponent`.
def decompose (x : Double) : Nat × Int :=
  if x.exponent = 0 then (x.fraction,-1074) else (x.fraction ||| 2^52,(x.exponent : Int)-1023-52)

theorem decomposeScale (x) : decompose x = (x.significand,(x.scale : Int)-1075) := by
  have fraction : x.fraction < 2^52 := Nat.mod_lt _ (by decide)
  rw [decompose,Double.significand,Double.scale]
  split
  · rename_i zero
    rw [zero]
    rfl
  · rename_i some_
    have joins := Nat.shiftLeft_add_eq_or_of_lt fraction 1
    rw [Nat.shiftLeft_eq,Nat.one_mul] at joins
    rw [Nat.or_comm,← joins,Nat.max_eq_left (Nat.one_le_iff_ne_zero.mpr some_)]
    congr 1
    omega

theorem significandLt (x : Double) : x.significand < 2^64 := by
  have fraction : x.fraction < 2^52 := Nat.mod_lt _ (by decide)
  rw [Double.significand]
  split <;> omega

def abs (x : Double) : Double := ⟨x.bits &&& 0x7fffffffffffffff⟩

theorem absBits (x) : (abs x).bits.toNat = x.bits.toNat%2^63 := by
  have mask : (0x7fffffffffffffff : UInt64).toNat = 2^63-1 := rfl
  rw [abs,UInt64.toNat_and,mask,Nat.and_two_pow_sub_one_eq_mod]

theorem absFields (x) : (abs x).exponent = x.exponent ∧ (abs x).fraction = x.fraction := by
  rw [Double.exponent,Double.exponent,Double.fraction,Double.fraction,absBits]
  constructor <;> omega

theorem absSignificand (x) : (abs x).significand = x.significand := by
  rw [Double.significand,Double.significand,(absFields x).1,(absFields x).2]

theorem absScale (x) : (abs x).scale = x.scale := by rw [Double.scale,Double.scale,(absFields x).1]

-- The fraction `|x| * 10^scale`.
def top (x : Double) (scale : Int) : Nat := numerator x*10^scale.toNat
def bottom (x : Double) (scale : Int) : Nat := denominator x*10^(-scale).toNat

theorem bottomPositive (x scale) : 0 < bottom x scale := Nat.mul_pos (Nat.two_pow_pos _) (Nat.pow_pos (by decide))

theorem topAbs (x scale) : top (abs x) scale = top x scale := by rw [top,top,numerator,numerator,absSignificand,absScale]

theorem bottomAbs (x scale) : bottom (abs x) scale = bottom x scale := by rw [bottom,bottom,denominator,denominator,absScale]

def exactRoundScaled (x : Double) (decimalScale : Int) : Big :=
  if x.isZero then Big.zero
  else
    let (significand,binaryExponent) := decompose x
    let numerator := Big.fromU64 significand
    let numerator := if 0 ≤ binaryExponent then numerator.shlBits binaryExponent.toNat else numerator
    let denominator := if 0 ≤ binaryExponent then Big.one else Big.one.shlBits binaryExponent.natAbs
    let numerator := if 0 ≤ decimalScale then numerator.mulPow10 decimalScale.toNat else numerator
    let denominator := if 0 ≤ decimalScale then denominator else denominator.mulPow10 decimalScale.natAbs
    let (quotient,remainder) := numerator.divRem denominator
    if (remainder.mulSmall 2).cmp denominator ≠ .lt then quotient.addSmall 1 else quotient

theorem scaledBig (numerator denominator : Big) (x scale)
    (numerator_ : numerator.value = Runtime.numerator x) (denominator_ : denominator.value = Runtime.denominator x) :
    (if 0 ≤ scale then numerator.mulPow10 scale.toNat else numerator).value = top x scale ∧
    (if 0 ≤ scale then denominator else denominator.mulPow10 scale.natAbs).value = bottom x scale := by
  rw [top,bottom]
  split
  · rename_i up
    have none_ : (-scale).toNat = 0 := by omega
    rw [none_,Nat.pow_zero,Nat.mul_one,Big.valueMulPow10,numerator_,denominator_]
    exact ⟨rfl,rfl⟩
  · rename_i down
    have none_ : scale.toNat = 0 := by omega
    have same : scale.natAbs = (-scale).toNat := by omega
    rw [none_,Nat.pow_zero,Nat.mul_one,Big.valueMulPow10,numerator_,denominator_,same]
    exact ⟨rfl,rfl⟩

theorem binaryBig (x) :
    (if 0 ≤ (decompose x).2 then (Big.fromU64 (decompose x).1).shlBits (decompose x).2.toNat else Big.fromU64 (decompose x).1).value = numerator x ∧
    (if 0 ≤ (decompose x).2 then Big.one else Big.one.shlBits (decompose x).2.natAbs).value = denominator x := by
  rw [decomposeScale,numerator,denominator]
  split
  · rename_i up
    have none_ : 1075-x.scale = 0 := by omega
    have same : ((x.scale : Int)-1075).toNat = x.scale-1075 := by omega
    rw [none_,Nat.pow_zero,Big.valueShlBits,Big.valueFromU64 (significandLt x),same]
    exact ⟨rfl,rfl⟩
  · rename_i down
    have none_ : x.scale-1075 = 0 := by omega
    have same : ((x.scale : Int)-1075).natAbs = 1075-x.scale := by omega
    rw [none_,Nat.pow_zero,Nat.mul_one,Big.valueShlBits,Big.valueFromU64 (significandLt x),Big.valueOne,Nat.one_mul,same]
    exact ⟨rfl,rfl⟩

theorem zeroNumerator {x} (zero : x.isZero = true) : numerator x = 0 := by
  have bits := beq_iff_eq.mp zero
  have exponent : x.exponent = 0 := by
    rw [Double.exponent]
    omega
  have fraction : x.fraction = 0 := by
    rw [Double.fraction]
    omega
  rw [numerator,Double.significand,if_pos exponent,fraction,Nat.zero_mul]

def roundUp (t b : Nat) : Nat := if b ≤ t%b*2 then 1 else 0

def nearestMultiple (t b : Nat) : Nat := (2*t+b)/(2*b)

theorem nearestRounds (t) {b} (positive : 0 < b) : nearestMultiple t b = t/b+roundUp t b := by
  have parts := Nat.div_add_mod t b
  have below := Nat.mod_lt t positive
  rw [nearestMultiple,roundUp]
  refine (Nat.div_eq_iff (by omega)).mpr ?_
  have twice : (t/b+1)*(2*b) = 2*(b*(t/b))+2*b := by ring
  have same : t/b*(2*b) = 2*(b*(t/b)) := by ring
  split
  · rw [twice]
    omega
  · rw [Nat.add_zero,same]
    omega

theorem exactRoundValue (x scale) :
    ∃ v, Kept (top x scale/bottom x scale) v ∧ (exactRoundScaled x scale).value = v+roundUp (top x scale) (bottom x scale) := by
  have positive := bottomPositive x scale
  unfold exactRoundScaled
  split
  · rename_i zero
    have nothing : top x scale = 0 := by rw [top,zeroNumerator zero,Nat.zero_mul]
    refine ⟨0,.inl ⟨by rw [nothing,Nat.zero_div],rfl⟩,?_⟩
    rw [nothing,roundUp,Nat.zero_mod,Nat.zero_mul,if_neg (Nat.not_le.mpr positive)]
    rfl
  · obtain ⟨binaryTop,binaryBottom⟩ := binaryBig x
    obtain ⟨decimalTop,decimalBottom⟩ := scaledBig _ _ x scale binaryTop binaryBottom
    dsimp only
    generalize decimalDividend : (if 0 ≤ scale then _ else _ : Big) = dividend at decimalTop ⊢
    generalize decimalDivisor : (if 0 ≤ scale then _ else _ : Big) = divisor at decimalBottom ⊢
    rw [← decimalBottom] at positive
    obtain ⟨kept,remainder⟩ := divRemValue dividend positive
    rw [decimalTop,decimalBottom] at kept remainder
    have two : UInt32.toNat 2 = 2 := rfl
    refine ⟨_,kept,?_⟩
    rw [roundUp,← remainder]
    split
    · rename_i above
      rw [Big.cmpLess,Big.valueMulSmall,decimalBottom,two] at above
      rw [if_pos above,Big.valueAddSmall]
      rfl
    · rename_i below
      rw [Big.cmpLess,Big.valueMulSmall,decimalBottom,two] at below
      rw [if_neg below,Nat.add_zero]

theorem exactRoundExact (x scale) :
    (exactRoundScaled x scale).value = nearestMultiple (top x scale) (bottom x scale) ↔ OneLimb (top x scale/bottom x scale) := by
  obtain ⟨v,kept,result⟩ := exactRoundValue x scale
  rw [result,nearestRounds _ (bottomPositive x scale),← kept.exact]
  exact Nat.add_right_cancel_iff

def checkedFractionDigits (value : Double) : Except NumberFormatError Nat :=
  match value.toInt with
  | some z => if 0 ≤ z ∧ z ≤ 100 then .ok z.toNat else .error .fractionDigits
  | none => .error .fractionDigits

def nonFinite (value : Double) : Option EcmaString :=
  if value.isNaN then some (ascii "NaN")
  else if value.isFinite then none
  else if value.negative then some (ascii "-Infinity") else some (ascii "Infinity")

def minus (value : Double) : List UInt16 := if value.negative && !value.isZero then [45] else []

def fixedDigits (digits : List UInt16) (fractionDigits : Nat) : List UInt16 :=
  if fractionDigits = 0 then digits
  else if digits.length ≤ fractionDigits then [48,46] ++ List.replicate (fractionDigits-digits.length) 48 ++ digits
  else digits.take (digits.length-fractionDigits) ++ [46] ++ digits.drop (digits.length-fractionDigits)

def toFixed (value fractionDigits : Double) : Except NumberFormatError EcmaString := do
  let fractionDigits ← checkedFractionDigits fractionDigits
  match nonFinite value with
  | some text => .ok text
  | none =>
    if 10^21*denominator value ≤ numerator value then .ok (formatNumber value)
    else .ok ⟨minus value ++ fixedDigits (exactRoundScaled (abs value) fractionDigits).toDecimalString fractionDigits⟩

-- `n * 10^(-f)` with exactly `f` digits behind the point.
def rendering (n f : Nat) : List UInt16 := spelled (numeral 10 (n/10^f)) ++ if f = 0 then [] else 46 :: spelled (places 10 f n)

def fixedText (value : Double) (f : Nat) : EcmaString := ⟨minus value ++ rendering (nearestMultiple (top value f) (bottom value f)) f⟩

theorem placesBelow (k n) : ∀ d ∈ places 10 k n, d < 36 := by
  induction k generalizing n with
  | zero => exact fun d among => absurd among List.not_mem_nil
  | succ k ih =>
    intro d among
    rcases List.mem_append.mp among with early | last
    · exact ih _ d early
    · rw [List.mem_singleton.mp last]
      omega

theorem numeralDigits (n) : ∀ d ∈ numeral 10 n, d < 36 := fun d among => Nat.lt_trans (numeralBelow (by decide) n d among) (by decide)

theorem fixedRendering (n f) : fixedDigits (spelled (numeral 10 n)) f = rendering n f := by
  rw [fixedDigits,rendering]
  split
  · rename_i none_
    rw [none_,Nat.pow_zero,Nat.div_one,List.append_nil]
  · rename_i some_
    have positive : 0 < f := Nat.pos_of_ne_zero some_
    have long : (spelled (numeral 10 n)).length = (numeral 10 n).length := List.length_map _
    have short : (numeral 10 n).length ≤ f ↔ n < 10^f := numeralLength (show 1 < 10 by decide) positive
    rw [long]
    split
    · rename_i few
      have small := short.mp few
      have padded := numeralPlaces (show 1 < 10 by decide) positive small
      rw [Nat.div_eq_of_lt small,numeralZero,padded,spelled,spelled,spelled,List.map_append,List.map_replicate]
      rfl
    · rename_i many
      have large : 10^f ≤ n := Nat.le_of_not_lt fun small => many (short.mpr small)
      have parts := numeralSplit (show 1 < 10 by decide) f large
      have count : (numeral 10 n).length-f = (spelled (numeral 10 (n/10^f))).length := by
        rw [parts,List.length_append,placesLength,Nat.add_sub_cancel,spelled,List.length_map]
      have joined : spelled (numeral 10 n) = spelled (numeral 10 (n/10^f)) ++ spelled (places 10 f n) := by
        rw [parts,spelled,List.map_append]
        rfl
      rw [count,joined,List.take_left,List.drop_left,List.append_assoc]
      rfl

theorem renderingUnique {m n f} (same : rendering m f = rendering n f) : m = n := by
  have split : spelled (numeral 10 (m/10^f)) = spelled (numeral 10 (n/10^f)) ∧ spelled (places 10 f m) = spelled (places 10 f n) := by
    rw [rendering,rendering] at same
    split at same
    · rename_i none_
      rw [List.append_nil,List.append_nil] at same
      rw [none_]
      exact ⟨by rwa [none_] at same,rfl⟩
    · obtain ⟨whole,part⟩ := List.append_inj' same (by simp [spelled,placesLength])
      exact ⟨whole,List.tail_eq_of_cons_eq part⟩
  have whole := numeralInjective (spelledUnique (numeralDigits _) (numeralDigits _) split.1)
  have part := congrArg (read 10) (spelledUnique (placesBelow f m) (placesBelow f n) split.2)
  rw [readPlaces,readPlaces] at part
  rw [← Nat.div_add_mod m (10^f),whole,part,Nat.div_add_mod]

theorem checkedOf {f} (small : f ≤ 100) : checkedFractionDigits (Double.ofNat f) = .ok f := by
  rw [checkedFractionDigits,Double.toIntOfNat (by omega)]
  have within : 0 ≤ (f : Int) ∧ (f : Int) ≤ 100 := by omega
  change (if 0 ≤ (f : Int) ∧ (f : Int) ≤ 100 then _ else _) = _
  rw [if_pos within,Int.toNat_natCast]

theorem toFixedRun {value f} (finite : value.isFinite = true) (small : numerator value < 10^21*denominator value) (few : f ≤ 100) :
    toFixed value (Double.ofNat f) = .ok ⟨minus value ++ rendering (exactRoundScaled (abs value) f).value f⟩ := by
  have plain : value.isNaN = false := by
    rw [Double.isFinite,bne_iff_ne] at finite
    simp [Double.isNaN,finite]
  have number : nonFinite value = none := by rw [nonFinite,plain,finite]; rfl
  rw [toFixed,checkedOf few,number]
  change (if 10^21*denominator value ≤ numerator value then _ else _) = _
  rw [if_neg (Nat.not_le.mpr small),Big.toDecimalStringNumeral,fixedRendering]

theorem toFixedIff {value f} (finite : value.isFinite = true) (small : numerator value < 10^21*denominator value) (few : f ≤ 100) :
    toFixed value (Double.ofNat f) = .ok (fixedText value f) ↔ OneLimb (top value f/bottom value f) := by
  have exact_ := exactRoundExact (abs value) f
  rw [topAbs,bottomAbs] at exact_
  rw [toFixedRun finite small few,← exact_,fixedText]
  constructor
  · intro same
    have units := congrArg EcmaString.asUnits (Except.ok.inj same)
    exact renderingUnique (List.append_cancel_left units)
  · intro same
    rw [same]

theorem toFixedExact (value : Double) (f : Nat) (a d : Big) :
    (value.isFinite = true → numerator value < 10^21*denominator value → f ≤ 100 →
      (toFixed value (Double.ofNat f) = .ok (fixedText value f) ↔ OneLimb (top value f/bottom value f))) ∧
    (0 < d.value →
      (a.value = (a.divRem d).1.value*d.value+(a.divRem d).2.value ∧ (a.divRem d).2.value < d.value ↔ OneLimb (a.value/d.value))) :=
  ⟨fun finite small few => toFixedIff finite small few,fun positive => divRemExact a positive⟩

theorem toFixedExactHalf :
    toFixed ⟨0x4004000000000000⟩ (Double.ofNat 0) = .ok (fixedText ⟨0x4004000000000000⟩ 0) ∧
    (Big.fromU64 7).value = ((Big.fromU64 7).divRem (Big.fromU64 2)).1.value*(Big.fromU64 2).value+((Big.fromU64 7).divRem (Big.fromU64 2)).2.value :=
  ⟨((toFixedExact ⟨0x4004000000000000⟩ 0 (Big.fromU64 7) (Big.fromU64 2)).1 (by decide) (by decide) (by decide)).mpr
      (oneLimbSmall (by decide)),
    (((toFixedExact ⟨0x4004000000000000⟩ 0 (Big.fromU64 7) (Big.fromU64 2)).2 (by decide)).mpr (oneLimbSmall (by decide))).1⟩

theorem toFixedTruncates :
    toFixed ⟨0x41f0000000100000⟩ (Double.ofNat 0) = .ok (ascii "1") ∧ fixedText ⟨0x41f0000000100000⟩ 0 = ascii "4294967297" ∧
    toFixed ⟨0x41f0000000100000⟩ (Double.ofNat 0) ≠ .ok (fixedText ⟨0x41f0000000100000⟩ 0) := by
  have printed : toFixed ⟨0x41f0000000100000⟩ (Double.ofNat 0) = .ok (ascii "1") := by
    have digit : (exactRoundScaled (abs ⟨0x41f0000000100000⟩) (0 : Nat)).value = 1 := by decide +kernel
    rw [toFixedRun (by decide) (by decide) (by decide),digit]
    decide
  have meant : fixedText ⟨0x41f0000000100000⟩ 0 = ascii "4294967297" := by decide
  refine ⟨printed,meant,?_⟩
  rw [printed,meant]
  decide

end Bamts.NumberFormat
