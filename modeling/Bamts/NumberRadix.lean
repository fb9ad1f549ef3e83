import Bamts.NumberFixed
import Bamts.RuntimeBoxing

/-! Numbers in another radix and back: `Number.prototype.toString` with a radix, and `parseInt`. -/
set_option linter.all false
namespace Bamts.NumberFormat
open Limbs Numeral Binary64 Bytecode Bamts.Runtime

def trunc (x : Double) : Double :=
  if x.exponent < 1023 then ⟨x.bits &&& 0x8000000000000000⟩
  else if 1075 ≤ x.exponent then x
  else ⟨UInt64.ofNat (x.bits.toNat-x.bits.toNat%2^(1075-x.exponent))⟩

def integerMagnitude (value : Double) : Big :=
  let (significand,exponent) := decompose (trunc value)
  let result := Big.fromU64 significand
  if 0 ≤ exponent then result.shlBits exponent.toNat else (result.divRem (Big.one.shlBits exponent.natAbs)).1

def rounded (num den : Nat) : Double := if num = 0 then Double.zero else Double.nearest num den

def sub (x y : Double) : Double :=
  if x.isFinite then rounded (numerator x*denominator y-numerator y*denominator x) (denominator x*denominator y) else x

def scaledBy (x : Double) (factor divisor : Nat) : Double :=
  if x.isFinite then rounded (numerator x*factor) (denominator x*divisor) else x

def atLeast (x y : Double) : Bool := y.bits.toNat ≤ x.bits.toNat

def nextUp (value : Double) : Double := if value.isZero then ⟨1⟩ else ⟨value.bits+1⟩

-- Whether `value` lies above one half, or on it behind an odd digit.
def roundsUp (value : Double) (digits : List Nat) : Bool :=
  let half : Double := ⟨0x3fe0000000000000⟩
  (atLeast value half && value != half) || (value == half && digits.getLast?.any fun digit => digit%2 != 0)

def fractionLoop (radix : Nat) : Nat → Double → Double → List Nat → Option (List Nat × Double)
  | 0, _, _, _ => none
  | fuel+1, fraction, delta, digits =>
    if atLeast fraction delta then
      let fraction := scaledBy fraction radix 1
      let delta := scaledBy delta radix 1
      let digit := trunc fraction
      fractionLoop radix fuel (sub fraction digit) delta (digits ++ [(digit.whole).getD 0])
    else some (digits,fraction)

def incrementDigits (radix : Nat) : List Nat → Big → List Nat × Big
  | [], integer => ([],integer.addSmall 1)
  | digit :: above, integer =>
    if digit+1 < radix then ((digit+1) :: above,integer)
    else (0 :: (incrementDigits radix above integer).1,(incrementDigits radix above integer).2)

def incrementRadixDigits (radix : Nat) (integer : Big) (fraction : List Nat) : List Nat × Big :=
  ((incrementDigits radix fraction.reverse integer).1.reverse,(incrementDigits radix fraction.reverse integer).2)

theorem radixInRange {z : Int} (valid : 2 ≤ z ∧ z ≤ 36) : 2 ≤ z.toNat := by omega

def checkedRadix (radix : Double) : Option {r : Nat // 2 ≤ r} :=
  match radix.toInt with
  | some z => if valid : 2 ≤ z ∧ z ≤ 36 then some ⟨z.toNat,radixInRange valid⟩ else none
  | none => none

def fractionText (digits : List Nat) : List UInt16 := if digits.isEmpty then [] else 46 :: spelled digits

def toStringRadix (fuel : Nat) (value radix : Double) : Option (Except NumberFormatError EcmaString) :=
  match checkedRadix radix with
  | none => some (.error .radix)
  | some radix =>
    if radix.val = 10 then some (.ok (formatNumber value))
    else match nonFinite value with
      | some text => some (.ok text)
      | none =>
        if value.isZero then some (.ok (ascii "0"))
        else
          let magnitude := abs value
          let integer := integerMagnitude magnitude
          let half := scaledBy (sub (nextUp magnitude) magnitude) 1 2
          let delta := if atLeast half ⟨1⟩ then half else ⟨1⟩
          (fractionLoop radix.val fuel (sub magnitude (trunc magnitude)) delta []).map fun result =>
            let (digits,integer) := if roundsUp result.2 result.1 then incrementRadixDigits radix.val integer result.1 else (result.1,integer)
            .ok ⟨minus value ++ integer.toRadixString radix.val radix.property ++ fractionText (digits.rdropWhile (· == 0))⟩

def isJsWhitespace (unit : UInt16) : Bool :=
  9 ≤ unit && unit ≤ 13 || unit == 0x20 || unit == 0xa0 || unit == 0x1680 || 0x2000 ≤ unit && unit ≤ 0x200a || unit == 0x2028 ||
  unit == 0x2029 || unit == 0x202f || unit == 0x205f || unit == 0x3000 || unit == 0xfeff

def overflowThreshold : Big := (Big.one.shlBits 1024).subAssign (Big.one.shlBits 970)

-- Stops at the first unit that is no digit; `none` once the value is past every finite number.
def parseDigits (radix : Nat) : List UInt16 → Big → Bool → Option (Big × Bool)
  | [], value, found => some (value,found)
  | unit :: rest, value, found =>
    match (digitValue unit).filter (· < radix) with
    | none => some (value,found)
    | some digit =>
      let value := (value.mulSmall (UInt32.ofNat radix)).addSmall (UInt32.ofNat digit)
      if value.cmp overflowThreshold ≠ .lt then none else parseDigits radix rest value true

def stripHex : List UInt16 → Option (List UInt16)
  | 48 :: 120 :: rest => some rest
  | 48 :: 88 :: rest => some rest
  | _ => none

def signed (negative : Bool) (magnitude : Double) : Double := if negative then magnitude.negate else magnitude

def parseInt (text : List UInt16) (radix : Int) : Double :=
  let (negative,text) := takeSign (text.dropWhile isJsWhitespace)
  let prefixed := radix = 0 ∨ radix = 16
  let radix := if radix = 0 then 10 else radix
  if 2 ≤ radix ∧ radix ≤ 36 then
    let (text,radix) := if prefixed then ((stripHex text).getD text,if (stripHex text).isSome then 16 else radix) else (text,radix)
    match parseDigits radix.toNat text Big.zero false with
    | none => signed negative Double.infinity
    | some (value,found) =>
      if found then signed negative ((parseF64 ⟨value.toDecimalString⟩).getD Double.infinity) else nan
  else nan

def integerText (radix : Nat) (z : Int) : List UInt16 := (if z < 0 then [45] else []) ++ spelled (numeral radix z.natAbs)

section Whole
variable {value : Double} {z : Int}

theorem zeroWhole (whole : value.toInt = some z) : value.isZero = true ↔ z.natAbs = 0 := by
  obtain ⟨-,found,-⟩ := Double.toIntCases whole
  constructor
  · intro zero
    exact Int.natAbs_eq_zero.mpr (Option.some.inj (whole.symm.trans (Double.toIntOfZero zero)))
  · intro none_
    rw [none_] at found
    rcases Double.wholeZero found with same | same
    · rw [same]
      rfl
    · rw [same]
      rfl

theorem wholeMinus (whole : value.toInt = some z) : minus value = if z < 0 then [45] else [] := by
  obtain ⟨-,-,sign⟩ := Double.toIntCases whole
  have zero := zeroWhole whole
  rw [minus]
  cases kind : value.isZero with
  | true =>
    have none_ := zero.mp kind
    have still : ¬z < 0 := by omega
    rw [Bool.not_true,Bool.and_false,if_neg Bool.false_ne_true,if_neg still]
  | false =>
    have some_ : 0 < z.natAbs := Nat.pos_of_ne_zero fun none_ => by rw [zero.mpr none_] at kind; cases kind
    rw [Bool.not_false,Bool.and_true]
    cases negative : value.negative with
    | true =>
      rw [negative,if_pos rfl] at sign
      rw [if_pos rfl,if_pos (by omega)]
    | false =>
      rw [negative,if_neg Bool.false_ne_true] at sign
      rw [if_neg Bool.false_ne_true,if_neg (by omega)]

theorem truncWhole {n} (found : value.whole = some n) (positive : 0 < n) : trunc value = value := by
  obtain ⟨large,place⟩ := Double.wholeExponent found positive
  rw [trunc,if_neg (Nat.not_lt.mpr large)]
  split
  · rfl
  · rename_i small
    have behind : 1075-value.exponent ≤ 52 := by omega
    have whole := found
    rw [Double.whole,place,if_neg small] at whole
    split at whole
    · rename_i exact_
      have inside : 2^(1075-value.exponent) ∣ 2^52 := Nat.pow_dvd_pow _ behind
      have fraction : 2^(1075-value.exponent) ∣ value.fraction := by
        rw [Double.significand,if_neg (by omega)] at exact_
        exact (Nat.dvd_add_right inside).mp (Nat.dvd_of_mod_eq_zero exact_)
      have low : value.bits.toNat%2^(1075-value.exponent) = 0 := by
        refine Nat.mod_eq_zero_of_dvd ?_
        rw [← Nat.div_add_mod value.bits.toNat (2^52)]
        exact Nat.dvd_add (Nat.dvd_mul_right_of_dvd inside _) fraction
      rw [low,Nat.sub_zero,UInt64.ofNat_toNat]
    · cases whole

theorem absWhole (value) : (abs value).whole = value.whole := by rw [Double.whole,Double.whole,absSignificand,absScale]

theorem absFinite (value) : (abs value).isFinite = value.isFinite := by rw [Double.isFinite,Double.isFinite,(absFields value).1]

theorem integerMagnitudeWhole {x n} (found : x.whole = some n) (positive : 0 < n) :
    (integerMagnitude x).value = n ↔ 2^52 ≤ n ∨ OneLimb n := by
  obtain ⟨-,digits⟩ := Double.wholeNormal found positive.ne'
  simp only [integerMagnitude,truncWhole found positive,decomposeScale]
  have whole := found
  rw [Double.whole] at whole
  split
  · rename_i up
    have same : ((x.scale : Int)-1075).toNat = x.scale-1075 := by omega
    rw [if_pos (by omega)] at whole
    rw [Big.valueShlBits,Big.valueFromU64 (significandLt x),same,Option.some.inj whole]
    refine iff_of_true rfl (.inl ?_)
    rw [← Option.some.inj whole]
    exact Nat.le_trans digits.1 (Nat.le_mul_of_pos_right _ (Nat.two_pow_pos _))
  · rename_i down
    have same : ((x.scale : Int)-1075).natAbs = 1075-x.scale := by omega
    rw [if_neg (by omega)] at whole
    split at whole
    · have divisor : (Big.one.shlBits (1075-x.scale)).value = 2^(1075-x.scale) := by rw [Big.valueShlBits,Big.valueOne,Nat.one_mul]
      have divides : 0 < (Big.one.shlBits (1075-x.scale)).value := by
        rw [divisor]
        exact Nat.two_pow_pos _
      obtain ⟨kept,-⟩ := divRemValue (Big.fromU64 x.significand) divides
      rw [divisor,Big.valueFromU64 (significandLt x),Option.some.inj whole] at kept
      have small : n < 2^52 := by
        rw [← Option.some.inj whole]
        refine Nat.div_lt_of_lt_mul (Nat.lt_of_lt_of_le digits.2 ?_)
        rw [← Nat.pow_add]
        exact Nat.pow_le_pow_right (by decide) (by omega)
      rw [same,kept.exact]
      exact ⟨Or.inr,fun limb => limb.resolve_left (Nat.not_le.mpr small)⟩
    · cases whole

theorem subSelf (finite : value.isFinite = true) : sub value value = Double.zero := by
  rw [sub,if_pos finite,Nat.sub_self,rounded,if_pos rfl]

theorem atMinimum (x) : 1 ≤ (if atLeast x ⟨1⟩ then x else ⟨1⟩ : Double).bits.toNat := by
  split
  · rename_i large
    exact of_decide_eq_true large
  · exact Nat.le_refl 1

theorem checkedRadixOf {radix} (low) (high : radix ≤ 36) : checkedRadix (Double.ofNat radix) = some ⟨radix,low⟩ := by
  have whole : (Double.ofNat radix).toInt = some (radix : Int) := Double.toIntOfNat (by omega)
  have valid : 2 ≤ (radix : Int) ∧ (radix : Int) ≤ 36 := by omega
  rw [checkedRadix,whole]
  exact dif_pos valid

theorem finiteNumber (finite : value.isFinite = true) : nonFinite value = none := by
  have plain : value.isNaN = false := by
    rw [Double.isFinite,bne_iff_ne] at finite
    simp [Double.isNaN,finite]
  rw [nonFinite,plain,finite]
  rfl

theorem toStringRadixWhole {radix} (fuel) (whole : value.toInt = some z) (low : 2 ≤ radix) (high : radix ≤ 36) (other : radix ≠ 10) :
    toStringRadix (fuel+1) value (Double.ofNat radix) =
    some (.ok ⟨minus value ++ if value.isZero then [48] else spelled (numeral radix (integerMagnitude (abs value)).value)⟩) := by
  obtain ⟨finite,found,-⟩ := Double.toIntCases whole
  rw [toStringRadix,checkedRadixOf low high,finiteNumber finite]
  change (if radix = 10 then _ else if value.isZero = true then _ else _) = _
  rw [if_neg other]
  cases kind : value.isZero with
  | true =>
    rw [if_pos rfl,if_pos rfl,minus,kind,Bool.not_true,Bool.and_false,if_neg Bool.false_ne_true]
    rfl
  | false =>
    have positive : 0 < z.natAbs := Nat.pos_of_ne_zero fun none_ => by rw [(zeroWhole whole).mpr none_] at kind; cases kind
    have still : trunc (abs value) = abs value := truncWhole ((absWhole value).trans found) positive
    rw [if_neg Bool.false_ne_true,if_neg Bool.false_ne_true]
    simp only
    rw [still,subSelf ((absFinite value).trans finite)]
    generalize less : (if atLeast _ ⟨1⟩ then _ else ⟨1⟩ : Double) = delta
    have above : 1 ≤ delta.bits.toNat := by
      rw [← less]
      exact atMinimum _
    have ends : atLeast Double.zero delta = false := by
      rw [atLeast,decide_eq_false_iff_not]
      exact Nat.not_le.mpr above
    have down : roundsUp Double.zero [] = false := by decide
    rw [fractionLoop,ends,if_neg Bool.false_ne_true,Option.map_some,down,if_neg Bool.false_ne_true,Big.toRadixStringNumeral]
    simp [fractionText]

end Whole

section Read
variable {radix : Nat}

theorem thresholdValue : overflowThreshold.value = 2^1024-2^970 := by
  have upper : (Big.one.shlBits 1024).value = 2^1024 := by rw [Big.valueShlBits,Big.valueOne,Nat.one_mul]
  have lower : (Big.one.shlBits 970).value = 2^970 := by rw [Big.valueShlBits,Big.valueOne,Nat.one_mul]
  have below : (Big.one.shlBits 970).value ≤ (Big.one.shlBits 1024).value := by
    rw [upper,lower]
    exact Nat.pow_le_pow_right (by decide) (by decide)
  rw [overflowThreshold,Big.valueSubAssign below,upper,lower]

theorem parseDigitsSpelled (low : 2 ≤ radix) (high : radix ≤ 36) {digits} (below : ∀ d ∈ digits, d < radix) (b found)
    (finite : b.value*radix^digits.length+read radix digits < overflowThreshold.value) :
    ∃ b', parseDigits radix (spelled digits) b found = some (b',found || !digits.isEmpty) ∧
      b'.value = b.value*radix^digits.length+read radix digits := by
  induction digits generalizing b found with
  | nil =>
    refine ⟨b,?_,?_⟩
    · rw [List.isEmpty_nil,Bool.not_true,Bool.or_false]
      rfl
    · rw [List.length_nil,Nat.pow_zero,Nat.mul_one]
      rfl
  | cons d rest ih =>
    have digit : d < radix := below d List.mem_cons_self
    have unit : digitValue (digitChar d) = some d := digitValueUnit (by omega)
    have wide : (UInt32.ofNat radix).toNat = radix := (ofNatToNat radix).trans (Nat.mod_eq_of_lt (by omega))
    have narrow : (UInt32.ofNat d).toNat = d := (ofNatToNat d).trans (Nat.mod_eq_of_lt (by omega))
    have next : ((b.mulSmall (UInt32.ofNat radix)).addSmall (UInt32.ofNat d)).value = b.value*radix+d := by
      rw [Big.valueAddSmall,Big.valueMulSmall,wide,narrow]
    have total : (b.value*radix+d)*radix^rest.length+read radix rest = b.value*radix^(d :: rest).length+read radix (d :: rest) := by
      rw [readCons,List.length_cons,Nat.pow_succ]
      ring
    rw [← total] at finite ⊢
    have within : b.value*radix+d < overflowThreshold.value :=
      Nat.lt_of_le_of_lt (Nat.le_add_right_of_le (Nat.le_mul_of_pos_right _ (Nat.pow_pos (by omega)))) finite
    rw [← next] at finite within ⊢
    obtain ⟨b',ran,value⟩ := ih (fun d among => below d (List.mem_cons_of_mem _ among)) _ true finite
    refine ⟨b',?_,value⟩
    have kept : (digitValue (digitChar d)).filter (fun digit => digit < radix) = some d := by
      rw [unit,Option.filter_some,if_pos (decide_eq_true digit)]
    rw [spelled,List.map_cons,parseDigits,kept]
    have small : ¬Big.cmp ((b.mulSmall (UInt32.ofNat radix)).addSmall (UInt32.ofNat d)) overflowThreshold ≠ .lt := by
      rw [Big.cmpLess]
      exact Nat.not_le.mpr within
    simp only [if_neg small]
    rw [List.isEmpty_cons,Bool.not_false,Bool.or_true]
    exact ran

theorem leadingUnits : ∀ d : Fin 36, isJsWhitespace (digitChar d) = false ∧ digitChar d ≠ 43 ∧ digitChar d ≠ 45 := by decide

theorem noMark : ∀ d : Fin 16, digitChar d ≠ 120 ∧ digitChar d ≠ 88 := by decide

theorem takesNothing {u} (rest) (plus : u ≠ 43) (minus_ : u ≠ 45) : takeSign (u :: rest) = (false,u :: rest) := by
  unfold takeSign
  split
  · rename_i same
    exact absurd (List.cons.inj same).1 plus
  · rename_i same
    exact absurd (List.cons.inj same).1 minus_
  · rfl

theorem notHex {digits} (below : ∀ d ∈ digits, d < 16) : stripHex (spelled digits) = none := by
  cases digits with
  | nil => rfl
  | cons d rest =>
    cases rest with
    | nil =>
      rw [spelled,List.map_cons,List.map_nil,stripHex]
      · intro _ same
        cases (List.cons.inj same).2
      · intro _ same
        cases (List.cons.inj same).2
    | cons e rest =>
      obtain ⟨lower,upper⟩ := noMark ⟨e,below e (List.mem_cons_of_mem _ List.mem_cons_self)⟩
      rw [spelled,List.map_cons,List.map_cons,stripHex]
      · intro _ same
        exact lower (List.cons.inj (List.cons.inj same).2).1
      · intro _ same
        exact upper (List.cons.inj (List.cons.inj same).2).1

theorem signSplit (negative : Bool) (high : radix ≤ 36) {digits} (below : ∀ d ∈ digits, d < radix) (some_ : 0 < digits.length) :
    takeSign (((if negative then [45] else []) ++ spelled digits).dropWhile isJsWhitespace) = (negative,spelled digits) := by
  cases digits with
  | nil => exact absurd some_ (Nat.lt_irrefl 0)
  | cons d rest =>
    obtain ⟨black,plus,minus_⟩ := leadingUnits ⟨d,Nat.lt_of_lt_of_le (below d List.mem_cons_self) high⟩
    cases negative with
    | true => rfl
    | false =>
      rw [if_neg Bool.false_ne_true,List.nil_append,spelled,List.map_cons,List.dropWhile_cons_of_neg (by rw [black]; exact Bool.false_ne_true)]
      exact takesNothing _ plus minus_

theorem decimalSpelled (n) : spelled (numeral 10 n) = (decimal n).asUnits := by
  have units : ∀ d : Fin 10, digitChar d = UInt16.ofNat (48+d) := by decide
  rw [numeral,decimal]
  split
  · rfl
  · exact List.map_congr_left fun d among => units ⟨d,Nat.digits_lt_base (by decide) (List.mem_reverse.mp among)⟩

theorem parseF64Digits (negative : Bool) {units} (some_ : units ≠ []) (digits : ∀ u ∈ units, isDigit u = true) :
    parseF64 ⟨(if negative then [45] else []) ++ units⟩ = some (scaled negative (digitsValue units 0) 0) := by
  cases units with
  | nil => exact absurd rfl some_
  | cons u rest =>
    have first := digits u List.mem_cons_self
    rw [isDigit,Bool.and_eq_true,decide_eq_true_eq,decide_eq_true_eq] at first
    have low : 48 ≤ u.toNat := first.1
    have high : u.toNat ≤ 57 := first.2
    have sign : takeSign ((if negative then [45] else []) ++ u :: rest) = (negative,u :: rest) := by
      cases negative with
      | true => rfl
      | false =>
        exact takesNothing rest (fun same : u = 43 => by rw [same] at low; exact absurd low (by decide))
          (fun same : u = 45 => by rw [same] at low; exact absurd low (by decide))
    have all : (u :: rest).takeWhile isDigit = u :: rest := List.takeWhile_eq_self_iff.mpr digits
    have none_ : (u :: rest).dropWhile isDigit = [] := List.dropWhile_eq_nil_iff.mpr digits
    have letter : ∀ (v : UInt16) (word : List UInt16), 97 ≤ v.toNat → (u :: rest).map lowercase ≠ v :: word := by
      intro v word above same
      have head := (List.cons.inj same).1
      have upper : ¬(65 ≤ u && u ≤ 90) = true := by
        rw [Bool.and_eq_true,decide_eq_true_eq,decide_eq_true_eq]
        exact fun letters => absurd (Nat.le_trans (show 65 ≤ u.toNat from letters.1) high) (by decide)
      rw [lowercase,if_neg upper] at head
      rw [← head] at above
      omega
    have words : (ascii "nan").asUnits = [110,97,110] ∧ (ascii "inf").asUnits = [105,110,102] ∧
        (ascii "infinity").asUnits = [105,110,102,105,110,105,116,121] := by decide
    simp only [parseF64,sign,all,none_,words]
    rw [if_neg (letter 110 _ (by decide)),if_neg (not_or.mpr ⟨letter 105 _ (by decide),letter 105 _ (by decide)⟩)]
    simp only [List.isEmpty_cons,Bool.false_and,Bool.false_eq_true,if_false,List.append_nil]
    rfl

theorem parseF64Decimal (n) : parseF64 ⟨spelled (numeral 10 n)⟩ = some (scaled false n 0) := by
  have long : 0 < (numeral 10 n).length := numeralPositive n
  have some_ : (decimal n).asUnits ≠ [] := by
    intro none_
    have short : (spelled (numeral 10 n)).length = 0 := by rw [decimalSpelled,none_]; rfl
    rw [spelled,List.length_map] at short
    omega
  have parsed := parseF64Digits false some_ (decimalUnits n)
  rw [decimalValue n] at parsed
  rw [decimalSpelled]
  exact parsed

theorem finiteBelow {x : Double} {n} (finite : x.isFinite = true) (found : x.whole = some n) : n < overflowThreshold.value := by
  have scaled := Double.wholePlace found
  have fraction : x.fraction < 2^52 := Nat.mod_lt _ (by decide)
  have digits : x.significand ≤ 2^53-1 := by
    rw [Double.significand]
    split <;> omega
  have place : x.scale ≤ 2046 := by
    have bound : x.exponent < 2^11 := Nat.mod_lt _ (by decide)
    rw [Double.isFinite,bne_iff_ne] at finite
    rw [Double.scale]
    omega
  have most : n*2^1075 ≤ (2^53-1)*2^971*2^1075 := by
    calc n*2^1075 = x.significand*2^x.scale := scaled.symm
      _ ≤ (2^53-1)*2^2046 := Nat.mul_le_mul digits (Nat.pow_le_pow_right (by decide) place)
      _ = (2^53-1)*2^971*2^1075 := by rw [Nat.mul_assoc,← Nat.pow_add]
  exact Nat.lt_of_le_of_lt (Nat.le_of_mul_le_mul_right most (Nat.two_pow_pos _)) (by decide +kernel)

theorem signedBits (negative x) : (signed negative x).bits.toNat%2^63 = x.bits.toNat%2^63 ∧
    (signed negative x).negative = (negative ^^ x.negative) := by
  cases negative with
  | true =>
    obtain ⟨bits,sign⟩ := x.negateFields
    exact ⟨bits,sign.trans (Bool.true_xor _).symm⟩
  | false => exact ⟨rfl,(Bool.false_xor _).symm⟩

theorem sameNumber {x y : Double} (bits : x.bits.toNat%2^63 = y.bits.toNat%2^63) (sign : x.negative = y.negative) : x = y := by
  have fields : x.bits.toNat = y.bits.toNat := by
    have small : x.bits.toNat < 2^64 := x.bits.toNat_lt
    have small' : y.bits.toNat < 2^64 := y.bits.toNat_lt
    have top_ : 2^63 ≤ x.bits.toNat ↔ 2^63 ≤ y.bits.toNat := decide_eq_decide.mp sign
    omega
  exact congrArg Double.mk (UInt64.toNat_inj.mp fields)

theorem parseIntSpelled {value z} (whole : value.toInt = some z) (low : 2 ≤ radix) (high : radix ≤ 36) :
    (parseInt (integerText radix z) radix).eq value = true := by
  obtain ⟨finite,found,sign⟩ := Double.toIntCases whole
  have below := numeralBelow (show 1 < radix by omega) z.natAbs
  have start := signSplit (decide (z < 0)) high below (numeralPositive z.natAbs)
  have text : (if decide (z < 0) then [45] else []) ++ spelled (numeral radix z.natAbs) = integerText radix z := by simp [integerText]
  rw [text] at start
  have total : Big.zero.value*radix^(numeral radix z.natAbs).length+read radix (numeral radix z.natAbs) = z.natAbs := by
    rw [Big.valueZero,Nat.zero_mul,Nat.zero_add,readNumeral]
  obtain ⟨b,ran,value_⟩ := parseDigitsSpelled low high below Big.zero false (by rw [total]; exact finiteBelow finite found)
  rw [total] at value_
  have some_ : (numeral radix z.natAbs).isEmpty = false := by
    rw [List.isEmpty_eq_false_iff]
    exact List.ne_nil_of_length_pos (numeralPositive _)
  rw [some_,Bool.not_false,Bool.or_true] at ran
  have result : parseInt (integerText radix z) radix = signed (decide (z < 0)) (scaled false z.natAbs 0) := by
    have real : (radix : Int) ≠ 0 := by omega
    have valid : 2 ≤ (radix : Int) ∧ (radix : Int) ≤ 36 := by omega
    have plain : (radix : Int) = 0 ∨ (radix : Int) = 16 → stripHex (spelled (numeral radix z.natAbs)) = none := by
      intro hex
      have sixteen : radix = 16 := by omega
      rw [sixteen]
      exact notHex (numeralBelow (by decide) z.natAbs)
    simp only [parseInt,start,if_neg real,if_pos valid]
    by_cases prefixed : (radix : Int) = 0 ∨ (radix : Int) = 16
    · simp only [if_pos prefixed,plain prefixed,Option.getD_none,Option.isSome_none,Bool.false_eq_true,if_false,Int.toNat_natCast,ran,if_true]
      rw [Big.toDecimalStringNumeral,value_,parseF64Decimal,Option.getD_some]
    · simp only [if_neg prefixed,Int.toNat_natCast,ran,if_true]
      rw [Big.toDecimalStringNumeral,value_,parseF64Decimal,Option.getD_some]
  have plain := Double.plainOfInt whole
  rw [result]
  rcases Nat.eq_zero_or_pos z.natAbs with none_ | positive
  · have still : ¬z < 0 := by omega
    have zero := (zeroWhole whole).mpr none_
    rw [none_,decide_eq_false still]
    rw [Double.eq,plain,zero]
    exact (Bool.or_true _)
  · have nearest : scaled false z.natAbs 0 = Double.nearest z.natAbs 1 := by
      simp only [scaled,Bool.false_eq_true,if_false,if_neg positive.ne',le_refl,if_true,Int.toNat_zero,Nat.pow_zero,Nat.mul_one]
    have unsigned : (Double.nearest z.natAbs 1).negative = false := by
      have kept := Double.ofNatSign z.natAbs
      rwa [Double.ofNat,if_neg positive.ne'] at kept
    obtain ⟨bits,sign'⟩ := signedBits (decide (z < 0)) (Double.nearest z.natAbs 1)
    have same : signed (decide (z < 0)) (Double.nearest z.natAbs 1) = value := by
      refine sameNumber ?_ ?_
      · rw [bits,Double.nearestWhole finite found positive,Nat.mod_mod]
      · rw [sign',unsigned,Bool.xor_false]
        cases negative : value.negative with
        | true =>
          rw [negative,if_pos rfl] at sign
          exact decide_eq_true (by omega)
        | false =>
          rw [negative,if_neg Bool.false_ne_true] at sign
          exact decide_eq_false (by omega)
    rw [nearest,same,Double.eq,plain,beq_self_eq_true]
    rfl

end Read

theorem radixRoundTrip (value : Double) (z : Int) (radix fuel : Nat) (whole : value.toInt = some z) (low : 2 ≤ radix) (high : radix ≤ 36) (other : radix ≠ 10) :
    (∃ text, toStringRadix (fuel+1) value (Double.ofNat radix) = some (.ok text) ∧ text.asUnits = integerText radix z ∧
      (parseInt text.asUnits radix).eq value = true) ↔ 2^52 ≤ z.natAbs ∨ OneLimb z.natAbs := by
  obtain ⟨finite,found,-⟩ := Double.toIntCases whole
  have sign := wholeMinus whole
  rw [toStringRadixWhole fuel whole low high other,sign]
  cases kind : value.isZero with
  | true =>
    have none_ := (zeroWhole whole).mp kind
    have text : ((if z < 0 then [45] else []) ++ if true = true then [48] else spelled (numeral radix (integerMagnitude (abs value)).value)) = integerText radix z := by
      rw [if_pos rfl,integerText,none_]
      rfl
    rw [text]
    exact iff_of_true ⟨_,rfl,rfl,parseIntSpelled whole low high⟩ (.inr (by rw [none_]; exact oneLimbSmall (by decide)))
  | false =>
    have positive : 0 < z.natAbs := Nat.pos_of_ne_zero fun none_ => by rw [(zeroWhole whole).mpr none_] at kind; cases kind
    rw [if_neg Bool.false_ne_true,← integerMagnitudeWhole ((absWhole value).trans found) positive]
    have small : ∀ n, ∀ d ∈ numeral radix n, d < 36 := fun n d among => Nat.lt_of_lt_of_le (numeralBelow (by omega) n d among) high
    constructor
    · rintro ⟨text,printed,same,-⟩
      have units := congrArg EcmaString.asUnits (Except.ok.inj (Option.some.inj printed))
      exact numeralInjective (spelledUnique (small _) (small _) (List.append_cancel_left (units.trans same)))
    · intro exact_
      rw [exact_]
      exact ⟨_,rfl,rfl,parseIntSpelled whole low high⟩

theorem radixRoundTripHex : ∃ text, toStringRadix 1 ⟨0x406fe00000000000⟩ (Double.ofNat 16) = some (.ok text) ∧ text.asUnits = integerText 16 255 ∧
    (parseInt text.asUnits (16 : Nat)).eq ⟨0x406fe00000000000⟩ = true :=
  (radixRoundTrip ⟨0x406fe00000000000⟩ 255 16 0 (by decide) (by decide) (by decide) (by decide)).mpr (.inr (oneLimbSmall (by decide)))

theorem radixTruncates : toStringRadix 1 ⟨0x41f0000000100000⟩ (Double.ofNat 16) = some (.ok (ascii "1")) ∧
    (⟨0x41f0000000100000⟩ : Double).toInt = some 4294967297 ∧ integerText 16 4294967297 = (ascii "100000001").asUnits ∧
    (parseInt (ascii "1").asUnits 16).eq ⟨0x41f0000000100000⟩ = false := by
  have printed : toStringRadix 1 ⟨0x41f0000000100000⟩ (Double.ofNat 16) = some (.ok (ascii "1")) := by
    have digit : (integerMagnitude (abs ⟨0x41f0000000100000⟩)).value = 1 := by decide +kernel
    have real : Double.isZero ⟨0x41f0000000100000⟩ = false := by decide
    rw [toStringRadixWhole 0 (show Double.toInt ⟨0x41f0000000100000⟩ = some 4294967297 by decide) (by decide) (by decide) (by decide),real,
      if_neg Bool.false_ne_true,digit]
    decide
  have read_ : parseInt (ascii "1").asUnits 16 = Double.ofNat 1 := by
    decide +kernel
  refine ⟨printed,by decide,by decide,?_⟩
  rw [read_]
  decide +kernel

end Bamts.NumberFormat
