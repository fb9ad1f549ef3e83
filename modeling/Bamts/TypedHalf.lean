import Bamts.CheckedWord
import Bamts.BinaryFormat
import Bamts.NumberRadix
import Bamts.RuntimeLiteral
import Mathlib.Data.Nat.Bitwise

/-! Half-precision elements: a number to its nearest binary16 pattern, and a pattern to its number. -/
set_option linter.all false
namespace Bamts.TypedHalf
open Binary64 BinaryFormat CheckedWord NearestPoint

def shiftedOut (value shift : Nat) : Option Nat := if shift = 64 then some 0 else shiftRight value shift

def remainderMask (shift : Nat) : Option Nat :=
  if shift = 64 then some (2^64-1)
  else do
    let one ← shiftLeft 1 shift
    subtract one 1

def roundShiftTiesEven (value shift : Nat) : Option Nat :=
  if shift = 0 then some value
  else if 64 < shift then some 0
  else do
    let quotient ← shiftedOut value shift
    let mask ← remainderMask shift
    let halfway ← shiftLeft 1 (shift-1)
    add quotient (if halfway < value &&& mask || value &&& mask == halfway && quotient &&& 1 == 1 then 1 else 0)

def placeExponent (exponent : Int) : Nat := exponent.toNat%2^16*2^10%2^16

def halfBits (sign exponent fraction : Nat) : Option UInt16 :=
  let unbiased : Int := exponent-1023
  if exponent = 0x7ff then some (UInt16.ofNat (if fraction = 0 then sign ||| 0x7c00 else sign ||| 0x7e00))
  else if exponent = 0 then some (UInt16.ofNat sign)
  else if 15 < unbiased then some (UInt16.ofNat (sign ||| 0x7c00))
  else if unbiased < -25 then some (UInt16.ofNat sign)
  else if -14 ≤ unbiased then do
    let rounded ← roundShiftTiesEven (2^52 ||| fraction) 42
    if rounded = 0x800 then
      if 31 ≤ unbiased+16 then some (UInt16.ofNat (sign ||| 0x7c00)) else some (UInt16.ofNat (sign ||| placeExponent (unbiased+16)))
    else some (UInt16.ofNat (sign ||| placeExponent (unbiased+15) ||| (rounded%2^16 &&& 0x3ff)))
  else do
    let rounded ← roundShiftTiesEven (2^52 ||| fraction) (28-unbiased).toNat
    some (UInt16.ofNat (sign ||| rounded%2^16))

def f64ToF16Bits (number : Double) : Option UInt16 :=
  halfBits ((number.bits.toNat >>> 48 &&& 0x8000)%2^16) (number.bits.toNat >>> 52 &&& 0x7ff) (number.bits.toNat &&& (2^52-1))

def times (x y : Double) : Double :=
  NumberFormat.rounded (Runtime.numerator x*Runtime.numerator y) (Runtime.denominator x*Runtime.denominator y)

def divided (x y : Double) : Double :=
  NumberFormat.rounded (Runtime.numerator x*Runtime.denominator y) (Runtime.denominator x*Runtime.numerator y)

def plus (x y : Double) : Double :=
  NumberFormat.rounded (Runtime.numerator x*Runtime.denominator y+Runtime.numerator y*Runtime.denominator x)
    (Runtime.denominator x*Runtime.denominator y)

-- `2_f64.powi`
def powerOfTwo (exponent : Int) : Double := NumberFormat.rounded (2^exponent.toNat) (2^(-exponent).toNat)

def wideMagnitude (exponent fraction : Nat) : Double :=
  if exponent = 0 then
    if fraction = 0 then Double.zero else times (Double.ofNat fraction) (powerOfTwo (-24))
  else if exponent = 0x1f then
    if fraction = 0 then Double.infinity else Runtime.nan
  else times (plus (Double.ofNat 1) (divided (Double.ofNat fraction) (Double.ofNat 1024))) (powerOfTwo (exponent-15))

def f16BitsToF64 (bits : UInt16) : Double :=
  let magnitude := wideMagnitude (bits.toNat >>> 10 &&& 0x1f) (bits.toNat &&& 0x03ff)
  if bits.toNat &&& 0x8000 != 0 then magnitude.negate else magnitude

theorem oneShifted {count} (width : count < 64) : shiftLeft 1 count = some (2^count) := by
  have room : 1*2^count < 2^64 := by
    rw [Nat.one_mul]
    exact Nat.pow_lt_pow_right (by decide) width
  rw [shiftLeftExact width room,Nat.one_mul]

theorem roundShiftEven {value shift} (some_ : 0 < shift) (width : shift < 64) (word : value < 2^64) :
    roundShiftTiesEven value shift = some (roundEven (value/2^shift) (value%2^shift) (2^shift)) := by
  obtain ⟨below,rfl⟩ := Nat.exists_eq_succ_of_ne_zero some_.ne'
  have out : shiftedOut value (below+1) = some (value/2^(below+1)) := by rw [shiftedOut,if_neg width.ne,shiftRightExact width]
  have mask : remainderMask (below+1) = some (2^(below+1)-1) := by
    rw [remainderMask,if_neg width.ne,oneShifted width]
    exact subtractExact Nat.one_le_two_pow
  have half : shiftLeft 1 (below+1-1) = some (2^below) := oneShifted (Nat.lt_of_succ_lt width)
  have less : value/2^(below+1)+1 < 2^64 := by
    have part := @Nat.div_le_div_left 2 (2^(below+1)) value (Nat.le_self_pow (Nat.succ_ne_zero below) 2) two_pos
    omega
  have up : (decide (2^below < value%2^(below+1)) || value%2^(below+1) == 2^below && value/2^(below+1)%2 == 1) = true ↔
      (2^(below+1) < 2*(value%2^(below+1)) ∨ 2*(value%2^(below+1)) = 2^(below+1) ∧ value/2^(below+1)%2 = 1) := by
    rw [Bool.or_eq_true,Bool.and_eq_true,decide_eq_true_eq,beq_iff_eq,beq_iff_eq,pow_succ]
    omega
  rw [roundShiftTiesEven,if_neg (Nat.succ_ne_zero below),if_neg (by omega),Option.bind_eq_bind,out,Option.bind_some,mask,Option.bind_some,half,
    Option.bind_some,Nat.and_two_pow_sub_one_eq_mod,Nat.and_one_is_mod,roundEven]
  by_cases cond : (decide (2^below < value%2^(below+1)) || value%2^(below+1) == 2^below && value/2^(below+1)%2 == 1) = true
  · rw [if_pos cond,if_pos (up.mp cond),addExact less]
  · rw [if_neg cond,if_neg fun past => cond (up.mpr past),addExact (Nat.lt_of_succ_lt less),Nat.add_zero]

variable {e f : Nat}

theorem scaleShift {a b c d : Nat} (same : a+d = b+c) : (2 : ℚ)^a/2^b = 2^c/2^d := by
  rw [div_eq_div_iff (by positivity) (by positivity),← pow_add,← pow_add,same,Nat.add_comm b]

theorem normalMagnitude (some_ : 1 ≤ e) (short : f < 2^52) : binary64.magnitude (e*2^52+f) = (2^52+f : Nat)*(2^(e-1)/2^1074) := by
  have split : e*2^52+f = (e-1)*2^52+(2^52+f) := by omega
  have unit : binary64.least = 1/2^1074 := rfl
  have place : units 52 ((e-1)*2^52+(2^52+f)) = (2^52+f)*2^(e-1) := unitsPack (.inr (Nat.le_add_right _ _)) (by omega)
  have code : binary64.magnitude (e*2^52+f) = grid 52 (e*2^52+f)*binary64.least := rfl
  rw [code,split,grid,place,unit,Nat.cast_mul,Nat.cast_pow,Nat.cast_ofNat,mul_assoc,mul_one_div]

/-- Where the exponent is one of the normal numbers, or too large. -/
theorem nearestNormal (least : 1009 ≤ e) (short : f < 2^52) : Nearest binary16.magnitude (binary64.magnitude (e*2^52+f))
    ((e-1009)*2^10+roundEven ((2^52+f)/2^42) ((2^52+f)%2^42) (2^42)) := by
  refine @Format.nearestPacked binary16 _ (e-1009) ((2^52+f)/2^42) ((2^52+f)%2^42) (2^42) (.inr (show 2^10 ≤ _ by omega))
    (show _ < 2^11 by omega) (Nat.mod_lt _ (Nat.two_pow_pos _)) ?_
  have unit : binary16.least = 1/2^24 := rfl
  have place : (2 : ℚ)^(e-1)/2^1074 = 2^(e-1009)/2^66 := scaleShift (by omega)
  rw [normalMagnitude (by omega) short,place,unit,← Nat.cast_mul,← Nat.cast_add,Nat.div_add_mod',Nat.cast_pow,Nat.cast_ofNat]
  ring

theorem nearestSubnormal (most : 998 ≤ e) (less : e < 1009) (short : f < 2^52) : Nearest binary16.magnitude (binary64.magnitude (e*2^52+f))
    (roundEven ((2^52+f)/2^(1051-e)) ((2^52+f)%2^(1051-e)) (2^(1051-e))) := by
  have fits : (2^52+f)/2^(1051-e) < 2^11 := by
    refine Nat.div_lt_of_lt_mul (lt_of_lt_of_le (show 2^52+f < 2^53 by omega) ?_)
    rw [← pow_add]
    exact Nat.pow_le_pow_right two_pos (by omega)
  have nearest := @Format.nearestPacked binary16 (binary64.magnitude (e*2^52+f)) 0 ((2^52+f)/2^(1051-e)) ((2^52+f)%2^(1051-e)) (2^(1051-e)) (.inl rfl)
    fits (Nat.mod_lt _ (Nat.two_pow_pos _)) ?_
  · rwa [Nat.zero_mul,Nat.zero_add] at nearest
  · have unit : binary16.least = 1/2^24 := rfl
    have place : (2 : ℚ)^(e-1)/2^1074 = 2^0/2^(1051-e+24) := scaleShift (by omega)
    rw [normalMagnitude (by omega) short,place,unit,← Nat.cast_mul,← Nat.cast_add,Nat.div_add_mod',Nat.cast_pow,Nat.cast_ofNat,pow_add]
    field_simp

theorem nearestTiny {code} (less : code < 998*2^52) : Nearest binary16.magnitude (binary64.magnitude code) 0 := by
  have bound := binary64.magnitudeRising less
  have unit : binary16.least = 1/2^24 := rfl
  have first : binary16.magnitude 1 = 1/2^24 := by
    have one : units 10 1 = 1 := by decide
    have code : binary16.magnitude 1 = grid 10 1*binary16.least := rfl
    rw [code,grid,one,unit,Nat.cast_one,one_mul]
  have place : (2 : ℚ)^(998-1)/2^1074 = 2^0/2^77 := scaleShift (by decide)
  have limit := @normalMagnitude 998 0 (by decide) (by decide)
  rw [Nat.add_zero] at limit
  rw [limit,place] at bound
  refine nearestDown binary16.magnitudeRising ?_ (.inl ?_)
  · rw [binary16.magnitudeZero]
    exact binary64.magnitudeNonneg code
  · rw [binary16.magnitudeZero,first]
    linarith

def half (minus : Bool) (code : Nat) : UInt16 := UInt16.ofNat (binary16.join minus code)

theorem halfCode {minus code} (less : code < 2^15) : UInt16.ofNat (minus.toNat*2^15 ||| code) = half minus code := by
  rw [joinBits 15 less]
  rfl

theorem infinity16 : binary16.infinity = 31*2^10 := by decide

theorem placeSmall {n : Nat} (small : n < 32) : placeExponent n = n*2^10 := by
  rw [placeExponent,Int.toNat_natCast]
  omega

theorem roundEvenRange (q r divisor) : q ≤ roundEven q r divisor ∧ roundEven q r divisor ≤ q+1 := by
  rw [roundEven]
  split <;> omega

theorem significandJoined (short : f < 2^52) : 2^52 ||| f = 2^52+f := by
  have joined := @joinBits 1 f 52 short
  rwa [Nat.one_mul] at joined

def Halves (minus : Bool) (e f code : Nat) : Prop := halfBits (minus.toNat*2^15) e f = some (half minus (min code binary16.infinity))

theorem halfTiny (minus) (tiny : e < 998) : Halves minus e f 0 := by
  have zero := @halfCode minus 0 (by decide)
  rw [Nat.or_zero] at zero
  rw [Halves,halfBits,if_neg (by omega),Nat.zero_min,← zero]
  by_cases none : e = 0
  · rw [if_pos none]
  · rw [if_neg none,if_neg (by omega),if_pos (by omega)]

theorem halfSubnormal (minus) (some_ : 998 ≤ e) (less : e < 1009) (short : f < 2^52) :
    Halves minus e f (roundEven ((2^52+f)/2^(1051-e)) ((2^52+f)%2^(1051-e)) (2^(1051-e))) := by
  have count : (28-((e : Int)-1023)).toNat = 1051-e := by omega
  have rounded := @roundShiftEven (2^52+f) (1051-e) (by omega) (by omega) (by omega)
  have few : (2^52+f)/2^(1051-e) < 2^10 := by
    refine Nat.div_lt_of_lt_mul (lt_of_lt_of_le (show 2^52+f < 2^53 by omega) ?_)
    rw [← pow_add]
    exact Nat.pow_le_pow_right two_pos (by omega)
  have range := roundEvenRange ((2^52+f)/2^(1051-e)) ((2^52+f)%2^(1051-e)) (2^(1051-e))
  rw [Halves,halfBits,if_neg (by omega),if_neg (by omega),if_neg (by omega),if_neg (by omega),if_neg (by omega),significandJoined short,count,rounded,
    Option.bind_eq_bind,Option.bind_some,infinity16]
  rw [Nat.mod_eq_of_lt (by omega),Nat.min_eq_left (by omega),halfCode (by omega)]

/-- A significand that rounds up to a power of two goes to the next exponent. -/
theorem halfNormal (minus) (some_ : 1009 ≤ e) (finite : e < 2047) (short : f < 2^52) :
    Halves minus e f ((e-1009)*2^10+roundEven ((2^52+f)/2^42) ((2^52+f)%2^42) (2^42)) := by
  obtain ⟨t,rfl⟩ := Nat.exists_eq_add_of_le some_
  have rounded := @roundShiftEven (2^52+f) 42 (by decide) (by decide) (by omega)
  have range := roundEvenRange ((2^52+f)/2^42) ((2^52+f)%2^42) (2^42)
  rw [Halves,halfBits,if_neg (by omega),if_neg (by omega),significandJoined short,rounded,Option.bind_eq_bind,Option.bind_some,Nat.add_sub_cancel_left,
    infinity16]
  generalize roundEven ((2^52+f)/2^42) ((2^52+f)%2^42) (2^42) = m at range ⊢
  by_cases large : 15 < ((1009+t : Nat) : Int)-1023
  · rw [if_pos large,Nat.min_eq_right (by omega),halfCode (by decide)]
    rfl
  rw [if_neg large,if_neg (by omega),if_pos (by omega)]
  by_cases carry : m = 0x800
  · rw [if_pos carry,carry]
    by_cases last : 31 ≤ ((1009+t : Nat) : Int)-1023+16
    · rw [if_pos last,Nat.min_eq_right (by omega),halfCode (by decide)]
      rfl
    · have next : ((1009+t : Nat) : Int)-1023+16 = (t+2 : Nat) := by omega
      have code : (t+2)*2^10 = t*2^10+0x800 := by omega
      rw [if_neg last,next,placeSmall (by omega),halfCode (by omega),Nat.min_eq_left (by omega),code]
  · have exponent : ((1009+t : Nat) : Int)-1023+15 = (t+1 : Nat) := by omega
    have low : m%2^16 &&& 0x3ff = m-2^10 := by
      have mask := @Nat.and_two_pow_sub_one_eq_mod (m%2^16) 10
      rw [show 2^10-1 = 0x3ff by decide] at mask
      omega
    have code : (t+1)*2^10+(m-2^10) = t*2^10+m := by omega
    rw [if_neg carry,exponent,placeSmall (by omega),low,Nat.or_assoc,joinBits 10 (by omega),code,halfCode (by omega),Nat.min_eq_left (by omega)]

/-- In every zone the code is the nearest one, or the infinity when that is no number of the format. -/
theorem halfBitsNearest (finite : e < 2047) (short : f < 2^52) :
    ∃ code, Nearest binary16.magnitude (binary64.magnitude (e*2^52+f)) code ∧ ∀ minus, Halves minus e f code := by
  rcases Nat.lt_or_ge e 998 with tiny | some_
  · exact ⟨0,nearestTiny (by omega),fun minus => halfTiny minus tiny⟩
  rcases Nat.lt_or_ge e 1009 with subnormal | normal
  · exact ⟨_,nearestSubnormal some_ subnormal short,fun minus => halfSubnormal minus some_ subnormal short⟩
  · exact ⟨_,nearestNormal normal short,fun minus => halfNormal minus normal finite short⟩

theorem infinity64 : binary64.infinity = 2047*2^52 := by decide

theorem doubleParts (x : Double) : binary64.code x.bits.toNat = x.exponent*2^52+x.fraction ∧
    x.exponent ≤ 2047 ∧ x.fraction < 2^52 ∧ (x.bits.toNat >>> 48 &&& 0x8000)%2^16 = (binary64.negative x.bits.toNat).toNat*2^15 := by
  have codes : binary64.codes = 2^63 := by decide
  have sign : x.bits.toNat >>> 48 &&& 0x8000 = (binary64.negative x.bits.toNat).toNat*2^15 := by
    have bit := Nat.and_two_pow (x.bits.toNat >>> 48) 15
    rw [Nat.testBit_eq_decide_div_mod_eq,Nat.shiftRight_eq_div_pow,Nat.div_div_eq_div_mul,← pow_add] at bit
    rw [Format.negative,codes,Nat.shiftRight_eq_div_pow]
    exact bit
  refine ⟨?_,?_,?_,?_⟩
  · rw [Format.code,codes,Double.exponent,Double.fraction]
    omega
  · rw [Double.exponent]
    omega
  · rw [Double.fraction]
    omega
  · rw [sign]
    cases binary64.negative x.bits.toNat <;> decide

theorem halfFields (x) : f64ToF16Bits x = halfBits ((binary64.negative x.bits.toNat).toNat*2^15) x.exponent x.fraction := by
  have mask := @Nat.and_two_pow_sub_one_eq_mod (x.bits.toNat >>> 52) 11
  rw [f64ToF16Bits,(doubleParts x).2.2.2,mask,Nat.and_two_pow_sub_one_eq_mod,Nat.shiftRight_eq_div_pow]
  rfl

theorem halfNat (minus) {code} (less : code < 2^15) : (half minus code).toNat = binary16.join minus code := by
  have codes : binary16.codes = 2^15 := by decide
  have bit := Bool.toNat_le minus
  refine UInt16.toNat_ofNat_of_lt' (show _ < 2^16 from ?_)
  rw [Format.join,codes]
  omega

theorem halfParts (minus) {code} (less : code < 2^15) :
    binary16.negative (half minus code).toNat = minus ∧ binary16.code (half minus code).toNat = code := by
  rw [halfNat minus less]
  exact Format.joinParts less

theorem halfJoin (h) : half (binary16.negative h.toNat) (binary16.code h.toNat) = h := by
  have codes : binary16.codes = 2^15 := by decide
  have word : h.toNat < 2^16 := h.toNat_lt
  have whole : binary16.join (binary16.negative h.toNat) (binary16.code h.toNat) = h.toNat := by
    rw [Format.join,Format.negative,Format.code,codes]
    rcases (show h.toNat/2^15%2 = 0 ∨ h.toNat/2^15%2 = 1 by omega) with clear | set
    · rw [clear,show (0 == 1) = false from rfl,Bool.toNat_false]
      omega
    · rw [set,show (1 == 1) = true from rfl,Bool.toNat_true]
      omega
  rw [half,whole,UInt16.ofNat_toNat]

theorem specialHalf (x) (special : x.exponent = 2047) :
    f64ToF16Bits x = some (half (binary64.negative x.bits.toNat) (if x.fraction = 0 then binary16.infinity else 0x7e00)) := by
  rw [halfFields,halfBits,if_pos special,infinity16]
  split
  · rw [halfCode (by decide)]
    rfl
  · rw [halfCode (by decide)]

/-- A number goes to the code nearest to its magnitude under its sign, an infinity to the infinity. -/
theorem halfOfNumber (x) (number : ¬binary64.IsNaN x.bits.toNat) : ∃ code,
    f64ToF16Bits x = some (half (binary64.negative x.bits.toNat) (min code binary16.infinity)) ∧
    (binary64.IsFinite x.bits.toNat → Nearest binary16.magnitude (binary64.magnitude (binary64.code x.bits.toNat)) code) ∧
    (binary64.IsInfinite x.bits.toNat → code = binary16.infinity) := by
  obtain ⟨parts,most,short,-⟩ := doubleParts x
  rw [Format.IsNaN,infinity64,parts] at number
  rw [Format.IsFinite,Format.IsInfinite,infinity64,parts]
  rcases Nat.lt_or_eq_of_le most with finite | special
  · obtain ⟨code,nearest,halves⟩ := halfBitsNearest finite short
    refine ⟨code,?_,fun _ => nearest,fun infinite => absurd infinite (by omega)⟩
    rw [halfFields]
    exact halves _
  · refine ⟨binary16.infinity,?_,fun finite => absurd finite (by omega),fun _ => rfl⟩
    rw [specialHalf x special,if_pos (by omega),Nat.min_self]

theorem halfMinLess (code) : min code binary16.infinity < 2^15 := lt_of_le_of_lt (Nat.min_le_right _ _) (by decide)

/-- Rounding keeps the order of the magnitudes, infinities among them. -/
theorem halfOrder {c d a b} (less : c ≤ d) (most : d ≤ binary64.infinity)
    (first : c < binary64.infinity → Nearest binary16.magnitude (binary64.magnitude c) a)
    (second : d < binary64.infinity → Nearest binary16.magnitude (binary64.magnitude d) b) (infinite : d = binary64.infinity → b = binary16.infinity) :
    min a binary16.infinity ≤ min b binary16.infinity := by
  rcases Nat.lt_or_eq_of_le most with finite | infinite_
  · have order := nearestMono binary16.magnitudeRising (binary64.magnitudeRising.monotone less) (first (lt_of_le_of_lt less finite)) (second finite)
    exact Nat.le_min.mpr ⟨(Nat.min_le_left _ _).trans order,Nat.min_le_right _ _⟩
  · rw [infinite infinite_,Nat.min_self]
    exact Nat.min_le_right _ _

theorem halfZero {c a} (zero : c = 0) (nearest : c < binary64.infinity → Nearest binary16.magnitude (binary64.magnitude c) a) :
    min a binary16.infinity = 0 := by
  have nearest_ := nearest (by rw [zero]; exact binary64.infinityPositive)
  have exact_ := @nearestExact ℚ _ _ _ _ 0 binary16.magnitudeRising
  rw [binary16.magnitudeZero] at exact_
  rw [zero,binary64.magnitudeZero] at nearest_
  rw [nearestUnique binary16.magnitudeRising nearest_ exact_,Nat.zero_min]

theorem halfMonotone {x y h k} (numbers : ¬binary64.IsNaN x.bits.toNat ∧ ¬binary64.IsNaN y.bits.toNat)
    (order : binary64.extended x.bits.toNat ≤ binary64.extended y.bits.toNat) (first : f64ToF16Bits x = some h) (second : f64ToF16Bits y = some k) :
    binary16.extended h.toNat ≤ binary16.extended k.toNat := by
  obtain ⟨a,first_,nearest,infinite⟩ := halfOfNumber x numbers.1
  obtain ⟨b,second_,nearest',infinite'⟩ := halfOfNumber y numbers.2
  obtain rfl := Option.some.inj (first_.symm.trans first)
  obtain rfl := Option.some.inj (second_.symm.trans second)
  obtain ⟨sign,code⟩ := halfParts (binary64.negative x.bits.toNat) (halfMinLess a)
  obtain ⟨sign',code'⟩ := halfParts (binary64.negative y.bits.toNat) (halfMinLess b)
  rw [Format.extended,Format.extended,sign,sign',code,code']
  obtain ⟨most,most'⟩ := numbers
  rw [Format.IsNaN,not_lt] at most most'
  rw [Format.extended,Format.extended] at order
  cases minus : binary64.negative x.bits.toNat
  · cases minus' : binary64.negative y.bits.toNat
    · rw [minus,minus'] at order
      exact Format.sideRising (halfOrder (not_lt.mp fun less => not_lt.mpr order (Format.sideLess less most)) most' nearest nearest' infinite')
    · rw [minus,minus'] at order
      obtain ⟨zero,zero'⟩ := Format.sideMeet _ _ order
      rw [halfZero zero nearest,halfZero zero' nearest']
      exact Format.sideZero.le
  · cases minus' : binary64.negative y.bits.toNat
    · exact Format.sideApart _ _
    · rw [minus,minus'] at order
      exact Format.sideFalling (halfOrder (not_lt.mp fun less => not_lt.mpr order (Format.sideMore less most')) most nearest' nearest infinite)

/-- A number that a pattern stands for goes to the pattern. -/
theorem halfBack {x h} (number : ¬binary64.IsNaN x.bits.toNat) (number' : ¬binary16.IsNaN h.toNat)
    (sign : binary64.negative x.bits.toNat = binary16.negative h.toNat) (same : binary64.extended x.bits.toNat = binary16.extended h.toNat) :
    f64ToF16Bits x = some h := by
  obtain ⟨code,run,nearest,infinite⟩ := halfOfNumber x number
  have code_ : min code binary16.infinity = binary16.code h.toNat := by
    rw [Format.IsNaN,not_lt] at number number'
    rw [Format.extended,Format.extended,sign] at same
    rcases Format.sideSame number number' same with ⟨all,all'⟩ | ⟨less,less',equal⟩
    · rw [infinite all,all',Nat.min_self]
    · have nearest_ := nearest less
      rw [equal] at nearest_
      rw [nearestUnique binary16.magnitudeRising nearest_ (nearestExact binary16.magnitudeRising),Nat.min_eq_left less'.le]
  rw [run,sign,code_,halfJoin]

variable {x y : Double} {a b : ℚ} {num den m s : Nat}

/-- Above the least scale no significand is short. -/
theorem fitScaleNormal (some_ : 0 < num) (some_' : 0 < den) :
    1 ≤ Double.fitScale num den ∧ (Double.fitScale num den = 1 ∨ 2^52 ≤ num*2^1075/(den*2^Double.fitScale num den)) := by
  have bottom : ∀ place, 0 < den*2^place := fun place => Nat.mul_pos some_' (Nat.two_pow_pos place)
  rw [Double.fitScale]
  split
  · refine ⟨Nat.le_max_right _ _,?_⟩
    rcases Nat.lt_or_ge 1 (1075+num.log2-den.log2-53) with large | small
    · right
      rw [Nat.max_eq_left large.le,Nat.le_div_iff_mul_le (bottom _)]
      calc 2^52*(den*2^(1075+num.log2-den.log2-53)) ≤ 2^52*(2^(den.log2+1)*2^(1075+num.log2-den.log2-53)) :=
            Nat.mul_le_mul_left _ (Nat.mul_le_mul_right _ Nat.lt_log2_self.le)
        _ = 2^num.log2*2^1075 := by rw [← pow_add,← pow_add,← pow_add]; congr 1; omega
        _ ≤ num*2^1075 := Nat.mul_le_mul_right _ (Nat.log2_self_le some_.ne')
    · exact .inl (Nat.max_eq_right small)
  · rename_i many
    refine ⟨Nat.le_add_left _ _,.inr ?_⟩
    rw [not_lt,Nat.le_div_iff_mul_le (bottom _)] at many
    rw [Nat.le_div_iff_mul_le (bottom _)]
    refine le_of_eq_of_le ?_ many
    ring

theorem packCode {significand scale} (normal : scale = 1 ∨ 2^52 ≤ significand) (least : 1 ≤ scale) (most : significand ≤ 2^53) :
    (Double.pack significand scale).bits.toNat = min ((scale-1)*2^52+significand) binary64.infinity := by
  rw [infinity64,Double.pack]
  split
  · rw [UInt64.toNat_ofNat_of_lt' (by simp only [UInt64.size]; omega)]
    omega
  · split
    · have bits : Double.infinity.bits.toNat = 2047*2^52 := by decide
      omega
    · rw [UInt64.toNat_ofNat_of_lt' (by simp only [UInt64.size]; omega)]
      omega

/-- The rounding of a fraction is the one of the format. -/
theorem nearestDouble (some_ : 0 < num) (some_' : 0 < den) : ∃ code, Nearest binary64.magnitude ((num : ℚ)/den) code ∧
    (Double.nearest num den).bits.toNat = min code binary64.infinity := by
  obtain ⟨least,normal⟩ := fitScaleNormal some_ some_'
  have fits := Double.fitScaleFits num some_'.ne'
  rw [Double.nearest]
  generalize Double.fitScale num den = scale at least normal fits
  have bottom : 0 < den*2^scale := Nat.mul_pos some_' (Nat.two_pow_pos scale)
  have rounded : Double.quotient num den scale = roundEven (num*2^1075/(den*2^scale)) (num*2^1075%(den*2^scale)) (den*2^scale) := rfl
  have range := roundEvenRange (num*2^1075/(den*2^scale)) (num*2^1075%(den*2^scale)) (den*2^scale)
  refine ⟨(scale-1)*2^52+Double.quotient num den scale,?_,packCode (normal.imp_right fun large => ?_) least ?_⟩
  · rw [rounded]
    refine @Format.nearestPacked binary64 _ (scale-1) _ _ _ (normal.imp_left fun one => by rw [one]) fits (Nat.mod_lt _ bottom) ?_
    have unit : binary64.least = 1/2^1074 := rfl
    have den_ : (den : ℚ) ≠ 0 := Nat.cast_ne_zero.mpr some_'.ne'
    have place := @scaleShift (1075+(scale-1)) 1074 scale 0 (by omega)
    rw [pow_add,pow_zero,div_one] at place
    rw [← Nat.cast_mul (num*2^1075/(den*2^scale)),← Nat.cast_add,Nat.div_add_mod',unit,Nat.cast_mul,Nat.cast_mul,Nat.cast_pow,Nat.cast_pow,Nat.cast_ofNat,mul_one_div,
      mul_assoc (num : ℚ),mul_div_assoc,place,← mul_assoc,div_mul_cancel₀ _ den_]
  · rw [rounded]
    exact large.trans range.1
  · rw [rounded]
    omega

/-- A positive number with this value. -/
def Stands (x : Double) (a : ℚ) : Prop := x.bits.toNat < binary64.infinity ∧ binary64.magnitude x.bits.toNat = a

def Reached (a : ℚ) : Prop := ∃ m s : Nat, m < 2^53 ∧ s+2 < 2^11 ∧ a = m*2^s*binary64.least

theorem roundedExact (some_ : 0 < den) (reached : Reached (num/den)) : Stands (NumberFormat.rounded num den) (num/den) := by
  obtain ⟨m,s,short,room,same⟩ := reached
  obtain ⟨code,less,value⟩ := @Format.reach binary64 m s short room
  rw [← same] at value
  rw [NumberFormat.rounded]
  split
  · rename_i zero
    refine ⟨binary64.infinityPositive,?_⟩
    rw [zero,Nat.cast_zero,zero_div]
    exact binary64.magnitudeZero
  · rename_i num_
    obtain ⟨code',nearest,bits⟩ := nearestDouble (Nat.pos_of_ne_zero num_) some_
    have exact_ := @nearestExact ℚ _ _ _ _ code binary64.magnitudeRising
    rw [value] at exact_
    obtain rfl := nearestUnique binary64.magnitudeRising nearest exact_
    rw [Nat.min_eq_left less.le] at bits
    exact ⟨bits.trans_lt less,by rw [bits,value]⟩

theorem subnormalMagnitude (short : f < 2^52) : binary64.magnitude f = f*(1/2^1074) := by
  have place := @unitsPack 52 0 f (.inl rfl) (by omega)
  rw [Nat.zero_mul,Nat.zero_add,pow_zero,Nat.mul_one] at place
  have code : binary64.magnitude f = units 52 f*binary64.least := rfl
  rw [code,place]
  rfl

theorem Stands.ratio (stands : Stands x a) : (Runtime.numerator x : ℚ)/Runtime.denominator x = a ∧ 0 < Runtime.denominator x := by
  obtain ⟨finite,value⟩ := stands
  rw [← value]
  refine ⟨?_,Nat.two_pow_pos _⟩
  obtain ⟨parts,-,short,-⟩ := doubleParts x
  have codes : binary64.codes = 2^63 := by decide
  rw [infinity64] at finite
  rw [Format.code,codes,Nat.mod_eq_of_lt (by omega)] at parts
  rw [parts,Runtime.numerator,Runtime.denominator,Double.significand,Double.scale]
  split
  · rename_i zero
    rw [zero,Nat.zero_mul,Nat.zero_add,Nat.max_eq_right (Nat.zero_le 1),subnormalMagnitude short,mul_one_div,Nat.sub_eq_zero_of_le (by decide),
      pow_zero,Nat.mul_one,Nat.cast_pow,Nat.cast_ofNat]
  · rename_i some_
    have place : (2 : ℚ)^(x.exponent-1)/2^1074 = 2^(x.exponent-1075)/2^(1075-x.exponent) := scaleShift (by omega)
    rw [normalMagnitude (by omega) short,place,Nat.max_eq_left (by omega),Nat.cast_mul,Nat.cast_pow,Nat.cast_pow,Nat.cast_ofNat,mul_div_assoc]

theorem Stands.times (first : Stands x a) (second : Stands y b) (reached : Reached (a*b)) : Stands (times x y) (a*b) := by
  obtain ⟨first_,some_⟩ := first.ratio
  obtain ⟨second_,some_'⟩ := second.ratio
  rw [← first_,← second_,div_mul_div_comm,← Nat.cast_mul,← Nat.cast_mul] at reached ⊢
  exact roundedExact (Nat.mul_pos some_ some_') reached

theorem Stands.divided (first : Stands x a) (second : Stands y b) (some_ : b ≠ 0) (reached : Reached (a/b)) : Stands (divided x y) (a/b) := by
  obtain ⟨first_,den⟩ := first.ratio
  obtain ⟨second_,den'⟩ := second.ratio
  have num : 0 < Runtime.numerator y := by
    refine Nat.pos_of_ne_zero fun zero => some_ ?_
    rw [← second_,zero,Nat.cast_zero,zero_div]
  rw [← first_,← second_,div_div_div_eq,← Nat.cast_mul,← Nat.cast_mul] at reached ⊢
  exact roundedExact (Nat.mul_pos den num) reached

theorem Stands.plus (first : Stands x a) (second : Stands y b) (reached : Reached (a+b)) : Stands (plus x y) (a+b) := by
  obtain ⟨first_,some_⟩ := first.ratio
  obtain ⟨second_,some_'⟩ := second.ratio
  have sum : a+b = (Runtime.numerator x*Runtime.denominator y+Runtime.numerator y*Runtime.denominator x : Nat)/
      (Runtime.denominator x*Runtime.denominator y : Nat) := by
    rw [← first_,← second_,div_add_div _ _ (Nat.cast_ne_zero.mpr some_.ne') (Nat.cast_ne_zero.mpr some_'.ne')]
    push_cast
    ring
  rw [sum] at reached ⊢
  exact roundedExact (Nat.mul_pos some_ some_') reached

/-- A whole number and a power of two with few bits between them. -/
theorem reachedScaled {m up down s : Nat} (short : m < 2^53) (room : s+2 < 2^11) (same : up+1074 = down+s) : Reached (m*(2^up/2^down)) := by
  have unit : binary64.least = 1/2^1074 := rfl
  exact ⟨m,s,short,room,by rw [scaleShift same,unit,mul_one_div,mul_div_assoc]⟩

theorem ofNatStands {n} (short : n < 2^53) : Stands (Double.ofNat n) n := by
  have reached := @reachedScaled n 0 0 1074 short (by decide) rfl
  rw [pow_zero,div_one,mul_one] at reached
  have exact_ := @roundedExact n 1 Nat.one_pos (by rwa [Nat.cast_one,div_one])
  rwa [Nat.cast_one,div_one] at exact_

theorem powerStands {k : Int} {s : Nat} (room : s+2 < 2^11) (same : k+1074 = s) : Stands (powerOfTwo k) (2^k.toNat/2^(-k).toNat) := by
  have reached := @reachedScaled 1 k.toNat (-k).toNat s (by decide) room (by omega)
  rw [Nat.cast_one,one_mul] at reached
  have exact_ := @roundedExact (2^k.toNat) (2^(-k).toNat) (Nat.two_pow_pos _) (by rwa [Nat.cast_pow,Nat.cast_pow,Nat.cast_ofNat])
  rwa [Nat.cast_pow,Nat.cast_pow,Nat.cast_ofNat] at exact_

theorem magnitude16 (short : f < 2^10) : binary16.magnitude (e*2^10+f) = if e = 0 then (f : ℚ)*(2^0/2^24) else ((1024+f : Nat) : ℚ)*(2^(e-1)/2^24) := by
  have unit : binary16.least = 1/2^24 := rfl
  have code : binary16.magnitude (e*2^10+f) = units 10 (e*2^10+f)*binary16.least := rfl
  split
  · rename_i zero
    have place := @unitsPack 10 0 f (.inl rfl) (by omega)
    rw [pow_zero,Nat.mul_one] at place
    rw [code,zero,place,unit,pow_zero]
  · rename_i some_
    have split : e*2^10+f = (e-1)*2^10+(1024+f) := by omega
    have place : units 10 ((e-1)*2^10+(1024+f)) = (1024+f)*2^(e-1) := unitsPack (.inr (Nat.le_add_right _ _)) (by omega)
    rw [code,split,place,unit,Nat.cast_mul,Nat.cast_pow,Nat.cast_ofNat,mul_assoc,mul_one_div]

/-- None of the operations rounds. -/
theorem wideStands (finite : e < 31) (short : f < 2^10) : Stands (wideMagnitude e f) (binary16.magnitude (e*2^10+f)) := by
  rw [magnitude16 short,wideMagnitude]
  have fraction := @ofNatStands f (by omega)
  split
  · split
    · rename_i zero
      rw [zero,Nat.cast_zero,zero_mul]
      exact ⟨binary64.infinityPositive,binary64.magnitudeZero⟩
    · have power := @powerStands (-24) 1050 (by decide) (by decide)
      exact fraction.times power (reachedScaled (by omega) (by decide) (by decide : 0+1074 = 24+1050))
  · rename_i some_
    have one := @ofNatStands 1 (by decide)
    have thousand := @ofNatStands 1024 (by decide)
    have part : (f : ℚ)/(1024 : Nat) = f*(2^0/2^10) := by
      ring
    have sum : ((1 : Nat) : ℚ)+f/(1024 : Nat) = (1024+f : Nat)*(2^0/2^10) := by
      push_cast
      ring
    have power := @powerStands ((e : Int)-15) (1059+e) (by omega) (by omega)
    have quotient := fraction.divided thousand (by decide) (by
      rw [part]
      exact reachedScaled (by omega) (by decide) (by decide : 0+1074 = 10+1064))
    have mixed := one.plus quotient (by
      rw [sum]
      exact reachedScaled (by omega) (by decide) (by decide : 0+1074 = 10+1064))
    have product : (((1 : Nat) : ℚ)+f/(1024 : Nat))*(2^((e : Int)-15).toNat/2^(-((e : Int)-15)).toNat) = (1024+f : Nat)*(2^(e-1)/2^24) := by
      have place : (2 : ℚ)^((e : Int)-15).toNat/2^((-((e : Int)-15)).toNat+10) = 2^(e-1)/2^24 := scaleShift (by omega)
      rw [sum,← place,pow_zero,pow_add,mul_assoc,div_mul_div_comm,one_mul,mul_comm (2^10)]
    rw [if_neg (by omega),← product]
    refine mixed.times power ?_
    rw [product]
    exact reachedScaled (by omega) (show 1049+e+2 < 2^11 by omega) (by omega)

theorem signedBits (x : Double) (small : x.bits.toNat < 2^63) (minus) :
    binary64.code (if minus then x.negate else x).bits.toNat = x.bits.toNat ∧ binary64.negative (if minus then x.negate else x).bits.toNat = minus := by
  have codes : binary64.codes = 2^63 := by decide
  obtain ⟨low,sign⟩ := x.negateFields
  rw [Format.code,Format.negative,codes]
  cases minus
  · rw [if_neg (by decide),Nat.mod_eq_of_lt small,Nat.div_eq_of_lt small]
    exact ⟨rfl,rfl⟩
  · have word : x.negate.bits.toNat < 2^64 := x.negate.bits.toNat_lt
    rw [Double.negative,Double.negative,decide_eq_false (Nat.not_le.mpr small),Bool.not_false,decide_eq_true_eq] at sign
    rw [if_pos rfl,low,Nat.mod_eq_of_lt small,show x.negate.bits.toNat/2^63%2 = 1 by omega]
    exact ⟨rfl,rfl⟩

theorem patternParts (h : UInt16) : h.toNat >>> 10 &&& 0x1f ≤ 31 ∧ h.toNat &&& 0x03ff < 2^10 ∧
    binary16.code h.toNat = (h.toNat >>> 10 &&& 0x1f)*2^10+(h.toNat &&& 0x03ff) ∧ (h.toNat &&& 0x8000 != 0) = binary16.negative h.toNat := by
  have codes : binary16.codes = 2^15 := by decide
  have five := @Nat.and_two_pow_sub_one_eq_mod (h.toNat >>> 10) 5
  have ten := @Nat.and_two_pow_sub_one_eq_mod h.toNat 10
  have bit := Nat.and_two_pow h.toNat 15
  rw [show 2^5-1 = 0x1f by decide,Nat.shiftRight_eq_div_pow] at five
  rw [Nat.testBit_eq_decide_div_mod_eq,show 2^15 = 0x8000 by decide] at bit
  rw [Nat.shiftRight_eq_div_pow,five,ten,bit,Format.code,Format.negative,codes]
  refine ⟨by omega,by omega,by omega,?_⟩
  rcases (show h.toNat/0x8000%2 = 0 ∨ h.toNat/0x8000%2 = 1 by omega) with clear | set
  · rw [clear,show h.toNat/2^15%2 = 0 from clear]
    rfl
  · rw [set,show h.toNat/2^15%2 = 1 from set]
    rfl

/-- The number of a pattern that is not NaN stands for what the pattern does. -/
theorem wideDenotes (h) (number : ¬binary16.IsNaN h.toNat) : ¬binary64.IsNaN (f16BitsToF64 h).bits.toNat ∧
    binary64.negative (f16BitsToF64 h).bits.toNat = binary16.negative h.toNat ∧
    binary64.extended (f16BitsToF64 h).bits.toNat = binary16.extended h.toNat := by
  obtain ⟨most,short,code,sign⟩ := patternParts h
  rw [Format.IsNaN,code,infinity16] at number
  rw [f16BitsToF64,sign]
  generalize h.toNat >>> 10 &&& 0x1f = e at most code number ⊢
  generalize h.toNat &&& 0x03ff = f at short code number ⊢
  rw [Format.extended,Format.extended,code]
  rcases Nat.lt_or_eq_of_le most with finite | special
  · obtain ⟨less,value⟩ := wideStands finite short
    obtain ⟨code_,negative⟩ := signedBits (wideMagnitude e f) (by rw [infinity64] at less; omega) (binary16.negative h.toNat)
    refine ⟨?_,negative,?_⟩
    · rw [Format.IsNaN,code_]
      exact Nat.lt_asymm less
    · rw [code_,negative,Format.side,Format.side,if_pos less,value,if_pos (by rw [infinity16]; omega)]
  · obtain rfl : f = 0 := by omega
    have all : wideMagnitude e 0 = Double.infinity := by
      rw [special]
      rfl
    have bits : Double.infinity.bits.toNat = binary64.infinity := by decide
    obtain ⟨code_,negative⟩ := signedBits Double.infinity (by decide) (binary16.negative h.toNat)
    rw [bits] at code_
    rw [all,code_,negative]
    refine ⟨?_,rfl,?_⟩
    · rw [Format.IsNaN,code_]
      exact Nat.lt_irrefl _
    · have past : binary16.infinity ≤ e*2^10+0 := by
        rw [infinity16]
        omega
      rw [Format.sidePast le_rfl,Format.sidePast past]

/-- A half and the double that it was rounded from. -/
structure HalfOf (x : Double) (h : UInt16) : Prop where
  sign : binary16.negative h.toNat = binary64.negative x.bits.toNat
  rounds : binary64.IsFinite x.bits.toNat → binary16.Rounds (binary64.value x.bits.toNat) h.toNat
  infinite : binary16.IsInfinite h.toNat ↔
    binary64.IsInfinite x.bits.toNat ∨ binary64.IsFinite x.bits.toNat ∧ 65520 ≤ |binary64.value x.bits.toNat|
  nan : binary16.IsNaN h.toNat ↔ binary64.IsNaN x.bits.toNat
  quiet : binary16.IsNaN h.toNat → h.toNat.testBit 9 = true

theorem quietHalf (x) (nan : binary64.IsNaN x.bits.toNat) : ∃ h, f64ToF16Bits x = some h ∧ HalfOf x h := by
  obtain ⟨parts,most,short,-⟩ := doubleParts x
  obtain ⟨sign,code⟩ := halfParts (binary64.negative x.bits.toNat) (show 0x7e00 < 2^15 by decide)
  have nan_ := nan
  rw [Format.IsNaN,infinity64,parts] at nan_
  refine ⟨_,specialHalf x (by omega),?_⟩
  rw [if_neg (by omega)]
  refine ⟨sign,fun finite => absurd finite (Nat.lt_asymm nan),?_,iff_of_true ?_ nan,fun _ => ?_⟩
  · rw [Format.IsInfinite,code,infinity16]
    refine iff_of_false (by decide) ?_
    rintro (infinite | ⟨finite,-⟩)
    · exact nan.ne' infinite
    · exact Nat.lt_asymm nan finite
  · rw [Format.IsNaN,code,infinity16]
    decide
  · rw [halfNat _ (by decide)]
    cases binary64.negative x.bits.toNat <;> decide

theorem numberHalf (x) (number : ¬binary64.IsNaN x.bits.toNat) : ∃ h, f64ToF16Bits x = some h ∧ HalfOf x h := by
  obtain ⟨code,run,nearest,all⟩ := halfOfNumber x number
  obtain ⟨sign,code_⟩ := halfParts (binary64.negative x.bits.toNat) (halfMinLess code)
  have rounds : binary64.IsFinite x.bits.toNat → binary16.Rounds (binary64.value x.bits.toNat)
      (half (binary64.negative x.bits.toNat) (min code binary16.infinity)).toNat := by
    intro finite
    rw [halfNat _ (halfMinLess code)]
    exact Format.roundsNearest (binary64.magnitudeNonneg _) (nearest finite)
  have plain : ¬binary16.IsNaN (half (binary64.negative x.bits.toNat) (min code binary16.infinity)).toNat := by
    rw [Format.IsNaN,code_,not_lt]
    exact Nat.min_le_right _ _
  refine ⟨_,run,sign,rounds,?_,iff_of_false plain number,fun nan => absurd nan plain⟩
  rcases Nat.lt_or_eq_of_le (not_lt.mp number) with finite | infinite
  · rw [(rounds finite).infinite,overflow16]
    exact ⟨fun past => .inr ⟨finite,past⟩,fun past => (past.resolve_left finite.ne).2⟩
  · rw [Format.IsInfinite,code_,all infinite,Nat.min_self]
    exact iff_of_true rfl (.inl infinite)

theorem halfOf (x) : ∃ h, f64ToF16Bits x = some h ∧ HalfOf x h := by
  by_cases nan : binary64.IsNaN x.bits.toNat
  · exact quietHalf x nan
  · exact numberHalf x nan

/-- Halves are rounded once, in order, and back to themselves. -/
theorem halfConversion : (∀ x, ∃ h, f64ToF16Bits x = some h ∧ HalfOf x h) ∧
    (∀ x y h k, ¬binary64.IsNaN x.bits.toNat → ¬binary64.IsNaN y.bits.toNat → binary64.extended x.bits.toNat ≤ binary64.extended y.bits.toNat →
      f64ToF16Bits x = some h → f64ToF16Bits y = some k → binary16.extended h.toNat ≤ binary16.extended k.toNat) ∧
    ∀ h : UInt16, ¬binary16.IsNaN h.toNat → f64ToF16Bits (f16BitsToF64 h) = some h ∧
      ∀ x : Double, ¬binary64.IsNaN x.bits.toNat → binary64.negative x.bits.toNat = binary16.negative h.toNat →
        binary64.extended x.bits.toNat = binary16.extended h.toNat → f64ToF16Bits x = some h := by
  refine ⟨halfOf,fun x y h k number number' => halfMonotone ⟨number,number'⟩,fun h number => ⟨?_,fun x number' => halfBack number' number⟩⟩
  obtain ⟨number',sign,same⟩ := wideDenotes h number
  exact halfBack number' number sign same

end Bamts.TypedHalf
