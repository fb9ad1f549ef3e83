import Bamts.RuntimeKey

/-! Boxing a double: whole numbers of 32 bits are kept as integers, and an integer has one zero only. -/
set_option linter.all false
namespace Bamts.Binary64.Double

-- NaNs are one value, and the two zeros are two.
def SameValue (x y : Double) : Prop := x.isNaN = true ∧ y.isNaN = true ∨ x = y

def negativeZero : Double := zero.negate

section
variable {x y : Double} {z : Int} {n : Nat}

theorem bitsSplit (x : Double) : x.bits.toNat = (if x.negative then 2^63 else 0) + x.exponent*2^52 + x.fraction := by
  have small : x.bits.toNat < 2^64 := x.bits.toNat_lt
  simp only [negative,exponent,fraction,decide_eq_true_eq]
  split
  · omega
  · omega

theorem sameOfFields (sign : x.negative = y.negative) (exponent : x.exponent = y.exponent) (fraction : x.fraction = y.fraction) : x = y := by
  have bits : x.bits.toNat = y.bits.toNat := by rw [bitsSplit,bitsSplit y,sign,exponent,fraction]
  exact congrArg Double.mk (UInt64.toNat_inj.mp bits)

theorem toIntCases (whole : x.toInt = some z) : x.isFinite = true ∧ x.whole = some z.natAbs ∧ z = if x.negative then -(z.natAbs : Int) else z.natAbs := by
  unfold toInt at whole
  split at whole
  · rename_i finite
    cases found : x.whole with
    | none =>
      rw [found] at whole
      cases whole
    | some n =>
      rw [found] at whole
      have same := Option.some.inj whole
      refine ⟨finite,?_⟩
      rw [← same]
      cases x.negative with
      | true => simp
      | false => simp
  · cases whole

theorem wholePlace (whole : x.whole = some n) : x.significand*2^x.scale = n*2^1075 := by
  unfold Double.whole at whole
  split at whole
  · rename_i large
    rw [← Option.some.inj whole,mul_assoc,← pow_add,Nat.sub_add_cancel large]
  · rename_i low
    split at whole
    · rename_i divides
      have back := Nat.div_mul_cancel (Nat.dvd_of_mod_eq_zero divides)
      rw [Option.some.inj whole] at back
      rw [← back,mul_assoc,← pow_add,Nat.sub_add_cancel (by omega)]
    · cases whole

theorem wholeNormal (whole : x.whole = some n) (positive : n ≠ 0) : x.exponent ≠ 0 ∧ 2^52 ≤ x.significand ∧ x.significand < 2^53 := by
  have place := wholePlace whole
  have short : x.fraction < 2^52 := Nat.mod_lt _ (Nat.two_pow_pos 52)
  by_cases subnormal : x.exponent = 0
  · rw [significand,if_pos subnormal,scale,subnormal] at place
    have above : 2^1075 ≤ n*2^1075 := Nat.le_mul_of_pos_left _ (Nat.pos_of_ne_zero positive)
    have below : x.fraction*2^max 0 1 < 2^52*2^1 := Nat.mul_lt_mul_of_pos_right short (Nat.two_pow_pos 1)
    have far : 2^52*2^1 ≤ 2^1075 := by
      rw [← pow_add]
      exact Nat.pow_le_pow_right (by decide) (by decide)
    exact absurd place (Nat.ne_of_lt (below.trans_le (far.trans above)))
  · rw [significand,if_neg subnormal]
    omega

theorem wholeExponent (whole : x.whole = some n) (positive : 0 < n) : 1023 ≤ x.exponent ∧ x.scale = x.exponent := by
  have place := wholePlace whole
  obtain ⟨normal,-,short⟩ := wholeNormal whole positive.ne'
  have reach : 2^1075 < 2^(53+x.scale) := by
    calc 2^1075 ≤ n*2^1075 := Nat.le_mul_of_pos_left _ positive
      _ = x.significand*2^x.scale := place.symm
      _ < 2^53*2^x.scale := Nat.mul_lt_mul_of_pos_right short (Nat.two_pow_pos _)
      _ = 2^(53+x.scale) := (pow_add 2 53 x.scale).symm
  have above := (Nat.pow_lt_pow_iff_right (by decide)).mp reach
  rw [scale] at above ⊢
  omega

theorem nearestWhole (finite : x.isFinite = true) (whole : x.whole = some n) (positive : 0 < n) :
    (nearest n 1).bits.toNat = x.bits.toNat%2^63 := by
  have scaled := (wholePlace whole).symm
  obtain ⟨large,place⟩ := wholeExponent whole positive
  have fraction : x.fraction < 2^52 := Nat.mod_lt _ (by decide)
  have digits : x.significand = 2^52+x.fraction := by rw [significand,if_neg (by omega)]
  have limit : x.exponent < 2047 := by
    have bound : x.exponent < 2^11 := Nat.mod_lt _ (by decide)
    rw [isFinite,bne_iff_ne] at finite
    omega
  rw [place] at scaled
  obtain ⟨k,top⟩ : ∃ k, x.exponent = 1023+k := ⟨x.exponent-1023,by omega⟩
  have low : 2^k ≤ n := by
    have same : 2^52*2^x.exponent = 2^k*2^1075 := by
      rw [← pow_add,← pow_add]
      exact congrArg (2^·) (by omega)
    refine Nat.le_of_mul_le_mul_right ?_ (Nat.two_pow_pos 1075)
    rw [← same,scaled]
    exact Nat.mul_le_mul_right _ (by omega)
  have high : n < 2^(k+1) := by
    have same : 2^53*2^x.exponent = 2^(k+1)*2^1075 := by
      rw [← pow_add,← pow_add]
      exact congrArg (2^·) (by omega)
    refine Nat.lt_of_mul_lt_mul_right (?_ : n*2^1075 < 2^(k+1)*2^1075)
    rw [← same,scaled]
    exact Nat.mul_lt_mul_of_pos_right (by omega) (Nat.two_pow_pos _)
  have log : Nat.log2 n = k := (Nat.log2_eq_iff positive.ne').mpr ⟨low,high⟩
  have fits : fitScale n 1 = x.exponent := by
    have guess : max (1075+Nat.log2 n-Nat.log2 1-53) 1 = x.exponent-1 := by
      have unit : Nat.log2 1 = 0 := by decide
      omega
    have twice : x.significand*2^x.exponent = (2*x.significand)*2^(x.exponent-1) := by
      obtain ⟨e,next⟩ : ∃ e, x.exponent = e+1 := ⟨x.exponent-1,by omega⟩
      rw [next,Nat.add_sub_cancel,pow_succ]
      ring
    simp only [fitScale,guess]
    rw [scaled,twice,one_mul,Nat.mul_div_cancel _ (Nat.two_pow_pos _),if_neg (by omega)]
    omega
  have exact_ : quotient n 1 x.exponent = x.significand := by
    have positive' : 0 < 2^x.exponent := Nat.two_pow_pos _
    simp only [quotient]
    rw [scaled,one_mul,Nat.mul_div_cancel _ positive',Nat.mul_mod_left,if_neg]
    omega
  rw [nearest,fits,exact_,pack,if_neg (by omega),if_neg (by omega),digits]
  have bits : x.exponent*2^52+(2^52+x.fraction-2^52) = x.bits.toNat%2^63 := by
    rw [exponent,Double.fraction]
    omega
  rw [bits]
  exact UInt64.toNat_ofNat_of_lt' (Nat.lt_of_lt_of_le (Nat.mod_lt _ (by decide)) (by decide))

theorem scaleUnique {a b i j} (low : 2^52 ≤ b) (high : a < 2^53) (same : a*2^i = b*2^j) : j ≤ i := by
  by_contra less
  obtain ⟨d,apart⟩ : ∃ d, j = i+1+d := ⟨j-(i+1),by omega⟩
  have scaled : a*2^i = (2*b*2^d)*2^i := by
    rw [same,apart,pow_add,pow_add]
    ring
  have equal : a = 2*b*2^d := Nat.eq_of_mul_eq_mul_right (Nat.two_pow_pos i) scaled
  have grown : 2*b ≤ 2*b*2^d := Nat.le_mul_of_pos_right _ (Nat.two_pow_pos d)
  omega

theorem wholeUnique (sign : x.negative = y.negative) (first : x.whole = some n) (second : y.whole = some n) (positive : n ≠ 0) : x = y := by
  obtain ⟨normal,low,high⟩ := wholeNormal first positive
  obtain ⟨normal',low',high'⟩ := wholeNormal second positive
  have same := (wholePlace first).trans (wholePlace second).symm
  have scales : x.scale = y.scale := Nat.le_antisymm (scaleUnique low high' same.symm) (scaleUnique low' high same)
  rw [scales] at same
  have significands := Nat.eq_of_mul_eq_mul_right (Nat.two_pow_pos _) same
  rw [significand,significand,if_neg normal,if_neg normal'] at significands
  rw [scale,scale] at scales
  exact sameOfFields sign (by omega) (by omega)

theorem wholeZero (whole : x.whole = some 0) : x = zero ∨ x = negativeZero := by
  have place := wholePlace whole
  rw [Nat.zero_mul,Nat.mul_eq_zero] at place
  have none : x.significand = 0 := place.resolve_right (Nat.two_pow_pos _).ne'
  unfold significand at none
  split at none
  · rename_i subnormal
    cases sign : x.negative with
    | false => exact Or.inl (sameOfFields sign subnormal none)
    | true => exact Or.inr (sameOfFields sign subnormal none)
  · omega

theorem toIntOfInt (small : z.natAbs < 2^53) : (ofInt z).toInt = some z := by
  cases z with
  | ofNat n => exact toIntOfNat small
  | negSucc n => exact toIntNegate (toIntOfNat small)

theorem ofIntToInt (whole : x.toInt = some z) (small : z.natAbs < 2^53) (other : x ≠ negativeZero) : ofInt z = x := by
  obtain ⟨_,magnitude,sign⟩ := toIntCases whole
  by_cases none : z = 0
  · subst none
    obtain positive | negative := wholeZero magnitude
    · exact positive.symm
    · exact absurd negative other
  obtain ⟨_,magnitude',sign'⟩ := toIntCases (toIntOfInt small)
  have positive : z.natAbs ≠ 0 := Int.natAbs_ne_zero.mpr none
  refine wholeUnique ?_ magnitude' magnitude positive
  cases first : (ofInt z).negative <;> cases second : x.negative <;> rw [first] at sign' <;> rw [second] at sign <;> simp at sign sign' ⊢ <;> omega

theorem packPositive {significand scale} (short : significand < 2^54) : (pack significand scale).negative = false := by
  unfold pack
  split
  · rename_i subnormal
    rw [negative,UInt64.toNat_ofNat_of_lt' (by simp only [UInt64.size]; omega),decide_eq_false_iff_not]
    omega
  · split
    · rfl
    · rename_i normal finite
      rw [negative,UInt64.toNat_ofNat_of_lt' (by simp only [UInt64.size]; omega),decide_eq_false_iff_not]
      omega

theorem scaledShort {length place scale} (above : n < 2^length) (fits : length+place ≤ 53+scale) : n*2^place/(1*2^scale) < 2^53 := by
  refine Nat.div_lt_of_lt_mul ?_
  calc n*2^place < 2^length*2^place := Nat.mul_lt_mul_of_pos_right above (Nat.two_pow_pos _)
    _ = 2^(length+place) := (pow_add _ _ _).symm
    _ ≤ 2^(scale+53) := Nat.pow_le_pow_right (by decide) (by omega)
    _ = 1*2^scale*2^53 := by rw [one_mul,pow_add]

theorem ofNatSign (n) : (ofNat n).negative = false := by
  unfold ofNat
  split
  · rfl
  refine packPositive (Nat.lt_of_le_of_lt (m := n*2^1075/(1*2^fitScale n 1)+1) ?_ ?_)
  · unfold quotient
    dsimp only
    split
    · exact Nat.le_refl _
    · exact Nat.le_succ _
  · unfold fitScale
    dsimp only
    split
    · rename_i fits
      omega
    · have unit : Nat.log2 1 = 0 := by decide
      exact Nat.succ_lt_succ ((scaledShort Nat.lt_log2_self (by omega)).trans_le (by decide))

end

end Bamts.Binary64.Double

namespace Bamts.Runtime
open Binary64

def ReadsBack (number : Double) (boxed : Value) : Prop := ∃ back, numericF64 boxed = some back ∧ Double.SameValue back number

-- The operators that end in `number_value`, after their operands were converted. What they compute is up to the machine.
def negation (number : Double) : Value := numberValue number.negate

def arithmetic (operate : Double → Double → Double) (left right : Double) : Value := numberValue (operate left right)

theorem keepsPlain {x} (plain : x.isNaN = false) : ReadsBack x (.number x) :=
  ⟨x,by rw [numericF64,Value.decodeNumber plain],Or.inr rfl⟩

theorem keepsNaN {x} (nan : x.isNaN = true) : ReadsBack x (.number x) := by
  have canonical : Value.number x = ⟨Value.canonNan⟩ := if_pos nan
  refine ⟨⟨Value.canonNan⟩,?_,Or.inl ⟨canonIsNaN,nan⟩⟩
  rw [canonical]
  rfl

theorem keepsInt32 {x : Double} {z} (whole : x.toInt = some z) (low : -2147483648 ≤ z) (high : z ≤ 2147483647) :
    ReadsBack x (.int32 (Int32.ofInt z).toUInt32) ↔ x ≠ Double.negativeZero := by
  have small : z.natAbs < 2^53 := by omega
  have double : int32Double (Int32.ofInt z).toUInt32 = Double.ofInt z := by
    rw [int32Double,Int32.toInt32_toUInt32,Int32.toInt_ofInt_of_le (by omega) (by omega)]
  have back : numericF64 (.int32 (Int32.ofInt z).toUInt32) = some (Double.ofInt z) := by
    rw [numericF64,Value.decodeInt32]
    exact congrArg some double
  have plain := Double.plainOfInt whole
  constructor
  · intro kept zero
    obtain ⟨read,decoded,same⟩ := kept
    rw [back] at decoded
    have none : z = 0 := Option.some.inj (whole.symm.trans (zero ▸ Double.toIntOfZero (by decide)))
    obtain nan | same := same
    · exact absurd (plain.symm.trans nan.2) Bool.false_ne_true
    · rw [zero,← Option.some.inj decoded,none] at same
      exact absurd same (by decide)
  · intro other
    exact ⟨_,back,Or.inr (Double.ofIntToInt whole small other)⟩

theorem numberKept (x) : ReadsBack x (numberValue x) ↔ x ≠ Double.negativeZero := by
  unfold numberValue
  cases whole : x.toInt with
  | some z =>
    simp only
    split
    · rename_i range
      exact keepsInt32 whole range.1 range.2
    · rename_i range
      refine iff_of_true (keepsPlain (Double.plainOfInt whole)) fun zero => range ?_
      have none : z = 0 := Option.some.inj (whole.symm.trans (zero ▸ Double.toIntOfZero (by decide)))
      omega
  | none =>
    have other : x ≠ Double.negativeZero := fun zero => by
      rw [zero,Double.toIntOfZero (by decide)] at whole
      cases whole
    cases nan : x.isNaN with
    | true => exact iff_of_true (keepsNaN nan) other
    | false => exact iff_of_true (keepsPlain nan) other

theorem negateTwice (x : Double) : x.negate.negate = x :=
  congrArg Double.mk (by rw [Double.negate,UInt64.xor_assoc,UInt64.xor_self,UInt64.xor_zero])

theorem boxingKeeps (x operate left right) : (ReadsBack x (numberValue x) ↔ x ≠ Double.negativeZero) ∧
    (ReadsBack x.negate (negation x) ↔ x ≠ Double.zero) ∧
    (ReadsBack (operate left right) (arithmetic operate left right) ↔ operate left right ≠ Double.negativeZero) := by
  refine ⟨numberKept x,(numberKept x.negate).trans (not_congr ?_),numberKept _⟩
  constructor
  · intro zero
    rw [← negateTwice x,zero,Double.negativeZero,negateTwice]
  · intro zero
    rw [zero,Double.negativeZero]

theorem negativeZeroLost : ¬∀ x, ReadsBack x (numberValue x) := fun kept => (numberKept Double.negativeZero).mp (kept _) rfl

end Bamts.Runtime
