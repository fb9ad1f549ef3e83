import Mathlib.Data.Nat.Log
import Mathlib.Tactic.Ring
import Mathlib.Tactic.Linarith

/-! IEEE-754 binary64 numbers as their bit patterns: classification, the whole number a
pattern stands for, comparison, and rounding of a positive fraction to the nearest pattern. -/
set_option linter.all false
namespace Bamts.Binary64

structure Double where
  bits : UInt64
  deriving DecidableEq, Repr

namespace Double

def negative (x : Double) : Bool := decide (2^63 ≤ x.bits.toNat)
def exponent (x : Double) : Nat := x.bits.toNat / 2^52 % 2^11
def fraction (x : Double) : Nat := x.bits.toNat % 2^52

def isNaN (x : Double) : Bool := x.exponent == 2047 && x.fraction != 0
def isFinite (x : Double) : Bool := x.exponent != 2047
def isZero (x : Double) : Bool := x.bits.toNat % 2^63 == 0

-- A finite pattern has magnitude `significand * 2^scale / 2^1075`.
def significand (x : Double) : Nat := if x.exponent = 0 then x.fraction else 2^52+x.fraction
def scale (x : Double) : Nat := max x.exponent 1

def whole (x : Double) : Option Nat :=
  if 1075 ≤ x.scale then some (x.significand * 2^(x.scale-1075))
  else if x.significand % 2^(1075-x.scale) = 0 then some (x.significand / 2^(1075-x.scale)) else none

def toInt (x : Double) : Option Int :=
  if x.isFinite then x.whole.map fun n => if x.negative then -(n : Int) else n else none

-- The `==` of the source: no NaN equals anything, and the two zeros are equal.
def eq (x y : Double) : Bool := !x.isNaN && !y.isNaN && (x.bits == y.bits || x.isZero && y.isZero)

def zero : Double := ⟨0⟩
def infinity : Double := ⟨0x7ff0000000000000⟩
def negate (x : Double) : Double := ⟨x.bits ^^^ 0x8000000000000000⟩

-- `significand * 2^(scale-1075)`; a significand of `2^53` carries into the exponent.
def pack (significand scale : Nat) : Double :=
  if significand < 2^52 then ⟨UInt64.ofNat significand⟩
  else if 2047 ≤ scale + significand / 2^53 then infinity
  else ⟨UInt64.ofNat (scale * 2^52 + (significand-2^52))⟩

-- `num / den / 2^(scale-1075)`, rounded to even on a tie.
def quotient (num den scale : Nat) : Nat :=
  let top := num * 2^1075
  let bottom := den * 2^scale
  let q := top / bottom
  let r := top % bottom
  if bottom < 2*r ∨ (2*r = bottom ∧ q % 2 = 1) then q+1 else q

-- The least scale whose significand stays below `2^53`; `log2` misses it by one at most.
def fitScale (num den : Nat) : Nat :=
  let guess := 1075 + Nat.log2 num - Nat.log2 den - 53
  let low := max guess 1
  if num * 2^1075 / (den * 2^low) < 2^53 then low else low+1

-- The number nearest to the positive fraction `num / den`.
def nearest (num den : Nat) : Double := pack (quotient num den (fitScale num den)) (fitScale num den)

def ofNat (n : Nat) : Double := if n = 0 then zero else nearest n 1

def ofInt : Int → Double
  | .ofNat n => ofNat n
  | .negSucc n => (ofNat (n+1)).negate

theorem packFields {significand scale} (low : 2^52 ≤ significand) (high : significand < 2^53) (positive : 1 ≤ scale) (small : scale < 2047) :
    (pack significand scale).negative = false ∧ (pack significand scale).exponent = scale ∧
    (pack significand scale).fraction = significand-2^52 := by
  have bits : (pack significand scale).bits.toNat = scale * 2^52 + (significand-2^52) := by
    rw [pack,if_neg (by omega),if_neg (by omega),UInt64.toNat_ofNat_of_lt']
    simp only [UInt64.size]
    omega
  simp only [negative,exponent,fraction,bits]
  refine ⟨by simp; omega,by omega,by omega⟩

theorem wholeOfPack {n k} (low : 2^52 ≤ n * 2^k) (high : n * 2^k < 2^53) (small : k ≤ 52) :
    (pack (n * 2^k) (1075-k)).toInt = some (n : Int) := by
  obtain ⟨sign,exponent,fraction⟩ := packFields low high (show 1 ≤ 1075-k by omega) (by omega)
  have finite : (pack (n * 2^k) (1075-k)).isFinite = true := by
    rw [isFinite,exponent,bne_iff_ne]
    omega
  have digits : (pack (n * 2^k) (1075-k)).significand = n * 2^k := by
    rw [significand,exponent,if_neg (by omega),fraction]
    omega
  have place : (pack (n * 2^k) (1075-k)).scale = 1075-k := by
    rw [scale,exponent]
    omega
  have magnitude : (pack (n * 2^k) (1075-k)).whole = some n := by
    rw [whole,digits,place]
    split
    · have none : k = 0 := by omega
      simp [none]
    · have back : 1075-(1075-k) = k := by omega
      rw [back,if_pos (Nat.mul_mod_left n (2^k)),Nat.mul_div_cancel n (Nat.two_pow_pos k)]
  simp [toInt,finite,magnitude,sign]

theorem toIntOfNat {n} (small : n < 2^53) : (ofNat n).toInt = some (n : Int) := by
  by_cases empty : n = 0
  · have magnitude : zero.whole = some 0 := by
      have none : zero.significand = 0 := rfl
      have place : zero.scale = 1 := rfl
      rw [whole,none,place,if_neg (by decide),Nat.zero_mod,if_pos rfl,Nat.zero_div]
    have finite : zero.isFinite = true := rfl
    have sign : zero.negative = false := rfl
    simp [ofNat,empty,toInt,finite,magnitude,sign]
  have below : 2^Nat.log2 n ≤ n := Nat.log2_self_le empty
  have above : n < 2^(Nat.log2 n+1) := Nat.lt_log2_self
  have short : Nat.log2 n ≤ 52 := by
    by_contra long
    have : 2^53 ≤ 2^Nat.log2 n := Nat.pow_le_pow_right (by decide) (by omega)
    omega
  obtain ⟨k,top⟩ : ∃ k, Nat.log2 n + k = 52 := ⟨52-Nat.log2 n,by omega⟩
  have low : 2^52 ≤ n * 2^k := by
    calc 2^52 = 2^Nat.log2 n * 2^k := by rw [← pow_add,top]
      _ ≤ n * 2^k := Nat.mul_le_mul_right _ below
  have high : n * 2^k < 2^53 := by
    calc n * 2^k < 2^(Nat.log2 n+1) * 2^k := (Nat.mul_lt_mul_right (Nat.two_pow_pos k)).mpr above
      _ = 2^53 := by rw [← pow_add]; congr 1; omega
  have scaled : ∀ j, j ≤ 1075 → n * 2^1075 = (n * 2^j) * (1 * 2^(1075-j)) := by
    intro j inside
    rw [one_mul,mul_assoc,← pow_add]
    congr 2
    omega
  have fits : fitScale n 1 = 1075-k := by
    have guess : max (1075+Nat.log2 n-Nat.log2 1-53) 1 = 1075-(k+1) := by
      have unit : Nat.log2 1 = 0 := by decide
      omega
    simp only [fitScale,guess]
    rw [scaled (k+1) (by omega),Nat.mul_div_cancel _ (by positivity),if_neg]
    · omega
    · rw [pow_succ,← mul_assoc]
      omega
  have exact : quotient n 1 (1075-k) = n * 2^k := by
    simp only [quotient]
    rw [scaled k (by omega),Nat.mul_div_cancel _ (by positivity),Nat.mul_mod_left,if_neg]
    have : 0 < 1 * 2^(1075-k) := by positivity
    omega
  rw [ofNat,if_neg empty,nearest,fits,exact]
  exact wholeOfPack low high (by omega)

theorem plainOfInt {x : Double} {z} (whole : x.toInt = some z) : x.isNaN = false := by
  rw [toInt] at whole
  split at whole
  · rename_i finite
    rw [isFinite,bne_iff_ne] at finite
    simp [isNaN,finite]
  · cases whole

end Double

end Bamts.Binary64
