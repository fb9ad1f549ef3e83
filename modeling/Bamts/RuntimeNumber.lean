import Bamts.RuntimeValue

/-! The text of numbers: the parser and the shortest spelling of the standard library, the
ECMAScript spelling on top of them, and the index a property name denotes in a typed array. -/
set_option linter.all false
namespace Bamts.Runtime
open Bytecode Binary64

-- `num / den * 10^exponent` with its sign.
def scaled (negative : Bool) (num : Nat) (exponent : Int) : Double :=
  let magnitude :=
    if num = 0 then Double.zero
    else if 0 ≤ exponent then Double.nearest (num*10^exponent.toNat) 1 else Double.nearest num (10^(-exponent).toNat)
  if negative then magnitude.negate else magnitude

def takeSign : List UInt16 → Bool × List UInt16
  | 43 :: rest => (false,rest)
  | 45 :: rest => (true,rest)
  | units => (false,units)

def lowercase (unit : UInt16) : UInt16 := if 65 ≤ unit && unit ≤ 90 then unit+32 else unit

-- `e` or `E`, a sign and at least one digit; nothing else may follow.
def parseExponent : List UInt16 → Option Int
  | [] => some 0
  | mark :: rest =>
    let (negative,digits) := takeSign rest
    if lowercase mark = 101 ∧ digits ≠ [] ∧ digits.all isDigit then
      some (if negative then -(digitsValue digits 0 : Int) else digitsValue digits 0)
    else none

def nan : Double := ⟨Value.canonNan⟩

-- `str::parse::<f64>`
def parseF64 (text : EcmaString) : Option Double :=
  let (negative,body) := takeSign text.asUnits
  let word := body.map lowercase
  if word = (ascii "nan").asUnits then some (if negative then nan.negate else nan)
  else if word = (ascii "inf").asUnits ∨ word = (ascii "infinity").asUnits then
    some (if negative then Double.infinity.negate else Double.infinity)
  else
    let whole := body.takeWhile isDigit
    let rest := body.dropWhile isDigit
    let (fraction,rest) := match rest with
      | 46 :: rest => (rest.takeWhile isDigit,rest.dropWhile isDigit)
      | rest => ([],rest)
    if whole.isEmpty && fraction.isEmpty then none
    else (parseExponent rest).map fun exponent =>
      scaled negative (digitsValue (whole ++ fraction) 0) (exponent-fraction.length)

def numerator (x : Double) : Nat := x.significand*2^(x.scale-1075)
def denominator (x : Double) : Nat := 2^(1075-x.scale)

-- The integers next to `x / 10^exponent`.
def below (x : Double) (exponent : Int) : Nat :=
  if 0 ≤ exponent then numerator x/(denominator x*10^exponent.toNat)
  else numerator x*10^(-exponent).toNat/denominator x

-- Whether `low` is no further from `x / 10^exponent` than `low+1`.
def lowIsNearer (x : Double) (exponent : Int) (low : Nat) : Bool :=
  if 0 ≤ exponent then 2*numerator x ≤ (2*low+1)*(denominator x*10^exponent.toNat)
  else 2*numerator x*10^(-exponent).toNat ≤ (2*low+1)*denominator x

-- The shortest decimal that reads back as `x`, as an integer and a power of ten.
def shortestFrom (x : Double) (exponent : Int) : Nat → Nat × Int
  | 0 => (below x exponent,exponent)
  | more+1 =>
    let low := below x exponent
    let lowReads := scaled false low exponent == x
    let highReads := scaled false (low+1) exponent == x
    if lowReads && (!highReads || lowIsNearer x exponent low) then (low,exponent)
    else if highReads then (low+1,exponent)
    else shortestFrom x (exponent-1) more

-- The decimal exponent of `x`, starting from an estimate above it.
def leadingExponent (x : Double) : Nat → Int → Int
  | 0, exponent => exponent
  | more+1, exponent => if below x exponent = 0 then leadingExponent x more (exponent-1) else exponent

def decimalDigits (n : Nat) : List UInt16 := (decimal n).asUnits

def shortestDigits (x : Double) : List UInt16 × Int :=
  let (n,exponent) := shortestFrom x (leadingExponent x 640 309) 17
  let digits := decimalDigits n
  ((digits.reverse.dropWhile (· == 48)).reverse,exponent+digits.length-1)

def signedDecimal (z : Int) : List UInt16 := if z < 0 then 45 :: decimalDigits z.natAbs else decimalDigits z.natAbs

def formatNumber (x : Double) : EcmaString :=
  if x.isNaN then ascii "NaN"
  else if x.isFinite = false then if x.negative then ascii "-Infinity" else ascii "Infinity"
  else if x.isZero then ascii "0"
  else
    let (digits,exponent) := shortestDigits (if x.negative then x.negate else x)
    let sign := if x.negative then [45] else []
    let body :=
      if exponent < -6 ∨ 21 ≤ exponent then
        digits.take 1 ++ (if 1 < digits.length then 46 :: digits.drop 1 else []) ++ [101] ++
        (if 0 ≤ exponent then [43] else []) ++ signedDecimal exponent
      else if 0 ≤ exponent then
        let integerDigits := exponent.toNat+1
        if digits.length ≤ integerDigits then digits ++ List.replicate (integerDigits-digits.length) 48
        else digits.take integerDigits ++ [46] ++ digits.drop integerDigits
      else [48,46] ++ List.replicate (-exponent-1).toNat 48 ++ digits
    ⟨sign ++ body⟩

def canonicalIndex (text : EcmaString) : Option (Option Nat) :=
  if text = ascii "-0" then some none
  else do
    let number ←
      if text = ascii "NaN" then some nan
      else if text = ascii "Infinity" then some Double.infinity
      else if text = ascii "-Infinity" then some Double.infinity.negate
      else parseF64 text
    if formatNumber number ≠ text then none
    else match number.toInt with
      | some z => if 0 ≤ z ∧ z < 2^64 then some (some z.toNat) else some none
      | none => some none

def typedArrayIndex (name : EcmaString) : Option (Option Nat) := canonicalIndex name

example : typedArrayIndex (ascii "10") = some (some 10) ∧ typedArrayIndex (ascii "1.5") = some none ∧
    typedArrayIndex (ascii "01") = none := by decide +kernel

end Bamts.Runtime
