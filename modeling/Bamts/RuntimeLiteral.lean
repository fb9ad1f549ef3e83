import Bamts.RuntimeBoxing
import Bamts.ListStrip

/-! The numeric literals of ECMAScript, and the bodies the parser of the standard library reads as anything but NaN. -/
set_option linter.all false
namespace Bamts.Runtime
open Bytecode Binary64 Strip

namespace Literal

def infinity : List UInt16 := (ascii "Infinity").asUnits

def Digits (units : List UInt16) : Prop := units ≠ [] ∧ ∀ unit ∈ units, isDigit unit = true

def Signed (text : List UInt16 → Prop) (units : List UInt16) : Prop :=
  ∃ sign rest, sign ∈ [[],[43],[45]] ∧ text rest ∧ units = sign ++ rest

inductive ExponentPart : List UInt16 → Prop
  | none : ExponentPart []
  | some (mark : UInt16) : mark = 101 ∨ mark = 69 → Signed Digits digits → ExponentPart (mark :: digits)

inductive UnsignedDecimal : List UInt16 → Prop
  | whole : Digits digits → ExponentPart exponent → UnsignedDecimal (digits ++ exponent)
  | point : Digits digits → (∀ unit ∈ fraction, isDigit unit = true) → ExponentPart exponent →
    UnsignedDecimal (digits ++ 46 :: (fraction ++ exponent))
  | fraction : Digits fraction → ExponentPart exponent → UnsignedDecimal (46 :: (fraction ++ exponent))

def StrDecimal : List UInt16 → Prop := Signed fun body => body = infinity ∨ UnsignedDecimal body

def Plain (units : List UInt16) : Prop := units = [] ∨ StrDecimal units

def hexDigit (unit : UInt16) : Bool := isDigit unit || 65 ≤ unit && unit ≤ 70 || 97 ≤ unit && unit ≤ 102

-- The marks `x`, `o` and `b` in both cases, with the digits that follow them.
def radixDigit (mark : UInt16) : Option (UInt16 → Bool) :=
  if mark = 120 ∨ mark = 88 then some hexDigit
  else if mark = 111 ∨ mark = 79 then some fun unit => 48 ≤ unit && unit ≤ 55
  else if mark = 98 ∨ mark = 66 then some fun unit => 48 ≤ unit && unit ≤ 49
  else none

inductive NonDecimal : List UInt16 → Prop
  | prefixed : radixDigit mark = some digit → digits ≠ [] → (∀ unit ∈ digits, digit unit = true) → NonDecimal (48 :: mark :: digits)

def infinityWord (body : List UInt16) : Prop :=
  body.map lowercase = (ascii "inf").asUnits ∨ body.map lowercase = (ascii "infinity").asUnits

def Miscased : List UInt16 → Prop := Signed fun body => infinityWord body ∧ body ≠ infinity

section signs

variable {text other : List UInt16 → Prop} {units : List UInt16}

theorem signedIs (plus : ∀ rest, ¬text (43 :: rest)) (minus : ∀ rest, ¬text (45 :: rest)) :
    Signed text units ↔ text (takeSign units).2 := by
  constructor
  · rintro ⟨sign,rest,known,is,rfl⟩
    simp only [List.mem_cons,List.not_mem_nil,or_false] at known
    rcases known with rfl | rfl | rfl
    · rw [List.nil_append]
      unfold takeSign
      split
      · exact absurd is (plus _)
      · exact absurd is (minus _)
      · exact is
    · exact is
    · exact is
  · intro is
    unfold takeSign at is
    split at is
    · exact ⟨[43],_,by simp,is,rfl⟩
    · exact ⟨[45],_,by simp,is,rfl⟩
    · exact ⟨[],_,by simp,is,rfl⟩

theorem Signed.weaken (weaker : ∀ rest, text rest → other rest) : Signed text units → Signed other units := by
  rintro ⟨sign,rest,known,is,split⟩
  exact ⟨sign,rest,known,weaker rest is,split⟩

theorem signedOr : Signed (fun rest => text rest ∨ other rest) units ↔ Signed text units ∨ Signed other units := by
  constructor
  · rintro ⟨sign,rest,known,is | is,split⟩
    · exact Or.inl ⟨sign,rest,known,is,split⟩
    · exact Or.inr ⟨sign,rest,known,is,split⟩
  · rintro (is | is)
    · exact is.weaken fun _ => Or.inl
    · exact is.weaken fun _ => Or.inr

end signs

theorem digitsUnsigned : (∀ rest, ¬Digits (43 :: rest)) ∧ ∀ rest, ¬Digits (45 :: rest) := by
  constructor
  · rintro rest ⟨_,all⟩
    exact absurd (all 43 (List.mem_cons_self ..)) (by decide)
  · rintro rest ⟨_,all⟩
    exact absurd (all 45 (List.mem_cons_self ..)) (by decide)

theorem signedDigits : Signed Digits units ↔ Digits (takeSign units).2 := signedIs digitsUnsigned.1 digitsUnsigned.2

theorem exponentMark (mark) : lowercase mark = 101 ↔ mark = 101 ∨ mark = 69 := by
  have value : ∀ a b : UInt16, a = b ↔ a.toNat = b.toNat := fun a b => UInt16.toNat_inj.symm
  unfold lowercase
  split
  · rename_i capital
    simp only [Bool.and_eq_true,decide_eq_true_eq,UInt16.le_iff_toNat_le] at capital
    rw [value,value mark,value mark,UInt16.toNat_add]
    simp only [UInt16.reduceToNat] at capital ⊢
    omega
  · rename_i other
    simp only [Bool.and_eq_true,decide_eq_true_eq,UInt16.le_iff_toNat_le] at other
    rw [value,value mark]
    simp only [UInt16.reduceToNat] at other ⊢
    omega

theorem parsesExponent : (parseExponent units).isSome = true ↔ ExponentPart units := by
  cases units with
  | nil => exact iff_of_true rfl ExponentPart.none
  | cons mark rest =>
    have digits : (takeSign rest).2 ≠ [] ∧ (takeSign rest).2.all isDigit = true ↔ Signed Digits rest := by
      rw [signedDigits,List.all_eq_true]
      exact Iff.rfl
    have some_ : (parseExponent (mark :: rest)).isSome = true ↔
        lowercase mark = 101 ∧ (takeSign rest).2 ≠ [] ∧ (takeSign rest).2.all isDigit = true := by
      simp only [parseExponent]
      split
      · rename_i holds
        exact iff_of_true rfl holds
      · rename_i fails
        exact iff_of_false Bool.false_ne_true fails
    rw [some_,digits,exponentMark]
    constructor
    · rintro ⟨letter,signed⟩
      exact ExponentPart.some mark letter signed
    · rintro (_ | ⟨_,letter,signed⟩)
      exact ⟨letter,signed⟩

def wholePart (body : List UInt16) : List UInt16 := body.takeWhile isDigit

def restParts (rest : List UInt16) : List UInt16 × List UInt16 := match rest with
  | 46 :: rest => (rest.takeWhile isDigit,rest.dropWhile isDigit)
  | rest => ([],rest)

theorem restPartsCases (rest) :
    (∃ after, rest = 46 :: after ∧ restParts rest = (after.takeWhile isDigit,after.dropWhile isDigit)) ∨ restParts rest = ([],rest) := by
  unfold restParts
  split
  · exact Or.inl ⟨_,rfl,rfl⟩
  · exact Or.inr rfl

theorem exponentEnds {exponent} (part : ExponentPart exponent) : ∀ u, exponent.head? = some u → isDigit u = false ∧ u ≠ 46 := by
  intro u first
  cases part with
  | none => cases first
  | some mark letter _ =>
    cases first
    rcases letter with rfl | rfl
    · decide
    · decide

theorem restPartsExponent {exponent} (part : ExponentPart exponent) : restParts exponent = ([],exponent) := by
  cases exponent with
  | nil => rfl
  | cons u rest =>
    have other := (exponentEnds part u rfl).2
    unfold restParts
    split
    · rename_i same
      cases same
      exact absurd rfl other
    · rfl

theorem restPartsPoint {fraction exponent} (digits : ∀ unit ∈ fraction, isDigit unit = true) (part : ExponentPart exponent) :
    restParts (46 :: (fraction ++ exponent)) = (fraction,exponent) := by
  obtain ⟨takes,drops⟩ := takesAll digits fun u first => (exponentEnds part u first).1
  simp only [restParts,takes,drops]

def ReadsDecimal (body : List UInt16) : Prop :=
  ¬(wholePart body = [] ∧ (restParts (body.dropWhile isDigit)).1 = []) ∧ ExponentPart (restParts (body.dropWhile isDigit)).2

theorem readsDecimal : ReadsDecimal body ↔ UnsignedDecimal body := by
  constructor
  · rintro ⟨some_,part⟩
    have split : wholePart body ++ body.dropWhile isDigit = body := List.takeWhile_append_dropWhile
    have wholeDigits : ∀ unit ∈ wholePart body, isDigit unit = true := fun unit at_ => List.mem_takeWhile_imp at_
    generalize body.dropWhile isDigit = rest at some_ part split
    obtain ⟨after,rfl,parts⟩ | parts := restPartsCases rest
    · have cut : after.takeWhile isDigit ++ after.dropWhile isDigit = after := List.takeWhile_append_dropWhile
      have fractionDigits : ∀ unit ∈ after.takeWhile isDigit, isDigit unit = true := fun unit at_ => List.mem_takeWhile_imp at_
      rw [← split,← cut]
      by_cases none : wholePart body = []
      · rw [none]
        exact UnsignedDecimal.fraction ⟨fun empty => some_ ⟨none,empty⟩,fractionDigits⟩ part
      · exact UnsignedDecimal.point ⟨none,wholeDigits⟩ fractionDigits part
    · rw [parts] at some_ part
      rw [← split]
      exact UnsignedDecimal.whole ⟨fun none => some_ ⟨none,rfl⟩,wholeDigits⟩ part
  · intro decimal
    cases decimal with
    | whole digits part =>
      obtain ⟨takes,drops⟩ := takesAll digits.2 fun u first => (exponentEnds part u first).1
      rw [ReadsDecimal,wholePart,takes,drops,restPartsExponent part]
      exact ⟨fun none => digits.1 none.1,part⟩
    | point digits fractionDigits part =>
      obtain ⟨takes,drops⟩ := @takesAll UInt16 isDigit _ (46 :: (_ ++ _)) digits.2 fun u first => by cases first; decide
      rw [ReadsDecimal,wholePart,takes,drops,restPartsPoint fractionDigits part]
      exact ⟨fun none => digits.1 none.1,part⟩
    | fraction digits part =>
      obtain ⟨takes,drops⟩ := @takesAll UInt16 isDigit [] (46 :: (_ ++ _)) (fun u at_ => absurd at_ List.not_mem_nil)
        fun u first => by cases first; decide
      rw [List.nil_append] at takes drops
      rw [ReadsDecimal,wholePart,takes,drops,restPartsPoint digits.2 part]
      exact ⟨fun none => digits.1 none.2,part⟩

theorem decimalFirst (decimal : UnsignedDecimal body) : ∃ u rest, body = u :: rest ∧ (isDigit u = true ∨ u = 46) := by
  cases decimal with
  | @whole digits _ some_ _ | @point digits _ _ some_ _ _ =>
    cases digits with
    | nil => exact absurd rfl some_.1
    | cons u rest => exact ⟨u,_,rfl,Or.inl (some_.2 u (List.mem_cons_self ..))⟩
  | fraction _ _ => exact ⟨46,_,rfl,Or.inr rfl⟩

theorem wordFirst (word : infinityWord body) : ∃ u rest, body = u :: rest ∧ lowercase u = 105 := by
  cases body with
  | nil => rcases word with word | word <;> cases word
  | cons u rest =>
    rcases word with word | word
    · exact ⟨u,rest,rfl,(List.cons.inj word).1⟩
    · exact ⟨u,rest,rfl,(List.cons.inj word).1⟩

theorem digitLowercase {u} (digit : isDigit u = true ∨ u = 46) : lowercase u = u := by
  rw [lowercase,if_neg]
  rcases digit with digit | rfl
  · simp only [isDigit,Bool.and_eq_true,decide_eq_true_eq,UInt16.le_iff_toNat_le] at digit ⊢
    simp only [UInt16.reduceToNat] at digit ⊢
    omega
  · decide

theorem decimalOther {u} (digit : isDigit u = true ∨ u = 46) : u ≠ 105 ∧ u ≠ 110 ∧ u ≠ 43 ∧ u ≠ 45 := by
  rcases digit with digit | rfl
  · refine ⟨?_,?_,?_,?_⟩
    all_goals
      rintro rfl
      cases digit
  · decide

theorem decimalNoWord (decimal : UnsignedDecimal body) :
    ¬infinityWord body ∧ body.map lowercase ≠ (ascii "nan").asUnits ∧ body ≠ infinity := by
  obtain ⟨u,rest,rfl,digit⟩ := decimalFirst decimal
  have same := digitLowercase digit
  have other := decimalOther digit
  refine ⟨?_,?_,?_⟩
  · intro word
    obtain ⟨_,_,split,letter⟩ := wordFirst word
    cases split
    exact other.1 (same ▸ letter)
  · intro word
    exact other.2.1 (same ▸ (List.cons.inj word).1)
  · intro word
    have first : u = 73 := (List.cons.inj word).1
    subst first
    rcases digit with digit | digit
    · cases digit
    · cases digit

def Reads (body : List UInt16) : Prop := infinityWord body ∨ UnsignedDecimal body

theorem readsUnsigned : (∀ rest, ¬Reads (43 :: rest)) ∧ ∀ rest, ¬Reads (45 :: rest) := by
  constructor
  all_goals
    rintro rest (word | decimal)
    · obtain ⟨_,_,split,letter⟩ := wordFirst word
      cases split
      exact absurd letter (by decide)
    · obtain ⟨_,_,split,digit⟩ := decimalFirst decimal
      cases split
      exact absurd digit (by decide)

end Literal
end Bamts.Runtime

namespace Bamts.Binary64.Double

theorem negateNaN (x : Double) : x.negate.isNaN = x.isNaN := by
  obtain ⟨low,_⟩ := x.negateFields
  have sameExponent : x.negate.exponent = x.exponent := by
    simp only [exponent]
    omega
  have sameFraction : x.negate.fraction = x.fraction := by
    simp only [fraction]
    omega
  rw [isNaN,isNaN,sameExponent,sameFraction]

theorem plainBits {x : Double} (finite : x.bits.toNat < 2047*2^52) : x.isNaN = false := by
  have below : x.exponent < 2047 := by
    rw [exponent]
    omega
  rw [isNaN,beq_eq_false_iff_ne.mpr (by omega),Bool.false_and]

theorem packPlain {significand scale} (short : significand ≤ 2^53) : (pack significand scale).isNaN = false := by
  unfold pack
  split
  · refine plainBits ?_
    rw [UInt64.toNat_ofNat_of_lt' (by simp only [UInt64.size]; omega)]
    omega
  · split
    · rfl
    · refine plainBits ?_
      have small : scale*2^52 + (significand-2^52) < 2047*2^52 := by omega
      rw [UInt64.toNat_ofNat_of_lt' (by simp only [UInt64.size]; omega)]
      exact small

theorem quotientRounds (num den scale) : quotient num den scale ≤ num*2^1075/(den*2^scale)+1 := by
  unfold quotient
  dsimp only
  split
  · exact Nat.le_refl _
  · exact Nat.le_succ _

theorem ratioFits {num den place top : Nat} (some_ : den ≠ 0) (fits : Nat.log2 num+top < Nat.log2 den+place+53) :
    num*2^top/(den*2^place) < 2^53 := by
  refine Nat.div_lt_of_lt_mul ?_
  calc num*2^top < 2^(Nat.log2 num+1)*2^top := Nat.mul_lt_mul_of_pos_right Nat.lt_log2_self (Nat.two_pow_pos _)
    _ = 2^(Nat.log2 num+1+top) := (pow_add _ _ _).symm
    _ ≤ 2^(Nat.log2 den+place+53) := Nat.pow_le_pow_right (by decide) (by omega)
    _ = 2^Nat.log2 den*2^place*2^53 := by rw [pow_add,pow_add]
    _ ≤ den*2^place*2^53 := Nat.mul_le_mul_right _ (Nat.mul_le_mul_right _ (Nat.log2_self_le some_))

theorem fitScaleFits (num) {den} (some_ : den ≠ 0) : num*2^1075/(den*2^fitScale num den) < 2^53 := by
  unfold fitScale
  dsimp only
  split
  · assumption
  · exact ratioFits some_ (by omega)

theorem nearestPlain (num) {den} (some_ : den ≠ 0) : (nearest num den).isNaN = false :=
  packPlain ((quotientRounds num den _).trans (fitScaleFits num some_))

end Bamts.Binary64.Double

namespace Bamts.Runtime
open Bytecode Binary64 Strip

theorem scaledPlain (negative num exponent) : (scaled negative num exponent).isNaN = false := by
  have plain : (if num = 0 then Double.zero
      else if 0 ≤ exponent then Double.nearest (num*10^exponent.toNat) 1 else Double.nearest num (10^(-exponent).toNat)).isNaN = false := by
    split
    · rfl
    · split
      · exact Double.nearestPlain _ Nat.one_ne_zero
      · exact Double.nearestPlain _ (Nat.pow_pos (by decide)).ne'
  unfold scaled
  dsimp only
  split
  · rw [Double.negateNaN,plain]
  · exact plain

namespace Literal

theorem parseF64Reads (units) : ((parseF64 ⟨units⟩).getD nan).isNaN = false ↔ Signed Reads units := by
  have nanIs : nan.isNaN = true := by decide
  have infinityIs : Double.infinity.isNaN = false := by decide
  rw [signedIs readsUnsigned.1 readsUnsigned.2]
  simp only [parseF64]
  generalize takeSign units = signed
  obtain ⟨negative,body⟩ := signed
  split
  · rename_i notNumber
    have none : ¬Reads body := by
      rintro (word | decimal)
      · rcases word with word | word
        · rw [word] at notNumber
          cases notNumber
        · rw [word] at notNumber
          cases notNumber
      · exact (decimalNoWord decimal).2.1 notNumber
    refine iff_of_false ?_ none
    rw [Option.getD_some]
    split
    · rw [Double.negateNaN,nanIs]
      exact Bool.false_ne_true.symm
    · rw [nanIs]
      exact Bool.false_ne_true.symm
  · split
    · rename_i word
      refine iff_of_true ?_ (Or.inl word)
      rw [Option.getD_some]
      split
      · rw [Double.negateNaN,infinityIs]
      · exact infinityIs
    · rename_i noWord
      have decimal : Reads body ↔ ReadsDecimal body := by
        rw [readsDecimal]
        exact ⟨fun reads => reads.resolve_left noWord,Or.inr⟩
      rw [decimal,ReadsDecimal,← parsesExponent]
      change (Option.getD (if (wholePart body).isEmpty && (restParts (body.dropWhile isDigit)).1.isEmpty then none
        else (parseExponent (restParts (body.dropWhile isDigit)).2).map _) nan).isNaN = false ↔ _
      split
      · rename_i none
        rw [Bool.and_eq_true,List.isEmpty_iff,List.isEmpty_iff] at none
        refine iff_of_false ?_ fun reads => reads.1 none
        exact Bool.false_ne_true.symm
      · rename_i some_
        rw [Bool.and_eq_true,List.isEmpty_iff,List.isEmpty_iff] at some_
        cases parseExponent (restParts (body.dropWhile isDigit)).2 with
        | none =>
          refine iff_of_false ?_ fun reads => Bool.false_ne_true reads.2
          rw [Option.map_none,Option.getD_none,nanIs]
          exact Bool.false_ne_true.symm
        | some exponent => exact iff_of_true (scaledPlain ..) ⟨some_,rfl⟩

end Literal
end Bamts.Runtime
