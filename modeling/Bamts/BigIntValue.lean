import Bamts.BigIntDivide
import Mathlib.Data.Nat.Size

/-! Big integers as sign and magnitude. Every value carries its normal form: no zero in front and no
negative zero. -/
set_option linter.all false
namespace Bamts.BigInt
open Limbs

def maxValueBits : Nat := 2^22

structure BigIntValue where
  negative : Bool
  limbs : List UInt32
  trimmed : Trimmed limbs
  signed : limbs = [] → negative = false
  deriving DecidableEq

inductive BigIntError where
  | range (message : String)
  | syntaxError (message : String)
  deriving DecidableEq, Repr

def signedInt (negative : Bool) (magnitude : Nat) : Int := if negative then -magnitude else magnitude

@[simp] theorem signedTrue (m) : signedInt true m = -(m : Int) := rfl

@[simp] theorem signedFalse (m) : signedInt false m = m := rfl

theorem signedZero (negative) : signedInt negative 0 = 0 := by cases negative <;> rfl

theorem signedMul (p q m n) : signedInt (p != q) (m*n) = signedInt p m*signedInt q n := by
  cases p <;> cases q <;> simp

theorem signedTdiv (p q m n) : signedInt (p != q) (m/n) = (signedInt p m).tdiv (signedInt q n) := by
  cases p <;> cases q <;> simp [Int.neg_tdiv,Int.tdiv_neg]

theorem signedTmod (p q m n) : signedInt p (m%n) = (signedInt p m).tmod (signedInt q n) := by
  cases p <;> cases q <;> simp only [signedTrue,signedFalse,Int.neg_tmod,Int.tmod_neg,Int.ofNat_tmod]

theorem signedNat (negative m) : (signedInt negative m).natAbs = m := by
  cases negative
  · exact Int.natAbs_natCast m
  · exact (Int.natAbs_neg _).trans (Int.natAbs_natCast m)

theorem fromPartsSigned (negative) (limbs : List UInt32) : limbs = [] → (negative && !limbs.isEmpty) = false := by
  rintro rfl
  exact Bool.and_false _

def fromParts (negative : Bool) (limbs : List UInt32) : BigIntValue :=
  ⟨negative && !(trim limbs).isEmpty,trim limbs,trimTrimmed limbs,fromPartsSigned negative _⟩

namespace BigIntValue
variable (x y : BigIntValue)

def magnitude : Nat := value x.limbs

def toInt : Int := signedInt x.negative x.magnitude

@[simp] theorem natAbs : x.toInt.natAbs = x.magnitude := signedNat _ _

theorem limbsNil : x.magnitude = 0 ↔ x.limbs = [] := trimmedZero x.trimmed

theorem toIntZero : x.toInt = 0 ↔ x.limbs = [] := by rw [← Int.natAbs_eq_zero,natAbs,limbsNil]

theorem negativeIff : x.negative = true ↔ x.toInt < 0 := by
  rw [toInt]
  cases sign : x.negative with
  | false => simp
  | true =>
    have some_ : x.magnitude ≠ 0 := fun zero => by
      rw [x.signed (x.limbsNil.mp zero)] at sign
      cases sign
    rw [signedTrue]
    exact iff_of_true rfl (by omega)

variable {x y}

theorem unique (same : x.toInt = y.toInt) : x = y := by
  have sign : x.negative = y.negative := Bool.eq_iff_iff.mpr (by rw [negativeIff,negativeIff,same])
  have magnitude_ : x.magnitude = y.magnitude := by rw [← natAbs,← natAbs,same]
  have limbs_ := trimmedUnique x.trimmed y.trimmed magnitude_
  cases x
  cases sign
  cases limbs_
  rfl

variable (x y)

@[simp] theorem toIntFromParts (negative limbs) : (fromParts negative limbs).toInt = signedInt negative (value limbs) := by
  rw [toInt,magnitude,fromParts]
  dsimp only
  cases none_ : (trim limbs).isEmpty with
  | false => rw [Bool.not_false,Bool.and_true,valueTrim]
  | true =>
    have zero : value limbs = 0 := by rw [← valueTrim,List.isEmpty_iff.mp none_,valueNil]
    rw [Bool.not_true,Bool.and_false,valueTrim,zero,signedZero,signedZero]

def zero : BigIntValue := ⟨false,[],trimmedNil,fun _ => rfl⟩

def one : BigIntValue := fromParts false [1]

def fromU64 (n : Nat) : BigIntValue := fromParts false ((Nat.digits (2^32) n).map UInt32.ofNat)

def isZero : Bool := x.limbs.isEmpty

def bitLength : Nat := Limbs.bitLength x.limbs

def neg : BigIntValue := fromParts (!x.negative) x.limbs

def extractBitsU64 (start : Nat) : Nat :=
  let offset := start%32
  let lo := limbOf x.limbs (start/32)
  let next1 := limbOf x.limbs (start/32+1)
  let next2 := limbOf x.limbs (start/32+2)
  if 0 < offset then (lo >>> offset ||| next1 <<< (32-offset) ||| next2 <<< (64-offset))%2^64 else lo ||| next1 <<< 32

def toU64 : Option Nat := if x.negative || 2 < x.limbs.length then none else some (x.extractBitsU64 0)

def cmp : Ordering :=
  match x.negative, y.negative with
  | false, true => .gt
  | true, false => .lt
  | false, false => magCmp x.limbs y.limbs
  | true, true => magCmp y.limbs x.limbs

def add : BigIntValue :=
  if x.negative = y.negative then fromParts x.negative (magAdd x.limbs y.limbs)
  else
    match magCmp x.limbs y.limbs with
    | .eq => zero
    | .gt => fromParts x.negative (magSub x.limbs y.limbs)
    | .lt => fromParts y.negative (magSub y.limbs x.limbs)

def sub : BigIntValue := x.add y.neg

def mul : BigIntValue := fromParts (x.negative != y.negative) (magMul x.limbs y.limbs)

def divRem : Except BigIntError (BigIntValue × BigIntValue) :=
  if y.isZero then .error (.range "BigInt division by zero")
  else
    let (q,r) := magDivmod x.limbs y.limbs
    .ok (fromParts (x.negative != y.negative) q,fromParts x.negative r)

def powerLoop (base : BigIntValue) (exponent : List UInt32) : Nat → BigIntValue → BigIntValue
  | 0, result => result
  | i+1, result =>
    let squared := result.mul result
    powerLoop base exponent i (if testBit exponent i then squared.mul base else squared)

def exponentiate (exponent : BigIntValue) : Except BigIntError BigIntValue :=
  if exponent.negative then .error (.range "BigInt exponent must be non-negative")
  else
    match x.bitLength == 0, exponent.isZero with
    | true, true => .ok one
    | true, false => .ok zero
    | false, true => .ok one
    | false, false =>
      if x.limbs = [1] then .ok (if x.negative && testBit exponent.limbs 0 then x else one)
      else
        match exponent.toU64 with
        | none => .error (.range "BigInt value is too large")
        | some exponentValue =>
          if maxValueBits < x.bitLength*exponentValue then .error (.range "BigInt value is too large")
          else .ok (powerLoop x exponent.limbs exponent.bitLength one)

def shiftAmount (count : BigIntValue) : Except BigIntError Nat :=
  match count.toU64 with
  | none => .error (.range "BigInt shift count is too large")
  | some amount => if maxValueBits < amount then .error (.range "BigInt value is too large") else .ok amount

def shlCount (count : BigIntValue) : Except BigIntError BigIntValue :=
  (shiftAmount count).map fun amount => fromParts x.negative (magShlBits x.limbs amount)

def shrCount (count : BigIntValue) : Except BigIntError BigIntValue :=
  if x.isZero then .ok zero
  else if count.cmp (fromU64 x.bitLength) ≠ .lt then .ok (if x.negative then fromParts true [1] else zero)
  else (shiftAmount count).map fun amount =>
    if x.negative then fromParts true (magAdd (magShrBits (magSub x.limbs [1]) amount) [1]) else fromParts false (magShrBits x.limbs amount)

def shl (count : BigIntValue) : Except BigIntError BigIntValue := if count.negative then x.shrCount count.neg else x.shlCount count

def shr (count : BigIntValue) : Except BigIntError BigIntValue := if count.negative then x.shlCount count.neg else x.shrCount count

@[simp] theorem toIntZeroValue : zero.toInt = 0 := rfl

@[simp] theorem toIntOne : one.toInt = 1 := rfl

@[simp] theorem toIntFromU64 (n) : (fromU64 n).toInt = n := by
  rw [fromU64,toIntFromParts,signedFalse,value,List.map_map]
  have same : (Nat.digits (2^32) n).map (UInt32.toNat ∘ UInt32.ofNat) = Nat.digits (2^32) n := by
    refine (List.map_congr_left fun d among => ?_).trans (List.map_id _)
    exact (ofNatToNat d).trans (Nat.mod_eq_of_lt (Nat.digits_lt_base (by decide) among))
  rw [same,Nat.ofDigits_digits]

theorem isZeroIff : x.isZero = true ↔ x.toInt = 0 := by rw [isZero,List.isEmpty_iff,toIntZero]

theorem bitLengthSize : x.bitLength = x.magnitude.size := by
  by_cases none_ : x.limbs = []
  · rw [bitLength,x.limbsNil.mpr none_,none_]
    rfl
  · obtain ⟨below,positive⟩ := bitLengthBelow x.trimmed none_
    refine Nat.le_antisymm ?_ (Nat.size_le.mpr (bitLengthAbove x.limbs))
    have reach : x.bitLength-1 < x.magnitude.size := Nat.lt_size.mpr below
    exact Nat.le_of_pred_lt reach

@[simp] theorem toIntNeg : x.neg.toInt = -x.toInt := by
  rw [neg,toIntFromParts,toInt]
  cases x.negative
  · rfl
  · exact (neg_neg _).symm

theorem compareSame {α β : Type} [LinearOrder α] [LinearOrder β] {a b : α} {c d : β} (less : a < b ↔ c < d) (more : b < a ↔ d < c) :
    compare a b = compare c d := by
  rcases lt_trichotomy a b with below | same | above
  · rw [compare_lt_iff_lt.mpr below,compare_lt_iff_lt.mpr (less.mp below)]
  · have same' : c = d := le_antisymm (not_lt.mp fun more_ => (more.mpr more_).ne same.symm) (not_lt.mp fun less_ => (less.mpr less_).ne same)
    rw [compare_eq_iff_eq.mpr same,compare_eq_iff_eq.mpr same']
  · rw [compare_gt_iff_gt.mpr above,compare_gt_iff_gt.mpr (more.mp above)]

theorem cmpInt : x.cmp y = compare x.toInt y.toInt := by
  have less := x.negativeIff
  have less' := y.negativeIff
  rw [cmp,magCmp,magCmp]
  cases sign : x.negative with
  | false =>
    rw [sign,Bool.false_eq_true,false_iff,not_lt] at less
    cases sign' : y.negative with
    | false =>
      rw [toInt,toInt,sign,sign',orderValue x.trimmed y.trimmed]
      exact compareSame Int.ofNat_lt.symm Int.ofNat_lt.symm
    | true => exact (compare_gt_iff_gt.mpr (lt_of_lt_of_le (less'.mp sign') less)).symm
  | true =>
    have below := less.mp sign
    cases sign' : y.negative with
    | false =>
      rw [sign',Bool.false_eq_true,false_iff,not_lt] at less'
      exact (compare_lt_iff_lt.mpr (lt_of_lt_of_le below less')).symm
    | true =>
      rw [toInt,toInt,sign,sign',orderValue y.trimmed x.trimmed]
      exact compareSame (Int.ofNat_lt.symm.trans neg_lt_neg_iff.symm) (Int.ofNat_lt.symm.trans neg_lt_neg_iff.symm)

@[simp] theorem toIntAdd : (x.add y).toInt = x.toInt+y.toInt := by
  unfold add
  split
  · rename_i same
    rw [toIntFromParts,magAddValue,toInt,toInt,← same]
    cases x.negative
    · exact Int.natCast_add _ _
    · exact (congrArg Neg.neg (Int.natCast_add _ _)).trans (neg_add _ _)
  · rename_i differs
    have order_ := orderValue x.trimmed y.trimmed
    have other : y.negative = !x.negative := (Bool.eq_not_of_ne fun same => differs same.symm)
    have opposite : x.toInt+y.toInt = signedInt x.negative x.magnitude-signedInt x.negative y.magnitude := by
      rw [toInt,toInt,other]
      cases x.negative
      · rfl
      · exact congrArg _ (neg_neg _).symm
    rw [opposite,magCmp,order_]
    split
    · rename_i same
      have equal : x.magnitude = y.magnitude := compare_eq_iff_eq.mp same
      rw [equal,sub_self,toIntZeroValue]
    · rename_i more
      have enough : y.magnitude ≤ x.magnitude := Nat.le_of_lt (compare_gt_iff_gt.mp more)
      rw [toIntFromParts,magSubValue enough]
      change signedInt x.negative (x.magnitude-y.magnitude) = _
      cases x.negative <;> simp only [signedTrue,signedFalse] <;> omega
    · rename_i less
      have enough : x.magnitude ≤ y.magnitude := Nat.le_of_lt (compare_lt_iff_lt.mp less)
      rw [toIntFromParts,magSubValue enough,other]
      change signedInt (!x.negative) (y.magnitude-x.magnitude) = _
      cases x.negative <;> simp only [signedTrue,signedFalse,Bool.not_true,Bool.not_false] <;> omega

@[simp] theorem toIntSub : (x.sub y).toInt = x.toInt-y.toInt := by rw [sub,toIntAdd,toIntNeg,Int.sub_eq_add_neg]

@[simp] theorem toIntMul : (x.mul y).toInt = x.toInt*y.toInt := by
  rw [mul,toIntFromParts,magMulValue,signedMul]
  rfl

theorem divRemZero (none_ : y.toInt = 0) : x.divRem y = .error (.range "BigInt division by zero") := by
  rw [divRem,if_pos (y.isZeroIff.mpr none_)]

theorem divRemInt (some_ : y.toInt ≠ 0) :
    ∃ q r, x.divRem y = .ok (q,r) ∧ q.toInt = x.toInt.tdiv y.toInt ∧ r.toInt = x.toInt.tmod y.toInt := by
  have real : y.limbs ≠ [] := fun none_ => some_ (y.toIntZero.mpr none_)
  obtain ⟨quotient,remainder⟩ := @magDivmodValue x.limbs _ y.trimmed real
  refine ⟨_,_,by rw [divRem,if_neg (fun zero => some_ (y.isZeroIff.mp zero))],?_,?_⟩
  · rw [toIntFromParts,quotient]
    exact signedTdiv _ _ _ _
  · rw [toIntFromParts,remainder]
    exact signedTmod _ _ _ _

theorem powerLoopInt (base exponent i result) :
    (powerLoop base exponent i result).toInt = result.toInt^2^i*base.toInt^(value exponent%2^i) := by
  induction i generalizing result with
  | zero => rw [powerLoop,Nat.pow_zero,pow_one,Nat.mod_one,pow_zero,mul_one]
  | succ i ih =>
    have bit := Nat.mod_pow_succ (x := value exponent) (b := 2) (k := i)
    rw [← Nat.toNat_testBit] at bit
    rw [powerLoop,ih,testBitValue,bit,Nat.pow_succ]
    cases (value exponent).testBit i
    · rw [if_neg Bool.false_ne_true,toIntMul,Bool.toNat_false,Nat.mul_zero,Nat.add_zero]
      ring
    · rw [if_pos rfl,toIntMul,toIntMul,Bool.toNat_true,Nat.mul_one,pow_add]
      ring

theorem extractAll : x.extractBitsU64 0 = x.magnitude%2^64 := by
  have low := limbOfLt x.limbs 0
  have first := limbOfValue x.limbs 0
  have second := limbOfValue x.limbs 1
  have joins : limbOf x.limbs 0 ||| limbOf x.limbs 1 <<< 32 = limbOf x.limbs 1*2^32+limbOf x.limbs 0 := by
    rw [Nat.or_comm,← Nat.shiftLeft_add_eq_or_of_lt low,Nat.shiftLeft_eq]
  have whole : x.extractBitsU64 0 = limbOf x.limbs 0 ||| limbOf x.limbs 1 <<< 32 := rfl
  rw [whole,joins,first,second,magnitude,Nat.pow_zero,Nat.pow_one]
  omega

theorem toU64Small (count : x.negative = false) (small : x.magnitude < 2^64) : x.toU64 = some x.magnitude := by
  have short : ¬2 < x.limbs.length := by
    intro long
    rcases trimmedIff.mp x.trimmed with none_ | large
    · rw [none_] at long
      cases long
    · have reach : (2^32)^2 ≤ (2^32)^(x.limbs.length-1) := Nat.pow_le_pow_right (by decide) (by omega)
      exact absurd (Nat.lt_of_lt_of_le small (Nat.le_trans reach large)) (Nat.lt_irrefl _)
  rw [toU64,count,Bool.false_or,decide_eq_false short,if_neg Bool.false_ne_true,extractAll,Nat.mod_eq_of_lt small]

theorem toU64Large (large : 2^64 ≤ x.magnitude) : x.toU64 = none := by
  have long : 2 < x.limbs.length := by
    by_contra short
    have below := valueLt x.limbs
    have reach : (2^32)^x.limbs.length ≤ (2^32)^2 := Nat.pow_le_pow_right (by decide) (Nat.not_lt.mp short)
    exact absurd (Nat.lt_of_lt_of_le below reach) (Nat.not_lt.mpr large)
  rw [toU64,decide_eq_true long,Bool.or_true,if_pos rfl]

end BigIntValue

def power (x y : Int) : Except BigIntError Int :=
  if y < 0 then .error (.range "BigInt exponent must be non-negative")
  else if 2 ≤ x.natAbs ∧ maxValueBits < x.natAbs.size*y.natAbs then .error (.range "BigInt value is too large")
  else .ok (x^y.natAbs)

def amountOf (count : Nat) : Except BigIntError Nat :=
  if 2^64 ≤ count then .error (.range "BigInt shift count is too large")
  else if maxValueBits < count then .error (.range "BigInt value is too large") else .ok count

def leftShift (x : Int) (count : Nat) : Except BigIntError Int := (amountOf count).map fun amount => x*2^amount

def rightShift (x : Int) (count : Nat) : Except BigIntError Int :=
  if x.natAbs.size ≤ count then .ok (x/2^count) else (amountOf count).map fun amount => x/2^amount

def shifted (x count : Int) : Except BigIntError Int := if count < 0 then rightShift x count.natAbs else leftShift x count.natAbs

namespace BigIntValue
variable (x y : BigIntValue)

theorem notNegative : x.negative = false ↔ 0 ≤ x.toInt := by rw [← not_lt,← negativeIff,Bool.not_eq_true]

theorem magnitudeInt (count : x.negative = false) : x.toInt = x.magnitude := by rw [toInt,count,signedFalse]

theorem limbsOne : x.magnitude = 1 ↔ x.limbs = [1] := by
  constructor
  · exact fun same => trimmedUnique x.trimmed (show Trimmed [1] by decide) same
  · intro same
    rw [magnitude,same]
    rfl

theorem sizeZero : (x.bitLength == 0) = decide (x.magnitude = 0) := by
  rw [bitLengthSize,Bool.eq_iff_iff,beq_iff_eq,decide_eq_true_iff,Nat.size_eq_zero]

theorem powerOne {n : Nat} (unit : x.magnitude = 1) : (if x.negative && n.testBit 0 then x else one).toInt = x.toInt^n := by
  have sign : x.toInt = signedInt x.negative 1 := by rw [toInt,unit]
  rw [sign]
  cases negative : x.negative with
  | false => rw [Bool.false_and,if_neg Bool.false_ne_true,toIntOne,signedFalse,Nat.cast_one,one_pow]
  | true =>
    rw [negative] at sign
    rw [Bool.true_and,Nat.testBit_zero,signedTrue,Nat.cast_one]
    rcases Nat.even_or_odd n with even | odd
    · rw [Nat.even_iff.mp even,even.neg_one_pow]
      rfl
    · rw [Nat.odd_iff.mp odd,odd.neg_one_pow]
      exact sign

theorem exponentiateInt : (x.exponentiate y).map toInt = power x.toInt y.toInt := by
  unfold exponentiate power
  by_cases below : y.negative = true
  · rw [if_pos below,if_pos (y.negativeIff.mp below)]
    rfl
  · have count := Bool.eq_false_iff.mpr below
    have zero_ : y.isZero = decide (y.magnitude = 0) := by rw [Bool.eq_iff_iff,isZeroIff,decide_eq_true_iff,← natAbs,Int.natAbs_eq_zero]
    rw [if_neg below,if_neg fun less => below (y.negativeIff.mpr less),natAbs,natAbs,sizeZero,zero_]
    by_cases none_ : y.magnitude = 0
    · have open_ : ¬(2 ≤ x.magnitude ∧ maxValueBits < x.magnitude.size*0) := fun guarded => Nat.not_lt_zero _ guarded.2
      rw [none_,if_neg open_,pow_zero]
      cases decide (x.magnitude = 0) <;> rfl
    · rw [decide_eq_false none_]
      by_cases nothing : x.magnitude = 0
      · have base : x.toInt = 0 := by rw [← Int.natAbs_eq_zero,natAbs,nothing]
        have open_ : ¬(2 ≤ 0 ∧ maxValueBits < Nat.size 0*y.magnitude) := fun guarded => absurd guarded.1 (by decide)
        rw [decide_eq_true nothing,nothing,base,zero_pow none_,if_neg open_]
        rfl
      · rw [decide_eq_false nothing]
        by_cases unit : x.magnitude = 1
        · have open_ : ¬(2 ≤ 1 ∧ maxValueBits < Nat.size 1*y.magnitude) := fun guarded => absurd guarded.1 (by decide)
          rw [if_pos (x.limbsOne.mp unit),unit,if_neg open_,testBitValue]
          exact congrArg Except.ok (x.powerOne unit)
        · have more : 2 ≤ x.magnitude := by omega
          rw [if_neg fun same => unit (x.limbsOne.mpr same)]
          by_cases small : y.magnitude < 2^64
          · rw [y.toU64Small count small,bitLengthSize]
            dsimp only
            split
            · rename_i wide
              rw [if_pos ⟨more,wide⟩]
              rfl
            · rename_i narrow
              rw [if_neg fun guarded => narrow guarded.2]
              refine congrArg Except.ok ?_
              rw [powerLoopInt,toIntOne,one_pow,one_mul,bitLength,Nat.mod_eq_of_lt (bitLengthAbove _)]
              rfl
          · have large : 2^64 ≤ y.magnitude := Nat.not_lt.mp small
            have wide : maxValueBits < x.magnitude.size*y.magnitude := by
              calc maxValueBits < 2^64 := by decide
                _ ≤ y.magnitude := large
                _ ≤ x.magnitude.size*y.magnitude := Nat.le_mul_of_pos_left _ (Nat.size_pos.mpr (Nat.zero_lt_of_lt more))
            rw [y.toU64Large large,if_pos ⟨more,wide⟩]
            rfl

theorem shiftAmountInt (count : x.negative = false) : shiftAmount x = amountOf x.magnitude := by
  unfold shiftAmount amountOf
  by_cases small : x.magnitude < 2^64
  · rw [x.toU64Small count small,if_neg (Nat.not_le.mpr small)]
  · rw [x.toU64Large (Nat.not_lt.mp small),if_pos (Nat.not_lt.mp small)]

theorem mapMap {α β γ : Type} (result : Except BigIntError α) (f) (g : β → γ) : (result.map f).map g = result.map fun a => g (f a) := by
  cases result <;> rfl

theorem shlCountInt (count : y.negative = false) : (x.shlCount y).map toInt = leftShift x.toInt y.magnitude := by
  rw [shlCount,shiftAmountInt y count,mapMap,leftShift]
  congr 1
  funext amount
  rw [toIntFromParts,magShlBitsValue,toInt]
  cases x.negative
  · exact (Int.natCast_mul _ _).trans (congrArg _ (Int.natCast_pow 2 amount))
  · rw [signedTrue,signedTrue,Int.natCast_mul,Int.natCast_pow,← Int.neg_mul]
    rfl

theorem floorNegative {m d : Nat} (some_ : 0 < m) (positive : 0 < d) : -(m : Int)/d = -(((m-1)/d+1 : Nat) : Int) := by
  obtain ⟨less,rfl⟩ : ∃ less, m = less+1 := ⟨m-1,(Nat.sub_add_cancel some_).symm⟩
  exact Int.negSucc_ediv less (Int.natCast_pos.mpr positive)

theorem shrCountInt (count : y.negative = false) : (x.shrCount y).map toInt = rightShift x.toInt y.magnitude := by
  unfold shrCount rightShift
  rw [natAbs]
  by_cases none_ : x.isZero = true
  · have zero_ := x.isZeroIff.mp none_
    have nothing : x.magnitude = 0 := by rw [← natAbs,zero_]; rfl
    rw [if_pos none_,nothing,zero_,Nat.size_zero,if_pos (Nat.zero_le _),Int.zero_ediv]
    rfl
  · have some_ : 0 < x.magnitude := Nat.pos_of_ne_zero fun nothing => none_ (x.isZeroIff.mpr (by rw [← Int.natAbs_eq_zero,natAbs,nothing]))
    have order_ : y.cmp (fromU64 x.bitLength) ≠ .lt ↔ x.magnitude.size ≤ y.magnitude := by
      rw [cmpInt,toIntFromU64,y.magnitudeInt count,bitLengthSize,Ne,compare_lt_iff_lt,not_lt,Int.ofNat_le]
    rw [if_neg none_]
    by_cases wide : x.magnitude.size ≤ y.magnitude
    · have below := Nat.size_le.mp wide
      rw [if_pos (order_.mpr wide),if_pos wide,toInt]
      refine congrArg Except.ok ?_
      cases x.negative
      · exact (Int.ediv_eq_zero_of_lt (Int.natCast_nonneg _) (by exact_mod_cast below)).symm
      · have floor_ := floorNegative some_ (Nat.two_pow_pos y.magnitude)
        rw [Nat.div_eq_of_lt (Nat.lt_of_le_of_lt (Nat.sub_le _ _) below),Nat.cast_pow] at floor_
        exact floor_.symm
    · rw [if_neg fun reached => wide (order_.mp reached),if_neg wide,shiftAmountInt y count,mapMap]
      congr 1
      funext amount
      have whole : x.toInt = signedInt x.negative x.magnitude := rfl
      rw [whole]
      cases x.negative
      · rw [if_neg Bool.false_ne_true,toIntFromParts,magShrBitsValue,signedFalse,signedFalse,Int.natCast_ediv,Nat.cast_pow]
        rfl
      · have floor_ := floorNegative some_ (Nat.two_pow_pos amount)
        have less : value (magSub x.limbs [1]) = x.magnitude-1 := magSubValue some_
        rw [if_pos rfl,toIntFromParts,magAddValue,magShrBitsValue,less]
        exact floor_.symm

theorem negCount (below : y.negative = true) : y.neg.negative = false ∧ y.neg.magnitude = y.toInt.natAbs := by
  have less := y.negativeIff.mp below
  refine ⟨?_,?_⟩
  · rw [notNegative,toIntNeg]
    omega
  · rw [← natAbs,toIntNeg,Int.natAbs_neg]

theorem shlInt : (x.shl y).map toInt = shifted x.toInt y.toInt := by
  unfold shl shifted
  by_cases below : y.negative = true
  · obtain ⟨count,same⟩ := y.negCount below
    rw [if_pos below,if_pos (y.negativeIff.mp below),shrCountInt x y.neg count,same]
  · rw [if_neg below,if_neg fun less => below (y.negativeIff.mpr less),shlCountInt x y (Bool.eq_false_iff.mpr below),natAbs]

theorem shiftNothing (x) : rightShift x 0 = leftShift x 0 := by
  have stays : x/2^0 = x*2^0 := by rw [pow_zero,Int.ediv_one,mul_one]
  have whole : leftShift x 0 = .ok (x*2^0) := rfl
  rw [rightShift,whole]
  split
  · exact congrArg Except.ok stays
  · exact congrArg Except.ok stays

theorem shrInt : (x.shr y).map toInt = shifted x.toInt (-y.toInt) := by
  unfold shr shifted
  rw [Int.natAbs_neg]
  by_cases below : y.negative = true
  · obtain ⟨count,same⟩ := y.negCount below
    have less := y.negativeIff.mp below
    rw [if_pos below,if_neg (by omega),shlCountInt x y.neg count,same]
  · have count := Bool.eq_false_iff.mpr below
    have more := y.notNegative.mp count
    rw [if_neg below,shrCountInt x y count,natAbs]
    split
    · rfl
    · have nothing : y.magnitude = 0 := by
        rw [← natAbs]
        omega
      rw [nothing,shiftNothing]

end BigIntValue
end Bamts.BigInt
