import Bamts.BigIntValue
import Mathlib.Data.Int.Bitwise

/-! The bits of big integers: the operations that read them as infinite two's complement, and the
truncations to a width. -/
set_option linter.all false
namespace Bamts.BigInt
open Limbs

section Bits

theorem wrapBit {e n : Nat} (small : e < 2^n) (negative : Bool) (i) :
    ((e : Int)-(if negative then 2^n else 0 : Nat)).testBit i = if i < n then e.testBit i else negative := by
  cases negative with
  | false =>
    rw [if_neg Bool.false_ne_true,Nat.cast_zero,Int.sub_zero]
    split
    · rfl
    · rename_i above
      exact Nat.testBit_lt_two_pow (Nat.lt_of_lt_of_le small (Nat.pow_le_pow_right (by decide) (Nat.not_lt.mp above)))
  | true =>
    have below : (e : Int)-(2^n : Nat) = Int.negSucc (2^n-(e+1)) := by omega
    rw [if_pos rfl,below,Int.testBit,Nat.testBit_two_pow_sub_succ small]
    split
    · rename_i within
      rw [decide_eq_true within,Bool.true_and,Bool.not_not]
    · rename_i above
      rw [decide_eq_false above,Bool.false_and,Bool.not_false]

theorem noBits (m k : Nat) : m.testBit (m+k) = false :=
  Nat.testBit_lt_two_pow (Nat.lt_of_lt_of_le Nat.lt_two_pow_self (Nat.pow_le_pow_right (by decide) (Nat.le_add_right m k)))

theorem sameBits {a b : Int} (same : ∀ i, a.testBit i = b.testBit i) : a = b := by
  cases a with
  | ofNat m =>
    cases b with
    | ofNat k => exact congrArg Int.ofNat (Nat.eq_of_testBit_eq same)
    | negSucc k =>
      have far := same (m+k)
      rw [Int.testBit,Int.testBit,noBits,Nat.add_comm,noBits] at far
      cases far
  | negSucc m =>
    cases b with
    | ofNat k =>
      have far := same (m+k)
      rw [Int.testBit,Int.testBit,noBits,Nat.add_comm,noBits] at far
      cases far
    | negSucc k => exact congrArg Int.negSucc (Nat.eq_of_testBit_eq fun i => Bool.not_inj (same i))

end Bits

inductive Bitwise where
  | and
  | or
  | xor
  deriving DecidableEq, Repr

namespace Bitwise

def limb : Bitwise → UInt32 → UInt32 → UInt32
  | and, x, y => x &&& y
  | or, x, y => x ||| y
  | xor, x, y => x ^^^ y

def sign : Bitwise → Bool → Bool → Bool
  | and, p, q => p && q
  | or, p, q => p || q
  | xor, p, q => p != q

def integer : Bitwise → Int → Int → Int
  | and => Int.land
  | or => Int.lor
  | xor => Int.xor

variable (op : Bitwise)

theorem limbBit (x y i) : (op.limb x y).toNat.testBit i = op.sign (x.toNat.testBit i) (y.toNat.testBit i) := by
  cases op with
  | and => exact (congrArg (Nat.testBit · i) (UInt32.toNat_and x y)).trans (Nat.testBit_and _ _ i)
  | or => exact (congrArg (Nat.testBit · i) (UInt32.toNat_or x y)).trans (Nat.testBit_or _ _ i)
  | xor => exact (congrArg (Nat.testBit · i) (UInt32.toNat_xor x y)).trans (Nat.testBit_xor _ _ i)

theorem integerBit (x y i) : (op.integer x y).testBit i = op.sign (x.testBit i) (y.testBit i) := by
  cases op with
  | and => exact Int.testBit_land x y i
  | or => exact Int.testBit_lor x y i
  | xor => exact Int.testBit_lxor x y i

theorem signNone : op.sign false false = false := by cases op <;> rfl

end Bitwise

theorem consBit (limb rest i) :
    (value (limb :: rest)).testBit i = if i < 32 then limb.toNat.testBit i else (value rest).testBit (i-32) := by
  rw [valueCons,Nat.add_comm,Nat.testBit_two_pow_mul_add _ (limbLt limb)]

theorem zipBit (op : Bitwise) {a b} (long : a.length = b.length) (i) :
    (value (List.zipWith op.limb a b)).testBit i = op.sign ((value a).testBit i) ((value b).testBit i) := by
  induction a generalizing b i with
  | nil =>
    rw [List.length_eq_zero_iff.mp long.symm,List.zipWith_nil_left,valueNil,Nat.zero_testBit,op.signNone]
  | cons x a ih =>
    cases b with
    | nil => cases long
    | cons y b =>
      rw [List.zipWith_cons_cons,consBit,consBit,consBit,ih (Nat.succ.inj long),op.limbBit]
      split <;> rfl

def resized (width : Nat) (limbs : List UInt32) : List UInt32 := (limbs ++ List.replicate width 0).take width

theorem resizedLength (width limbs) : (resized width limbs).length = width := by
  rw [resized,List.length_take,List.length_append,List.length_replicate]
  omega

theorem resizedValue (width limbs) : value (resized width limbs) = value limbs%(2^32)^width := by
  rw [resized,valueTake,valueAppend,valueZeros,Nat.mul_zero,Nat.add_zero]

def expandLoop : Nat → List UInt32 → Bool → List UInt32
  | 0, _, _ => []
  | width+1, limbs, borrow =>
    let m := limbs.headD 0
    ~~~(m-UInt32.ofNat borrow.toNat) :: expandLoop width limbs.tail (m < UInt32.ofNat borrow.toNat)

def twoComplementExpand (x : BigIntValue) (width : Nat) : List UInt32 :=
  if x.negative then expandLoop width x.limbs true else resized width x.limbs

theorem expandLoopLength (width limbs borrow) : (expandLoop width limbs borrow).length = width := by
  induction width generalizing limbs borrow with
  | zero => rfl
  | succ width ih => exact congrArg Nat.succ (ih _ _)

theorem notLimb (x : UInt32) : (~~~x).toNat = 2^32-1-x.toNat := UInt32.toNat_not x

theorem borrowLimb (m) (borrow : Bool) : (~~~(m-UInt32.ofNat borrow.toNat)).toNat+m.toNat+1 =
    2^32*(!decide (m < UInt32.ofNat borrow.toNat)).toNat+borrow.toNat ∧ (m < UInt32.ofNat borrow.toNat → m.toNat = 0) := by
  have m_ := limbLt m
  have unit : (UInt32.ofNat borrow.toNat).toNat = borrow.toNat := by cases borrow <;> rfl
  have bit := Bool.toNat_le borrow
  have less : m < UInt32.ofNat borrow.toNat ↔ m.toNat < borrow.toNat := by rw [UInt32.lt_iff_toNat_lt,unit]
  rw [notLimb,UInt32.toNat_sub,unit]
  by_cases under : m.toNat < borrow.toNat
  · rw [decide_eq_true (less.mpr under),Bool.not_true,Bool.toNat_false]
    omega
  · rw [decide_eq_false fun below => under (less.mp below),Bool.not_false,Bool.toNat_true]
    refine ⟨by omega,fun below => absurd (less.mp below) under⟩

theorem expandLoopValue {width limbs borrow} (least : borrow.toNat ≤ value limbs) (most : value limbs < (2^32)^width) :
    value (expandLoop width limbs borrow)+value limbs+1 = (2^32)^width+borrow.toNat := by
  induction width generalizing limbs borrow with
  | zero =>
    rw [expandLoop,valueNil,Nat.pow_zero]
    omega
  | succ width ih =>
    have parts := headTail limbs
    obtain ⟨one,none_⟩ := borrowLimb (limbs.headD 0) borrow
    rw [expandLoop,valueCons,basePower,parts]
    by_cases under : limbs.headD 0 < UInt32.ofNat borrow.toNat
    · have zero := none_ under
      rw [decide_eq_true under,Bool.not_true,Bool.toNat_false,zero] at one
      have next := @ih limbs.tail true (by rw [Bool.toNat_true]; omega) (by omega)
      rw [decide_eq_true under]
      rw [Bool.toNat_true] at next
      omega
    · rw [decide_eq_false under,Bool.not_false,Bool.toNat_true] at one
      have next := @ih limbs.tail false (Nat.zero_le _) (by omega)
      rw [decide_eq_false under]
      rw [Bool.toNat_false] at next
      omega

theorem expandLength (x width) : (twoComplementExpand x width).length = width := by
  unfold twoComplementExpand
  split
  · exact expandLoopLength _ _ _
  · exact resizedLength _ _

theorem limbsPower (n) : (2^32)^n = 2^(32*n) := (Nat.pow_mul 2 32 n).symm

theorem expandValue (x) {width} (fits : x.magnitude < (2^32)^width) :
    x.toInt = (value (twoComplementExpand x width) : Int)-(if x.negative then 2^(32*width) else 0 : Nat) := by
  rw [← limbsPower,BigIntValue.toInt]
  unfold twoComplementExpand
  cases sign : x.negative with
  | false =>
    have whole : value x.limbs = x.magnitude := rfl
    rw [if_neg Bool.false_ne_true,if_neg Bool.false_ne_true,resizedValue,whole,Nat.mod_eq_of_lt fits,Nat.cast_zero,Int.sub_zero,signedFalse]
  | true =>
    have some_ : x.magnitude ≠ 0 := fun none_ => by
      rw [x.signed (x.limbsNil.mp none_)] at sign
      cases sign
    have row := @expandLoopValue width x.limbs true (Nat.one_le_iff_ne_zero.mpr some_) fits
    have whole : value x.limbs = x.magnitude := rfl
    rw [whole,Bool.toNat_true] at row
    rw [if_pos rfl,if_pos rfl,signedTrue]
    omega

theorem expandBit (x) {width} (fits : x.magnitude < (2^32)^width) (i) :
    x.toInt.testBit i = if i < 32*width then (value (twoComplementExpand x width)).testBit i else x.negative := by
  have below := valueLt (twoComplementExpand x width)
  rw [expandLength,limbsPower] at below
  rw [expandValue x fits,wrapBit below]

def negateLoop : List UInt32 → Bool → List UInt32
  | [], _ => []
  | limb :: rest, carry =>
    let inverted := ~~~limb
    if carry then (inverted+1) :: negateLoop rest (inverted+1 == 0) else inverted :: negateLoop rest false

def negateTwoComplement (limbs : List UInt32) : List UInt32 := trim (negateLoop limbs true)

theorem carryLimb (limb : UInt32) : ((~~~limb+1 == 0) = true ↔ limb.toNat = 0) ∧ (~~~limb+1).toNat+limb.toNat = 2^32*(!(~~~limb+1 == 0)).toNat := by
  have limb_ := limbLt limb
  have sum : (~~~limb+1).toNat = (2^32-1-limb.toNat+1)%2^32 := by rw [UInt32.toNat_add,notLimb]; rfl
  have zero : (~~~limb+1 == 0) = true ↔ limb.toNat = 0 := by
    rw [beq_iff_eq,← UInt32.toNat_inj,sum,UInt32.toNat_zero]
    omega
  refine ⟨zero,?_⟩
  by_cases none_ : limb.toNat = 0
  · rw [zero.mpr none_,sum,none_]
    rfl
  · rw [Bool.eq_false_iff.mpr fun same => none_ (zero.mp same),sum,Bool.not_false,Bool.toNat_true]
    omega

theorem negateLoopValue {limbs carry} (some_ : carry.toNat ≤ value limbs) :
    value (negateLoop limbs carry)+value limbs+1 = (2^32)^limbs.length+carry.toNat := by
  induction limbs generalizing carry with
  | nil =>
    rw [valueNil] at some_
    rw [negateLoop,valueNil,List.length_nil,Nat.pow_zero]
    omega
  | cons limb rest ih =>
    have inverted := notLimb limb
    have limb_ := limbLt limb
    rw [valueCons] at some_
    rw [negateLoop,List.length_cons,basePower,valueCons]
    cases carry with
    | false =>
      have next := @ih false (Nat.zero_le _)
      rw [Bool.toNat_false] at next
      rw [if_neg Bool.false_ne_true,valueCons,Bool.toNat_false]
      omega
    | true =>
      obtain ⟨zero,one⟩ := carryLimb limb
      rw [Bool.toNat_true] at some_
      rw [if_pos rfl,valueCons,Bool.toNat_true]
      by_cases none_ : limb.toNat = 0
      · have next := @ih true (by rw [Bool.toNat_true]; omega)
        rw [zero.mpr none_,Bool.not_true,Bool.toNat_false,Nat.mul_zero] at one
        rw [Bool.toNat_true] at next
        rw [zero.mpr none_]
        omega
      · have next := @ih false (Nat.zero_le _)
        rw [Bool.eq_false_iff.mpr fun same => none_ (zero.mp same),Bool.not_false,Bool.toNat_true,Nat.mul_one] at one
        rw [Bool.toNat_false] at next
        rw [Bool.eq_false_iff.mpr fun same => none_ (zero.mp same)]
        omega

theorem negateValue {limbs} (some_ : 0 < value limbs) :
    value (negateTwoComplement limbs) = (2^32)^limbs.length-value limbs := by
  have row := @negateLoopValue limbs true some_
  rw [Bool.toNat_true] at row
  rw [negateTwoComplement,valueTrim]
  omega

namespace BigIntValue
variable (x y : BigIntValue)

def bitNot : BigIntValue := x.neg.sub one

def bitwise (op : Bitwise) : BigIntValue :=
  let width := max x.limbs.length y.limbs.length+1
  let out := List.zipWith op.limb (twoComplementExpand x width) (twoComplementExpand y width)
  if op.sign x.negative y.negative then fromParts true (negateTwoComplement out) else fromParts false out

def bitAnd : BigIntValue := x.bitwise y .and

def bitOr : BigIntValue := x.bitwise y .or

def bitXor : BigIntValue := x.bitwise y .xor

theorem bitNotInt : x.bitNot.toInt = Int.lnot x.toInt := by
  rw [bitNot,toIntSub,toIntNeg,toIntOne]
  cases x.toInt with
  | ofNat m =>
    have flips : Int.lnot (Int.ofNat m) = Int.negSucc m := rfl
    rw [flips,Int.ofNat_eq_natCast]
    omega
  | negSucc m =>
    have flips : Int.lnot (Int.negSucc m) = Int.ofNat m := rfl
    rw [flips,Int.ofNat_eq_natCast]
    omega

theorem topBit {width} (fits : x.limbs.length ≤ width) : (value (twoComplementExpand x (width+1))).testBit (32*width) = x.negative := by
  have small : x.magnitude < (2^32)^width := Nat.lt_of_lt_of_le (valueLt x.limbs) (Nat.pow_le_pow_right (by decide) fits)
  have wide : x.magnitude < (2^32)^(width+1) := Nat.lt_of_lt_of_le small (Nat.pow_le_pow_right (by decide) (Nat.le_succ _))
  have bit := expandBit x wide (32*width)
  have sign := expandBit x small (32*width)
  rw [if_pos (by omega)] at bit
  rw [if_neg (Nat.lt_irrefl _)] at sign
  exact bit.symm.trans sign

theorem bitwiseInt (op) : (x.bitwise y op).toInt = op.integer x.toInt y.toInt := by
  obtain ⟨width,width_⟩ : ∃ width, max x.limbs.length y.limbs.length = width := ⟨_,rfl⟩
  have left : x.limbs.length ≤ width := by omega
  have right : y.limbs.length ≤ width := by omega
  have fits : x.magnitude < (2^32)^(width+1) := Nat.lt_of_lt_of_le (valueLt x.limbs) (Nat.pow_le_pow_right (by decide) (by omega))
  have fits' : y.magnitude < (2^32)^(width+1) := Nat.lt_of_lt_of_le (valueLt y.limbs) (Nat.pow_le_pow_right (by decide) (by omega))
  have long : (twoComplementExpand x (width+1)).length = (twoComplementExpand y (width+1)).length := by rw [expandLength,expandLength]
  have bits := zipBit op long
  have top := bits (32*width)
  rw [x.topBit left,y.topBit right] at top
  have rows : (List.zipWith op.limb (twoComplementExpand x (width+1)) (twoComplementExpand y (width+1))).length = width+1 := by
    rw [List.length_zipWith,expandLength,expandLength,Nat.min_self]
  simp only [bitwise,width_]
  generalize List.zipWith op.limb (twoComplementExpand x (width+1)) (twoComplementExpand y (width+1)) = out at bits top rows ⊢
  have below := valueLt out
  rw [rows] at below
  have whole : (if op.sign x.negative y.negative then fromParts true (negateTwoComplement out) else fromParts false out).toInt =
      (value out : Int)-(if op.sign x.negative y.negative then 2^(32*(width+1)) else 0 : Nat) := by
    cases sign : op.sign x.negative y.negative with
    | false => rw [if_neg Bool.false_ne_true,if_neg Bool.false_ne_true,toIntFromParts,signedFalse,Nat.cast_zero,Int.sub_zero]
    | true =>
      have some_ : 0 < value out := Nat.pos_of_ne_zero fun none_ => by
        rw [none_,Nat.zero_testBit,sign] at top
        cases top
      rw [if_pos rfl,if_pos rfl,toIntFromParts,negateValue some_,rows,signedTrue,← limbsPower]
      omega
  rw [limbsPower] at below
  refine sameBits fun i => ?_
  rw [whole,wrapBit below,op.integerBit,expandBit x fits,expandBit y fits']
  split
  · exact bits i
  · rfl

end BigIntValue

def widthOf (bits : Nat) : Nat := bits/32+if bits%32 = 0 then 0 else 1

def maskTop (bits : Nat) (out : List UInt32) : List UInt32 :=
  if bits%32 = 0 then out else out.modify (bits/32) (· &&& UInt32.ofNat (2^(bits%32)-1))

def truncateToBits (limbs : List UInt32) (bits : Nat) : List UInt32 := trim (maskTop bits (resized (widthOf bits) limbs))

def incrementLoop : List UInt32 → List UInt32
  | [] => []
  | limb :: rest => if limb+1 = 0 then 0 :: incrementLoop rest else (limb+1) :: rest

def complementWithinBits (limbs : List UInt32) (bits : Nat) : List UInt32 :=
  trim (maskTop bits (incrementLoop ((resized (widthOf bits) limbs).map fun limb => ~~~limb)))

theorem widthReach (bits) : 2^bits ∣ (2^32)^widthOf bits := by
  rw [limbsPower]
  refine Nat.pow_dvd_pow 2 ?_
  rw [widthOf]
  split <;> omega

theorem maskTopValue {bits out} (long : out.length = widthOf bits) : value (maskTop bits out) = value out%2^bits := by
  unfold maskTop
  rw [widthOf] at long
  have power : (2^32)^(bits/32)*2^(bits%32) = 2^bits := by rw [← Nat.pow_mul,← Nat.pow_add,Nat.div_add_mod]
  split
  · rename_i whole
    have below := valueLt out
    rw [if_pos whole,Nat.add_zero] at long
    rw [whole,Nat.pow_zero,Nat.mul_one,← long] at power
    rw [← power,Nat.mod_eq_of_lt below]
  · rename_i part
    rw [if_neg part] at long
    rcases List.eq_nil_or_concat out with none_ | ⟨low,top,last⟩
    · rw [none_] at long
      cases long
    · rw [List.concat_eq_append] at last
      subst last
      have short : low.length = bits/32 := by
        rw [List.length_append,List.length_singleton] at long
        omega
      have mask : (UInt32.ofNat (2^(bits%32)-1)).toNat = 2^(bits%32)-1 := by
        have small : 2^(bits%32) ≤ 2^32 := Nat.pow_le_pow_right (by decide) (Nat.le_of_lt (Nat.mod_lt _ (by decide)))
        rw [ofNatToNat,Nat.mod_eq_of_lt (by omega)]
      have low_ := valueLt low
      rw [short] at low_
      rw [← short,modifyLast,valueAppend,valueAppend,valueCons,valueCons,valueNil,Nat.mul_zero,Nat.add_zero,Nat.add_zero,UInt32.toNat_and,mask,
        Nat.and_two_pow_sub_one_eq_mod,short,← power,Nat.mod_mul,Nat.add_mul_mod_self_left,Nat.mod_eq_of_lt low_,
        Nat.add_mul_div_left _ _ (Nat.pow_pos (by decide)),Nat.div_eq_of_lt low_,Nat.zero_add]

theorem truncateValue (limbs bits) : value (truncateToBits limbs bits) = value limbs%2^bits := by
  rw [truncateToBits,valueTrim,maskTopValue (resizedLength _ _),resizedValue,Nat.mod_mod_of_dvd _ (widthReach bits)]

theorem incrementValue {limbs} (room : value limbs+1 < (2^32)^limbs.length) :
    value (incrementLoop limbs) = value limbs+1 ∧ (incrementLoop limbs).length = limbs.length := by
  induction limbs with
  | nil => exact absurd room (by decide)
  | cons limb rest ih =>
    have limb_ := limbLt limb
    have sum : (limb+1).toNat = (limb.toNat+1)%2^32 := UInt32.toNat_add limb 1
    rw [valueCons,List.length_cons,basePower] at room
    rw [incrementLoop]
    split
    · rename_i over_
      rw [over_,UInt32.toNat_zero] at sum
      obtain ⟨next,long⟩ := ih (by omega)
      rw [valueCons,valueCons,next,UInt32.toNat_zero,List.length_cons,List.length_cons,long]
      omega
    · rename_i fits
      have some_ : (limb+1).toNat ≠ 0 := fun zero => fits (UInt32.toNat_inj.mp (zero.trans UInt32.toNat_zero.symm))
      rw [valueCons,valueCons,List.length_cons,List.length_cons]
      omega

theorem notValue (limbs) : value (limbs.map fun limb => ~~~limb)+value limbs+1 = (2^32)^limbs.length := by
  induction limbs with
  | nil => rfl
  | cons limb rest ih =>
    have limb_ := limbLt limb
    rw [List.map_cons,valueCons,valueCons,notLimb,List.length_cons,basePower,← ih]
    omega

theorem complementValue {limbs bits} (some_ : 0 < value limbs) (small : value limbs < 2^bits) :
    value (complementWithinBits limbs bits) = 2^bits-value limbs := by
  obtain ⟨parts,whole⟩ := widthReach bits
  have reach : 2^bits ≤ (2^32)^widthOf bits := Nat.le_of_dvd (Nat.pow_pos (by decide)) (widthReach bits)
  have flipped := notValue (resized (widthOf bits) limbs)
  have long : ((resized (widthOf bits) limbs).map fun limb => ~~~limb).length = widthOf bits := by rw [List.length_map,resizedLength]
  rw [resizedValue,Nat.mod_eq_of_lt (Nat.lt_of_lt_of_le small reach),resizedLength] at flipped
  obtain ⟨next,same⟩ := @incrementValue ((resized (widthOf bits) limbs).map fun limb => ~~~limb) (by rw [long]; omega)
  obtain ⟨parts_,rfl⟩ : ∃ parts_, parts = parts_+1 := ⟨parts-1,(Nat.sub_add_cancel (Nat.one_le_iff_ne_zero.mpr fun none_ => by
    rw [none_,Nat.mul_zero] at whole
    omega)).symm⟩
  have rest : value (incrementLoop ((resized (widthOf bits) limbs).map fun limb => ~~~limb)) = 2^bits*parts_+(2^bits-value limbs) := by
    rw [Nat.mul_succ] at whole
    omega
  rw [complementWithinBits,valueTrim,maskTopValue (same.trans long),rest,Nat.mul_add_mod,Nat.mod_eq_of_lt (by omega)]

namespace BigIntValue
variable (x : BigIntValue)

def asUintN (bits : Nat) : BigIntValue :=
  if bits = 0 then zero
  else if (truncateToBits x.limbs bits).isEmpty then zero
  else if x.negative then fromParts false (complementWithinBits (truncateToBits x.limbs bits) bits)
  else fromParts false (truncateToBits x.limbs bits)

def asIntN (bits : Nat) : BigIntValue :=
  if x.negative && decide (x.bitLength < bits) then x
  else
    let residue := x.asUintN bits
    if bits = 0 ∨ residue.isZero then zero
    else if testBit residue.limbs (bits-1) then fromParts true (complementWithinBits residue.limbs bits)
    else residue

theorem asUintNInt (bits) : (x.asUintN bits).toInt = x.toInt%2^bits := by
  have cut := truncateValue x.limbs bits
  have trimmed_ : Trimmed (truncateToBits x.limbs bits) := trimTrimmed _
  have positive := Nat.two_pow_pos bits
  have below := Nat.mod_lt x.magnitude positive
  have power : (2 : Int)^bits = (2^bits : Nat) := (Nat.cast_pow 2 bits).symm
  unfold asUintN
  rw [power]
  split
  · rename_i none_
    rw [none_,toIntZeroValue,Nat.pow_zero,Nat.cast_one,Int.emod_one]
  · split
    · rename_i nothing
      have zero_ : x.magnitude%2^bits = 0 := by rw [magnitude,← cut,List.isEmpty_iff.mp nothing,valueNil]
      have whole : ((2^bits : Nat) : Int) ∣ x.toInt := by
        rw [← Int.dvd_natAbs,natAbs]
        exact Int.natCast_dvd_natCast.mpr (Nat.dvd_of_mod_eq_zero zero_)
      rw [toIntZeroValue,Int.emod_eq_zero_of_dvd whole]
    · rename_i some_
      have rest : 0 < value (truncateToBits x.limbs bits) :=
        Nat.pos_of_ne_zero fun zero_ => some_ (List.isEmpty_iff.mpr ((trimmedZero trimmed_).mp zero_))
      have split_ := Nat.div_add_mod x.magnitude (2^bits)
      have same : value (truncateToBits x.limbs bits) = x.magnitude%2^bits := cut
      split
      · rename_i sign
        rw [toIntFromParts,signedFalse,complementValue rest (by rw [same]; exact below),same,toInt,sign,signedTrue]
        have turned : -(x.magnitude : Int) = ((2^bits-x.magnitude%2^bits : Nat) : Int)+(2^bits : Nat)*(-((x.magnitude/2^bits : Nat) : Int)-1) := by
          rw [Int.mul_sub,Int.mul_neg,← Int.natCast_mul,mul_one]
          omega
        rw [turned,Int.add_mul_emod_self_left]
        exact (Int.emod_eq_of_lt (Int.natCast_nonneg _) (by omega)).symm
      · rename_i sign
        rw [toIntFromParts,signedFalse,same,x.magnitudeInt (Bool.eq_false_iff.mpr sign),Int.natCast_mod]

theorem highBit {r k : Nat} (below : r < 2^(k+1)) : r.testBit k = true ↔ 2^k ≤ r := by
  have bit := Nat.toNat_testBit r k
  have positive := Nat.two_pow_pos k
  rw [Nat.pow_succ'] at below
  have narrow : r/2^k < 2 := Nat.div_lt_of_lt_mul (by rwa [Nat.mul_comm] at below)
  rw [Nat.mod_eq_of_lt narrow] at bit
  rw [← Nat.one_le_div_iff positive,← bit]
  cases r.testBit k <;> decide

theorem asIntNInt (bits) : (x.asIntN bits).toInt = x.toInt.bmod (2^bits) := by
  have residue := x.asUintNInt bits
  unfold asIntN
  split
  · rename_i inside
    obtain ⟨sign,short⟩ := Bool.and_eq_true_iff.mp inside
    obtain ⟨k,rfl⟩ : ∃ k, bits = k+1 := ⟨bits-1,(Nat.sub_add_cancel (Nat.one_le_of_lt (of_decide_eq_true short))).symm⟩
    have reach : 2^x.bitLength ≤ 2^k := Nat.pow_le_pow_right (by decide) (Nat.lt_succ_iff.mp (of_decide_eq_true short))
    have below : x.magnitude < 2^k := Nat.lt_of_lt_of_le (bitLengthAbove x.limbs) reach
    refine ((Int.bmod_eq_iff (Nat.two_pow_pos (k+1))).mpr ⟨?_,?_,?_⟩).symm
    · rw [toInt,sign,signedTrue,Nat.pow_succ]
      omega
    · rw [toInt,sign,signedTrue]
      omega
    · rw [Int.sub_self]
      exact Int.dvd_zero _
  · dsimp only
    have power : (2 : Int)^bits = (2^bits : Nat) := (Nat.cast_pow 2 bits).symm
    rw [power] at residue
    split
    · rename_i trivial_
      rcases trivial_ with none_ | nothing
      · rw [none_,Nat.pow_zero,Int.bmod_one,toIntZeroValue]
      · rw [((x.asUintN bits).isZeroIff).mp nothing] at residue
        rw [toIntZeroValue,Int.bmod_eq_zero_of_dvd (Int.dvd_of_emod_eq_zero residue.symm)]
    · rename_i some_
      obtain ⟨real,rest⟩ := not_or.mp some_
      obtain ⟨k,rfl⟩ : ∃ k, bits = k+1 := ⟨bits-1,(Nat.sub_add_cancel (Nat.one_le_iff_ne_zero.mpr real)).symm⟩
      have positive : (0 : Int) < (2^(k+1) : Nat) := Int.natCast_pos.mpr (Nat.two_pow_pos _)
      have least := Int.emod_nonneg x.toInt positive.ne'
      have most := Int.emod_lt_of_pos x.toInt positive
      rw [← residue] at least most
      have count := (x.asUintN (k+1)).notNegative.mpr least
      have same := (x.asUintN (k+1)).magnitudeInt count
      have below : (x.asUintN (k+1)).magnitude < 2^(k+1) := by omega
      have some' : 0 < (x.asUintN (k+1)).magnitude := Nat.pos_of_ne_zero fun zero_ => rest (((x.asUintN (k+1)).isZeroIff).mpr (by rw [same,zero_]; rfl))
      have half : ((2^(k+1) : Nat) : Int) = 2*(2^k : Nat) := by rw [Nat.pow_succ,Int.natCast_mul,Int.mul_comm]; rfl
      rw [testBitValue,Nat.add_sub_cancel,Int.bmod_eq_emod,← residue,same]
      have bit := highBit below
      have whole : value (x.asUintN (k+1)).limbs = (x.asUintN (k+1)).magnitude := rfl
      split
      · rename_i high
        have high_ := bit.mp high
        rw [toIntFromParts,signedTrue,complementValue some' below,whole,if_pos (by rw [half]; omega)]
        omega
      · rename_i low
        have low_ : (x.asUintN (k+1)).magnitude < 2^k := Nat.not_le.mp fun reached => low (bit.mpr reached)
        rw [if_neg (by rw [half]; omega),same,Nat.cast_zero,Int.sub_zero]

end BigIntValue

end Bamts.BigInt
