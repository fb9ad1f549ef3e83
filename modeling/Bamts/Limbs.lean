import Mathlib.Data.Nat.Digits.Lemmas
import Mathlib.Data.List.DropRight
import Mathlib.Order.Compare
import Mathlib.Tactic.Ring
import Mathlib.Tactic.Linarith

/-! Natural numbers as little-endian rows of 32-bit limbs: the number a row stands for, rows without a
leading zero, and the loops that carry or borrow from one limb to the next. -/
set_option linter.all false
namespace Bamts.Limbs

def value (limbs : List UInt32) : Nat := Nat.ofDigits (2^32) (limbs.map UInt32.toNat)

@[simp] theorem valueNil : value [] = 0 := rfl

@[simp] theorem valueCons (limb rest) : value (limb :: rest) = limb.toNat + 2^32 * value rest := rfl

theorem valueAppend (low high) : value (low ++ high) = value low + (2^32)^low.length * value high := by
  rw [value,List.map_append,Nat.ofDigits_append,List.length_map]
  rfl

theorem valueZeros (n) : value (List.replicate n 0) = 0 := by
  rw [value,List.map_replicate]
  exact Nat.ofDigits_replicate_zero

theorem limbLt (limb : UInt32) : limb.toNat < 2^32 := limb.toNat_lt

theorem ofNatToNat (n : Nat) : (UInt32.ofNat n).toNat = n % 2^32 := UInt32.toNat_ofNat'

theorem basePower (n) : (2^32)^(n+1) = 2^32*(2^32)^n := Nat.pow_succ'

theorem valueLt (limbs) : value limbs < (2^32)^limbs.length := by
  have small := Nat.ofDigits_lt_base_pow_length (b := 2^32) (l := limbs.map UInt32.toNat) (by decide) fun digit among => by
    obtain ⟨limb,-,rfl⟩ := List.mem_map.mp among
    exact limbLt limb
  rwa [List.length_map] at small

theorem valueTake (limbs n) : value (limbs.take n) = value limbs % (2^32)^n := by
  by_cases short : n ≤ limbs.length
  · have parts := valueAppend (limbs.take n) (limbs.drop n)
    have low := valueLt (limbs.take n)
    rw [List.take_append_drop,List.length_take,Nat.min_eq_left short] at parts
    rw [List.length_take,Nat.min_eq_left short] at low
    rw [parts,Nat.add_mul_mod_self_left,Nat.mod_eq_of_lt low]
  · have long : limbs.length ≤ n := Nat.le_of_not_le short
    rw [List.take_of_length_le long,Nat.mod_eq_of_lt]
    exact Nat.lt_of_lt_of_le (valueLt limbs) (Nat.pow_le_pow_right (by decide) long)

theorem valueDrop (limbs n) : value (limbs.drop n) = value limbs / (2^32)^n := by
  by_cases short : n ≤ limbs.length
  · have parts := valueAppend (limbs.take n) (limbs.drop n)
    have low := valueLt (limbs.take n)
    rw [List.take_append_drop,List.length_take,Nat.min_eq_left short] at parts
    rw [List.length_take,Nat.min_eq_left short] at low
    rw [parts,Nat.add_mul_div_left _ _ (Nat.pow_pos (by decide)),Nat.div_eq_of_lt low,Nat.zero_add]
  · have long : limbs.length ≤ n := Nat.le_of_not_le short
    rw [List.drop_of_length_le long,Nat.div_eq_of_lt]
    · rfl
    · exact Nat.lt_of_lt_of_le (valueLt limbs) (Nat.pow_le_pow_right (by decide) long)

def Trimmed (limbs : List UInt32) : Prop := limbs.getLast? ≠ some 0

instance (limbs : List UInt32) : Decidable (Trimmed limbs) := inferInstanceAs (Decidable (_ ≠ _))

theorem trimmedNil : Trimmed [] := fun same => by cases same

theorem trimmedDigits {limbs} (trimmed : Trimmed limbs) : Nat.digits (2^32) (value limbs) = limbs.map UInt32.toNat := by
  refine Nat.digits_ofDigits _ (by decide) _ ?_ ?_
  · intro digit among
    obtain ⟨limb,-,rfl⟩ := List.mem_map.mp among
    exact limbLt limb
  · intro some_ zero
    have some' : limbs ≠ [] := fun none_ => some_ (by rw [none_]; rfl)
    rw [List.getLast_map] at zero
    refine trimmed ?_
    rw [List.getLast?_eq_some_getLast some',UInt32.toNat_inj.mp (zero.trans UInt32.toNat_zero.symm)]

theorem trimmedUnique {a b} (first : Trimmed a) (second : Trimmed b) (same : value a = value b) : a = b := by
  have digits := (trimmedDigits first).symm.trans ((congrArg _ same).trans (trimmedDigits second))
  exact List.map_injective_iff.mpr (fun _ _ => UInt32.toNat_inj.mp) digits

theorem trimmedIff {limbs} : Trimmed limbs ↔ limbs = [] ∨ (2^32)^(limbs.length-1) ≤ value limbs := by
  rcases List.eq_nil_or_concat limbs with none_ | ⟨low,top,last⟩
  · rw [none_]
    exact ⟨fun _ => .inl rfl,fun _ => trimmedNil⟩
  · rw [List.concat_eq_append] at last
    subst last
    have parts := valueAppend low [top]
    have below := valueLt low
    rw [valueCons,valueNil,Nat.mul_zero,Nat.add_zero] at parts
    rw [Trimmed,List.getLast?_concat,List.length_append,List.length_singleton,Nat.add_sub_cancel,parts]
    constructor
    · intro real
      have positive : 1 ≤ top.toNat := Nat.one_le_iff_ne_zero.mpr fun zero => real (by rw [UInt32.toNat_inj.mp (zero.trans UInt32.toNat_zero.symm)])
      exact .inr (Nat.le_add_left_of_le (Nat.le_mul_of_pos_right _ positive))
    · rintro (none_ | large) zero
      · exact absurd (List.append_eq_nil_iff.mp none_).2 (List.cons_ne_nil _ _)
      · rw [Option.some.inj zero,UInt32.toNat_zero,Nat.mul_zero,Nat.add_zero] at large
        exact absurd below (Nat.not_lt.mpr large)

theorem trimmedZero {limbs} (trimmed : Trimmed limbs) : value limbs = 0 ↔ limbs = [] := by
  constructor
  · exact fun zero => trimmedUnique trimmed trimmedNil zero
  · rintro rfl
    rfl

def trim (limbs : List UInt32) : List UInt32 := limbs.rdropWhile (· == 0)

theorem trimTrimmed (limbs) : Trimmed (trim limbs) := by
  intro zero
  have some_ : trim limbs ≠ [] := fun none_ => by rw [none_] at zero; cases zero
  rw [List.getLast?_eq_some_getLast some_] at zero
  exact List.rdropWhile_last_not _ _ some_ (beq_iff_eq.mpr (Option.some.inj zero))

@[simp] theorem valueTrim (limbs) : value (trim limbs) = value limbs := by
  induction limbs using List.reverseRecOn with
  | nil => rfl
  | append_singleton low top ih =>
    rw [trim,List.rdropWhile_concat]
    split
    · rename_i zero
      rw [valueAppend,valueCons,beq_iff_eq.mp zero]
      simpa [trim] using ih
    · rfl

section Carry
variable {α : Type} (f : α → Nat → Nat)

def carry : Nat → List α → List UInt32 × Nat
  | c, [] => ([],c)
  | c, x :: rest => (UInt32.ofNat (f x c) :: (carry (f x c / 2^32) rest).1,(carry (f x c / 2^32) rest).2)

theorem carryLength (c xs) : (carry f c xs).1.length = xs.length := by
  induction xs generalizing c with
  | nil => rfl
  | cons x rest ih => exact congrArg Nat.succ (ih _)

variable {f}

def weigh (g : α → Nat) (xs : List α) : Nat := Nat.ofDigits (2^32) (xs.map g)

theorem carryValue {g bound} (step : ∀ x c, c < bound → f x c = g x + c ∧ f x c / 2^32 < bound) {c} (small : c < bound)
    (xs) : value (carry f c xs).1 + (2^32)^xs.length * (carry f c xs).2 = weigh g xs + c ∧ (carry f c xs).2 < bound := by
  induction xs generalizing c with
  | nil =>
    refine ⟨?_,small⟩
    rw [carry,valueNil,List.length_nil,Nat.pow_zero,Nat.one_mul]
    rfl
  | cons x rest ih =>
    obtain ⟨adds,keeps⟩ := step x c small
    obtain ⟨sums,below⟩ := ih keeps
    refine ⟨?_,below⟩
    have parts := Nat.mod_add_div (f x c) (2^32)
    calc f x c % 2^32 + 2^32 * value (carry f (f x c / 2^32) rest).1 + (2^32)^rest.length * 2^32 * (carry f (f x c / 2^32) rest).2
        = f x c % 2^32 + 2^32 * (value (carry f (f x c / 2^32) rest).1 + (2^32)^rest.length * (carry f (f x c / 2^32) rest).2) := by ring
      _ = f x c % 2^32 + 2^32 * (weigh g rest + f x c / 2^32) := by rw [sums]
      _ = g x + 2^32 * weigh g rest + c := by
        rw [Nat.mul_add,← Nat.add_assoc,Nat.add_right_comm,parts,adds]
        ring

theorem weighLimbs (limbs k) : weigh (fun limb : UInt32 => limb.toNat * k) limbs = value limbs * k := by
  induction limbs with
  | nil => exact (Nat.zero_mul k).symm
  | cons limb rest ih =>
    have head : weigh (fun limb : UInt32 => limb.toNat * k) (limb :: rest) = limb.toNat * k + 2^32 * weigh (fun limb : UInt32 => limb.toNat * k) rest := rfl
    rw [head,ih,valueCons]
    ring

theorem scaleStep (factor limb : UInt32) (c) (small : c < 2^32) :
    limb.toNat*factor.toNat+c = limb.toNat*factor.toNat+c ∧ (limb.toNat*factor.toNat+c)/2^32 < 2^32 := by
  have limb_ := limbLt limb
  have factor_ := limbLt factor
  refine ⟨rfl,Nat.div_lt_of_lt_mul ?_⟩
  calc limb.toNat*factor.toNat+c ≤ (2^32-1)*(2^32-1)+(2^32-1) := Nat.add_le_add (Nat.mul_le_mul (by omega) (by omega)) (by omega)
    _ < 2^32*2^32 := by decide

theorem shiftStep (bits) (limb : UInt32) (c) (small : c < 2^bits) :
    limb.toNat <<< bits ||| c = limb.toNat*2^bits+c ∧ (limb.toNat <<< bits ||| c)/2^32 < 2^bits := by
  have limb_ := limbLt limb
  have joins : limb.toNat <<< bits ||| c = limb.toNat*2^bits+c := by
    rw [← Nat.shiftLeft_add_eq_or_of_lt small,Nat.shiftLeft_eq]
  refine ⟨joins,?_⟩
  rw [joins]
  refine Nat.div_lt_of_lt_mul ?_
  calc limb.toNat*2^bits+c < (limb.toNat+1)*2^bits := by rw [Nat.succ_mul]; omega
    _ ≤ 2^32*2^bits := Nat.mul_le_mul_right _ limb_

end Carry

def close (result : List UInt32 × Nat) : List UInt32 := if result.2 = 0 then result.1 else result.1 ++ [UInt32.ofNat result.2]

theorem closeValue {result} (small : result.2 < 2^32) : value (close result) = value result.1 + (2^32)^result.1.length * result.2 := by
  unfold close
  split
  · rename_i none_
    rw [none_,Nat.mul_zero,Nat.add_zero]
  · rw [valueAppend,valueCons,valueNil,ofNatToNat,Nat.mod_eq_of_lt small,Nat.mul_zero,Nat.add_zero]

theorem closeTrimmed {result} (small : result.2 < 2^32)
    (large : result.1 = [] ∨ (2^32)^(result.1.length-1) ≤ value result.1 + (2^32)^result.1.length * result.2) : Trimmed (close result) := by
  rw [trimmedIff,closeValue small]
  unfold close
  split
  · exact large
  · rename_i some_
    right
    rw [List.length_append,List.length_singleton,Nat.add_sub_cancel]
    exact Nat.le_add_left_of_le (Nat.le_mul_of_pos_right _ (Nat.pos_of_ne_zero some_))

section CloseCarry
variable {α : Type} {f : α → Nat → Nat} {g : α → Nat} {bound c : Nat} {xs : List α}

theorem closeCarryValue (step : ∀ x c, c < bound → f x c = g x + c ∧ f x c / 2^32 < bound) (fits : bound ≤ 2^32) (small : c < bound) :
    value (close (carry f c xs)) = weigh g xs + c := by
  obtain ⟨sums,below⟩ := carryValue step small xs
  rw [closeValue (Nat.lt_of_lt_of_le below fits),carryLength,sums]

theorem closeCarryTrimmed (step : ∀ x c, c < bound → f x c = g x + c ∧ f x c / 2^32 < bound) (fits : bound ≤ 2^32) (small : c < bound)
    (large : xs = [] ∨ (2^32)^(xs.length-1) ≤ weigh g xs + c) : Trimmed (close (carry f c xs)) := by
  obtain ⟨sums,below⟩ := carryValue step small xs
  refine closeTrimmed (Nat.lt_of_lt_of_le below fits) ?_
  rw [carryLength,sums]
  refine large.imp_left fun none_ => ?_
  rw [none_]
  rfl

theorem closeCons (limb result) : close (limb :: result.1,result.2) = limb :: close result := by
  unfold close
  split <;> rfl

end CloseCarry

def orderTop : List UInt32 → List UInt32 → Ordering
  | x :: xs, y :: ys => (orderTop xs ys).then (compare x.toNat y.toNat)
  | _, _ => .eq

def order (a b : List UInt32) : Ordering := (compare a.length b.length).then (orderTop a b)

theorem orderTopValue {a b} (long : a.length = b.length) : orderTop a b = compare (value a) (value b) := by
  induction a generalizing b with
  | nil =>
    cases b with
    | nil => rfl
    | cons y ys => cases long
  | cons x xs ih =>
    cases b with
    | nil => cases long
    | cons y ys =>
      have small := limbLt x
      have small' := limbLt y
      rw [orderTop,ih (Nat.succ.inj long),valueCons,valueCons]
      rcases lt_trichotomy (value xs) (value ys) with below | same | above
      · have less : x.toNat + 2^32*value xs < y.toNat + 2^32*value ys := by omega
        rw [compare_lt_iff_lt.mpr below,compare_lt_iff_lt.mpr less]
        rfl
      · rw [same,compare_eq_iff_eq.mpr rfl]
        rcases lt_trichotomy x.toNat y.toNat with below | same' | above
        · rw [compare_lt_iff_lt.mpr below,compare_lt_iff_lt.mpr (Nat.add_lt_add_right below _)]
          rfl
        · rw [same',compare_eq_iff_eq.mpr rfl,compare_eq_iff_eq.mpr rfl]
          rfl
        · rw [compare_gt_iff_gt.mpr above,compare_gt_iff_gt.mpr (Nat.add_lt_add_right above _)]
          rfl
      · have more : y.toNat + 2^32*value ys < x.toNat + 2^32*value xs := by omega
        rw [compare_gt_iff_gt.mpr above,compare_gt_iff_gt.mpr more]
        rfl

theorem longerAbove {a b} (trimmed : Trimmed b) (shorter : a.length < b.length) : value a < value b := by
  rcases trimmedIff.mp trimmed with none_ | large
  · rw [none_] at shorter
    exact absurd shorter (Nat.not_lt_zero _)
  · calc value a < (2^32)^a.length := valueLt a
      _ ≤ (2^32)^(b.length-1) := Nat.pow_le_pow_right (by decide) (by omega)
      _ ≤ value b := large

theorem orderValue {a b} (first : Trimmed a) (second : Trimmed b) : order a b = compare (value a) (value b) := by
  unfold order
  rcases lt_trichotomy a.length b.length with below | same | above
  · rw [compare_lt_iff_lt.mpr below,compare_lt_iff_lt.mpr (longerAbove second below)]
    rfl
  · rw [compare_eq_iff_eq.mpr same,orderTopValue same]
    rfl
  · rw [compare_gt_iff_gt.mpr above,compare_gt_iff_gt.mpr (longerAbove first above)]
    rfl

theorem headTail (limbs) : value limbs = (limbs.headD 0).toNat + 2^32 * value limbs.tail := by
  cases limbs with
  | nil => rfl
  | cons limb rest => rfl

def divSmall (d : Nat) : List UInt32 → List UInt32 × Nat
  | [] => ([],0)
  | limb :: rest =>
    (UInt32.ofNat (((divSmall d rest).2*2^32+limb.toNat)/d) :: (divSmall d rest).1,((divSmall d rest).2*2^32+limb.toNat)%d)

theorem divSmallValue {d} (positive : 0 < d) (limbs) :
    value limbs = d * value (divSmall d limbs).1 + (divSmall d limbs).2 ∧ (divSmall d limbs).2 < d := by
  induction limbs with
  | nil => exact ⟨rfl,positive⟩
  | cons limb rest ih =>
    obtain ⟨parts,below⟩ := ih
    refine ⟨?_,Nat.mod_lt _ positive⟩
    have small := limbLt limb
    have fits : ((divSmall d rest).2*2^32+limb.toNat)/d < 2^32 := Nat.div_lt_of_lt_mul (by
      calc (divSmall d rest).2*2^32+limb.toNat < ((divSmall d rest).2+1)*2^32 := by omega
        _ ≤ d*2^32 := Nat.mul_le_mul_right _ below)
    have split := Nat.div_add_mod ((divSmall d rest).2*2^32+limb.toNat) d
    rw [divSmall,valueCons,valueCons,ofNatToNat,Nat.mod_eq_of_lt fits]
    calc limb.toNat + 2^32*value rest
        = 2^32*(d*value (divSmall d rest).1) + ((divSmall d rest).2*2^32+limb.toNat) := by
          rw [parts]
          ring
      _ = d*(((divSmall d rest).2*2^32+limb.toNat)/d + 2^32*value (divSmall d rest).1) + ((divSmall d rest).2*2^32+limb.toNat)%d := by
          rw [Nat.mul_add,Nat.add_right_comm,split]
          ring

theorem divSmallLength (d limbs) : (divSmall d limbs).1.length = limbs.length := by
  induction limbs with
  | nil => rfl
  | cons limb rest ih => exact congrArg Nat.succ ih

theorem divSmallDiv {d} (positive : 0 < d) (limbs) : value (divSmall d limbs).1 = value limbs/d := by
  obtain ⟨parts,below⟩ := divSmallValue positive limbs
  rw [parts,Nat.mul_add_div positive,Nat.div_eq_of_lt below,Nat.add_zero]

theorem divSmallMod {d} (positive : 0 < d) (limbs) : (divSmall d limbs).2 = value limbs%d := by
  obtain ⟨parts,below⟩ := divSmallValue positive limbs
  rw [parts,Nat.mul_add_mod,Nat.mod_eq_of_lt below]

theorem modifyLast {α : Type} (f : α → α) (low top) : (low ++ [top]).modify low.length f = low ++ [f top] := by
  induction low with
  | nil => rfl
  | cons x rest ih => exact congrArg (List.cons x) ih

theorem limbAt (limbs n) : (limbs[n]?.getD 0).toNat = value limbs / (2^32)^n % 2^32 := by
  rw [← valueDrop,headTail,Nat.add_mul_mod_self_left,Nat.mod_eq_of_lt (limbLt _),List.headD_eq_head?_getD,List.head?_drop]

def testBit (limbs : List UInt32) (index : Nat) : Bool := limbs[index/32]?.any fun limb => limb.toNat.testBit (index%32)

theorem testBitValue (limbs index) : testBit limbs index = (value limbs).testBit index := by
  have found := limbAt limbs (index/32)
  have bit : (value limbs).testBit index = (limbs[index/32]?.getD 0).toNat.testBit (index%32) := by
    rw [found,Nat.testBit_mod_two_pow,← Nat.pow_mul,Nat.testBit_div_two_pow,decide_eq_true (Nat.mod_lt _ (by decide)),Bool.true_and]
    congr 1
    omega
  rw [bit,testBit]
  cases limbs[index/32]? with
  | none => exact (Nat.zero_testBit _).symm
  | some limb => rfl

def bitLength (limbs : List UInt32) : Nat :=
  match limbs.getLast? with
  | none => 0
  | some top => (limbs.length-1)*32 + if top = 0 then 0 else Nat.log2 top.toNat+1

theorem bitLengthAbove (limbs) : value limbs < 2^bitLength limbs := by
  rcases List.eq_nil_or_concat limbs with none_ | ⟨low,top,last⟩
  · rw [none_]
    decide
  · rw [List.concat_eq_append] at last
    subst last
    have top_ : top.toNat < 2^(if top = 0 then 0 else Nat.log2 top.toNat+1) := by
      split
      · rename_i zero
        rw [zero]
        decide
      · exact Nat.lt_log2_self
    have low_ := valueLt low
    rw [← Nat.pow_mul,Nat.mul_comm 32] at low_
    rw [bitLength,List.getLast?_concat,valueAppend,valueCons,valueNil,List.length_append,List.length_singleton,Nat.add_sub_cancel]
    simp only [← Nat.pow_mul,Nat.mul_comm 32,Nat.mul_zero,Nat.add_zero,Nat.pow_add]
    calc value low + 2^(low.length*32) * top.toNat < 2^(low.length*32) * (top.toNat+1) := by
          rw [Nat.mul_succ,Nat.add_comm]
          exact Nat.add_lt_add_left low_ _
      _ ≤ _ := Nat.mul_le_mul_left _ top_

theorem bitLengthBelow {limbs} (trimmed : Trimmed limbs) (some_ : limbs ≠ []) : 2^(bitLength limbs-1) ≤ value limbs ∧ 0 < bitLength limbs := by
  rcases List.eq_nil_or_concat limbs with none_ | ⟨low,top,last⟩
  · exact absurd none_ some_
  · rw [List.concat_eq_append] at last
    subst last
    have real : top ≠ 0 := fun zero => trimmed (by rw [List.getLast?_concat,zero])
    have positive : top.toNat ≠ 0 := fun zero => real (UInt32.toNat_inj.mp (zero.trans UInt32.toNat_zero.symm))
    rw [bitLength,List.getLast?_concat,valueAppend,valueCons,valueNil,List.length_append,List.length_singleton,Nat.add_sub_cancel]
    simp only [if_neg real,← Nat.pow_mul,Nat.mul_comm 32,Nat.mul_zero,Nat.add_zero]
    refine ⟨?_,by omega⟩
    rw [← Nat.add_assoc,Nat.add_sub_cancel,Nat.pow_add]
    exact Nat.le_add_left_of_le (Nat.mul_le_mul_left _ (Nat.log2_self_le positive))

end Bamts.Limbs
