import Bamts.Limbs

/-! The magnitudes of big integers: addition, subtraction, multiplication and shifts limb by limb. -/
set_option linter.all false
namespace Bamts.BigInt
open Limbs

def magCmp (a b : List UInt32) : Ordering := order a b

def padded : List UInt32 → List UInt32 → List (UInt32 × UInt32)
  | [], _ => []
  | x :: xs, ys => (x,ys.headD 0) :: padded xs ys.tail

def sumLimbs (p : UInt32 × UInt32) : Nat := p.1.toNat+p.2.toNat

def magAdd (a b : List UInt32) : List UInt32 :=
  let (long,short) := if b.length ≤ a.length then (a,b) else (b,a)
  close (carry (fun p c => sumLimbs p+c) 0 (padded long short))

theorem weighPadded {long short} (fits : short.length ≤ long.length) : weigh sumLimbs (padded long short) = value long+value short := by
  induction long generalizing short with
  | nil =>
    rw [List.length_eq_zero_iff.mp (Nat.le_zero.mp fits)]
    rfl
  | cons x xs ih =>
    have fits' : short.tail.length ≤ xs.length := by
      rw [List.length_tail]
      exact Nat.sub_le_of_le_add fits
    have head : weigh sumLimbs (padded (x :: xs) short) = sumLimbs (x,short.headD 0)+2^32*weigh sumLimbs (padded xs short.tail) := rfl
    rw [head,ih fits',valueCons,headTail short,sumLimbs]
    ring

theorem sumStep (p c) (small : c < 2) : sumLimbs p+c = sumLimbs p+c ∧ (sumLimbs p+c)/2^32 < 2 := by
  have first := limbLt p.1
  have second := limbLt p.2
  rw [sumLimbs]
  exact ⟨rfl,by omega⟩

@[simp] theorem magAddValue (a b) : value (magAdd a b) = value a+value b := by
  unfold magAdd
  split
  · rename_i same
    split at same
    · rename_i fits
      cases same
      rw [closeCarryValue sumStep (by decide) (by decide),weighPadded fits,Nat.add_zero]
    · rename_i less
      cases same
      rw [closeCarryValue sumStep (by decide) (by decide),weighPadded (by omega),Nat.add_zero,Nat.add_comm]

-- Two subtractions that may wrap: the other limb, then the borrow.
def subLoop : List UInt32 → List UInt32 → Bool → List UInt32
  | [], _, _ => []
  | limb :: rest, other, borrow =>
    let first := limb-other.headD 0
    let second := first-UInt32.ofNat borrow.toNat
    second :: subLoop rest other.tail (limb < other.headD 0 || first < UInt32.ofNat borrow.toNat)

theorem subLimb (x y) (borrow : Bool) :
    (x-y-UInt32.ofNat borrow.toNat).toNat+y.toNat+borrow.toNat =
    x.toNat+2^32*(x < y || x-y < UInt32.ofNat borrow.toNat : Bool).toNat := by
  have x_ := limbLt x
  have y_ := limbLt y
  have first : (x-y).toNat = (2^32-y.toNat+x.toNat)%2^32 := UInt32.toNat_sub x y
  have unit : (UInt32.ofNat borrow.toNat).toNat = borrow.toNat := by cases borrow <;> rfl
  have second : (x-y-UInt32.ofNat borrow.toNat).toNat = (2^32-borrow.toNat+(x-y).toNat)%2^32 := by rw [UInt32.toNat_sub,unit]
  have bit := Bool.toNat_le borrow
  by_cases under : x.toNat < y.toNat
  · rw [decide_eq_true (show x < y from under),Bool.true_or,Bool.toNat_true]
    omega
  · rw [decide_eq_false (show ¬x < y from under),Bool.false_or]
    by_cases under' : (x-y).toNat < borrow.toNat
    · rw [decide_eq_true (show x-y < UInt32.ofNat borrow.toNat by rw [UInt32.lt_iff_toNat_lt,unit]; exact under'),Bool.toNat_true]
      omega
    · rw [decide_eq_false (show ¬x-y < UInt32.ofNat borrow.toNat by rw [UInt32.lt_iff_toNat_lt,unit]; exact under'),Bool.toNat_false]
      omega

theorem subLoopValue {limbs other borrow} (enough : value other+borrow.toNat ≤ value limbs) :
    value (subLoop limbs other borrow)+(value other+borrow.toNat) = value limbs := by
  induction limbs generalizing other borrow with
  | nil =>
    rw [valueNil] at enough
    rw [subLoop,valueNil]
    omega
  | cons limb rest ih =>
    have parts := headTail other
    have one := subLimb limb (other.headD 0) borrow
    have small' := limbLt (limb-other.headD 0-UInt32.ofNat borrow.toNat)
    rw [valueCons,parts] at enough
    have next := @ih other.tail (limb < other.headD 0 || limb-other.headD 0 < UInt32.ofNat borrow.toNat) (by omega)
    rw [subLoop,valueCons,valueCons]
    omega

def magSub (a b : List UInt32) : List UInt32 := trim (subLoop a b false)

theorem magSubValue {a b} (enough : value b ≤ value a) : value (magSub a b) = value a-value b := by
  have parts := subLoopValue (show value b+Bool.toNat false ≤ value a from enough)
  rw [Bool.toNat_false,Nat.add_zero] at parts
  rw [magSub,valueTrim,← parts,Nat.add_sub_cancel]

def carryInto : List UInt32 → Nat → List UInt32
  | [], _ => []
  | limb :: rest, c => if c = 0 then limb :: rest else UInt32.ofNat (limb.toNat+c) :: carryInto rest ((limb.toNat+c)/2^32)

def mulRow (ai : UInt32) : List UInt32 → List UInt32 → Nat → List UInt32
  | out, [], c => carryInto out c
  | [], _ :: _, _ => []
  | o :: out, bj :: b, c =>
    UInt32.ofNat (o.toNat+ai.toNat*bj.toNat+c) :: mulRow ai out b ((o.toNat+ai.toNat*bj.toNat+c)/2^32)

def mulLoop : List UInt32 → List UInt32 → List UInt32 → List UInt32
  | [], _, out => out
  | ai :: a, b, out =>
    match mulRow ai out b 0 with
    | [] => []
    | o :: out => o :: mulLoop a b out

def magMul (a b : List UInt32) : List UInt32 :=
  if a.isEmpty || b.isEmpty then [] else trim (mulLoop a b (List.replicate (a.length+b.length) 0))

theorem carryIntoValue {limbs c} (fits : value limbs+c < (2^32)^limbs.length) :
    value (carryInto limbs c) = value limbs+c ∧ (carryInto limbs c).length = limbs.length := by
  induction limbs generalizing c with
  | nil =>
    rw [valueNil,List.length_nil,Nat.pow_zero] at fits
    rw [carryInto,valueNil]
    omega
  | cons limb rest ih =>
    rw [carryInto]
    split
    · rename_i none_
      rw [none_]
      exact ⟨rfl,rfl⟩
    · rw [valueCons,List.length_cons,basePower] at fits
      have next := @ih ((limb.toNat+c)/2^32) (by
        have total : 2^32*(value rest+(limb.toNat+c)/2^32) < 2^32*(2^32)^rest.length := by
          omega
        exact Nat.lt_of_mul_lt_mul_left total)
      rw [valueCons,valueCons,ofNatToNat,next.1,List.length_cons,List.length_cons,next.2]
      omega

theorem mulRowValue {ai out b c} (fits : value out+ai.toNat*value b+c < (2^32)^out.length)
    (long : b.length ≤ out.length) : value (mulRow ai out b c) = value out+ai.toNat*value b+c ∧ (mulRow ai out b c).length = out.length := by
  induction b generalizing out c with
  | nil =>
    rw [mulRow]
    exact carryIntoValue fits
  | cons bj b ih =>
    cases out with
    | nil => exact absurd long (Nat.not_succ_le_zero _)
    | cons o out =>
      have spread : ai.toNat*(bj.toNat+2^32*value b) = ai.toNat*bj.toNat+2^32*(ai.toNat*value b) := by ring
      rw [valueCons,valueCons,List.length_cons,basePower,spread] at fits
      have next := @ih out ((o.toNat+ai.toNat*bj.toNat+c)/2^32) (by
        have total : 2^32*(value out+ai.toNat*value b+(o.toNat+ai.toNat*bj.toNat+c)/2^32) < 2^32*(2^32)^out.length := by
          omega
        exact Nat.lt_of_mul_lt_mul_left total) (Nat.le_of_succ_le_succ long)
      rw [mulRow,valueCons,valueCons,valueCons,ofNatToNat,next.1,List.length_cons,List.length_cons,next.2,spread]
      omega

theorem mulLoopValue {a b out} (fits : value out+value a*value b < (2^32)^out.length) (long : a.length+b.length ≤ out.length) :
    value (mulLoop a b out) = value out+value a*value b := by
  induction a generalizing out with
  | nil => rw [mulLoop,valueNil,Nat.zero_mul,Nat.add_zero]
  | cons ai a ih =>
    have spread : (ai.toNat+2^32*value a)*value b = ai.toNat*value b+2^32*(value a*value b) := by ring
    rw [valueCons,spread] at fits
    rw [List.length_cons] at long
    have room : value out+ai.toNat*value b+0 < (2^32)^out.length := by omega
    obtain ⟨row,same⟩ := mulRowValue room (show b.length ≤ out.length by omega)
    rw [mulLoop,valueCons,spread]
    cases made : mulRow ai out b 0 with
    | nil =>
      rw [made,List.length_nil] at same
      omega
    | cons o rest =>
      rw [made,List.length_cons] at same
      rw [made,valueCons] at row
      rw [← same,basePower] at fits
      have next := @ih rest (by
        have total : 2^32*(value rest+value a*value b) < 2^32*(2^32)^rest.length := by
          omega
        exact Nat.lt_of_mul_lt_mul_left total) (by omega)
      rw [valueCons,next]
      omega

@[simp] theorem magMulValue (a b) : value (magMul a b) = value a*value b := by
  unfold magMul
  split
  · rename_i none_
    rcases Bool.or_eq_true_iff.mp none_ with first | second
    · rw [List.isEmpty_iff.mp first,valueNil,Nat.zero_mul]
    · rw [List.isEmpty_iff.mp second,valueNil,Nat.mul_zero]
  · have below : value a*value b < (2^32)^(a.length+b.length) := by
      rw [Nat.pow_add]
      exact Nat.mul_lt_mul'' (valueLt a) (valueLt b)
    have zeros := valueZeros (a.length+b.length)
    have long : (List.replicate (a.length+b.length) (0 : UInt32)).length = a.length+b.length := List.length_replicate
    rw [valueTrim,mulLoopValue (by rwa [zeros,Nat.zero_add,long]) long.ge,zeros,Nat.zero_add]

def magMulAddSmall (a : List UInt32) (factor add : UInt32) : List UInt32 :=
  trim (close (carry (fun limb c => limb.toNat*factor.toNat+c) add.toNat a))

@[simp] theorem magMulAddSmallValue (a factor add) :
    value (magMulAddSmall a factor add) = value a*factor.toNat+add.toNat := by
  rw [magMulAddSmall,valueTrim,closeCarryValue (scaleStep factor) (Nat.le_refl _) (limbLt add),weighLimbs]

def shlRow (bits : Nat) : Nat → List UInt32 → List UInt32 × Nat
  | c, [] => ([],c)
  | c, limb :: rest =>
    (UInt32.ofNat (limb.toNat <<< bits ||| c) :: (shlRow bits (limb.toNat >>> (32-bits)) rest).1,(shlRow bits (limb.toNat >>> (32-bits)) rest).2)

theorem shlRowCarry {bits c} (fits : bits ≤ 32) (small : c < 2^bits) (limbs) :
    shlRow bits c limbs = carry (fun (limb : UInt32) c => limb.toNat <<< bits ||| c) c limbs := by
  induction limbs generalizing c with
  | nil => rfl
  | cons limb rest ih =>
    obtain ⟨joins,below⟩ := shiftStep bits limb c small
    have moves : (limb.toNat <<< bits ||| c)/2^32 = limb.toNat >>> (32-bits) := by
      have power : 2^32 = 2^bits*2^(32-bits) := by rw [← Nat.pow_add,Nat.add_sub_cancel' fits]
      rw [joins,Nat.shiftRight_eq_div_pow,power,← Nat.div_div_eq_div_mul,Nat.mul_comm limb.toNat,Nat.mul_add_div (Nat.two_pow_pos _),
        Nat.div_eq_of_lt small,Nat.add_zero]
    rw [moves] at below
    rw [shlRow,carry,moves,ih below]

theorem shlRowValue {bits} (fits : bits ≤ 32) (limbs) :
    value (shlRow bits 0 limbs).1+(2^32)^limbs.length*(shlRow bits 0 limbs).2 = value limbs*2^bits ∧ (shlRow bits 0 limbs).2 < 2^bits ∧
    (shlRow bits 0 limbs).1.length = limbs.length := by
  rw [shlRowCarry fits (Nat.two_pow_pos bits)]
  obtain ⟨sums,below⟩ := carryValue (shiftStep bits) (Nat.two_pow_pos bits) limbs
  rw [weighLimbs,Nat.add_zero] at sums
  exact ⟨sums,below,carryLength _ _ _⟩

def magShlBits (a : List UInt32) (bits : Nat) : List UInt32 :=
  if a.isEmpty then [] else List.replicate (bits/32) 0 ++ if bits%32 = 0 then a else close (shlRow (bits%32) 0 a)

@[simp] theorem magShlBitsValue (a bits) : value (magShlBits a bits) = value a*2^bits := by
  have power : (2^32)^(bits/32)*2^(bits%32) = 2^bits := by rw [← Nat.pow_mul,← Nat.pow_add,Nat.div_add_mod]
  unfold magShlBits
  split
  · rename_i none_
    rw [List.isEmpty_iff.mp none_,valueNil,Nat.zero_mul]
  · rw [valueAppend,valueZeros,Nat.zero_add,List.length_replicate]
    split
    · rename_i whole
      rw [whole,Nat.pow_zero,Nat.mul_one] at power
      rw [power,Nat.mul_comm]
    · have fits : bits%32 ≤ 32 := Nat.le_of_lt (Nat.mod_lt _ (by decide))
      obtain ⟨sums,below,long⟩ := shlRowValue fits a
      have wide : 2^(bits%32) ≤ 2^32 := Nat.pow_le_pow_right (by decide) fits
      rw [closeValue (Nat.lt_of_lt_of_le below wide),long,sums,← power]
      ring

def shrRow (bits : Nat) : List UInt32 → List UInt32
  | [] => []
  | limb :: rest => UInt32.ofNat (limb.toNat >>> bits ||| (rest.headD 0).toNat <<< (32-bits)) :: shrRow bits rest

theorem shrRowValue {bits} (fits : bits ≤ 32) (limbs) : value (shrRow bits limbs) = value limbs/2^bits := by
  have power : 2^32 = 2^bits*2^(32-bits) := by rw [← Nat.pow_add,Nat.add_sub_cancel' fits]
  have positive : 0 < 2^bits := Nat.two_pow_pos bits
  induction limbs with
  | nil => exact (Nat.zero_div _).symm
  | cons limb rest ih =>
    have limb_ := limbLt limb
    have low : limb.toNat/2^bits < 2^(32-bits) := Nat.div_lt_of_lt_mul (by rwa [← power])
    have joins : limb.toNat >>> bits ||| (rest.headD 0).toNat <<< (32-bits) = (rest.headD 0).toNat*2^(32-bits)+limb.toNat/2^bits := by
      rw [Nat.shiftRight_eq_div_pow,Nat.or_comm,← Nat.shiftLeft_add_eq_or_of_lt low,Nat.shiftLeft_eq]
    have high : (rest.headD 0).toNat%2^bits = value rest%2^bits := by
      rw [headTail rest,power,Nat.mul_assoc,Nat.add_mul_mod_self_left]
    have cut : ((rest.headD 0).toNat*2^(32-bits)+limb.toNat/2^bits)%2^32 = value rest%2^bits*2^(32-bits)+limb.toNat/2^bits := by
      rw [← high]
      have parts := Nat.div_add_mod (rest.headD 0).toNat (2^bits)
      have split : (rest.headD 0).toNat*2^(32-bits)+limb.toNat/2^bits =
          (rest.headD 0).toNat%2^bits*2^(32-bits)+limb.toNat/2^bits+2^32*((rest.headD 0).toNat/2^bits) := by
        rw [power]
        calc (rest.headD 0).toNat*2^(32-bits)+limb.toNat/2^bits
            = (2^bits*((rest.headD 0).toNat/2^bits)+(rest.headD 0).toNat%2^bits)*2^(32-bits)+limb.toNat/2^bits := by rw [parts]
          _ = _ := by ring
      rw [split,Nat.add_mul_mod_self_left,Nat.mod_eq_of_lt]
      calc (rest.headD 0).toNat%2^bits*2^(32-bits)+limb.toNat/2^bits < ((rest.headD 0).toNat%2^bits+1)*2^(32-bits) := by
            rw [Nat.succ_mul]
            omega
        _ ≤ 2^bits*2^(32-bits) := Nat.mul_le_mul_right _ (Nat.mod_lt _ positive)
        _ = 2^32 := power.symm
    rw [shrRow,valueCons,valueCons,ofNatToNat,joins,cut,ih]
    have parts := Nat.div_add_mod (value rest) (2^bits)
    have split : limb.toNat+2^32*value rest = limb.toNat+2^bits*(2^(32-bits)*value rest) := by rw [power]; ring
    rw [split,Nat.add_mul_div_left _ _ positive]
    calc value rest%2^bits*2^(32-bits)+limb.toNat/2^bits+2^32*(value rest/2^bits)
        = limb.toNat/2^bits+2^(32-bits)*(2^bits*(value rest/2^bits)+value rest%2^bits) := by rw [power]; ring
      _ = _ := by rw [parts]

def magShrBits (a : List UInt32) (bits : Nat) : List UInt32 :=
  if a.length ≤ bits/32 then [] else trim (if bits%32 = 0 then a.drop (bits/32) else shrRow (bits%32) (a.drop (bits/32)))

@[simp] theorem magShrBitsValue (a bits) : value (magShrBits a bits) = value a/2^bits := by
  have power : (2^32)^(bits/32)*2^(bits%32) = 2^bits := by rw [← Nat.pow_mul,← Nat.pow_add,Nat.div_add_mod]
  have drops := valueDrop a (bits/32)
  unfold magShrBits
  split
  · rename_i short
    rw [valueNil,Nat.div_eq_of_lt]
    calc value a < (2^32)^a.length := valueLt a
      _ ≤ (2^32)^(bits/32) := Nat.pow_le_pow_right (by decide) short
      _ ≤ (2^32)^(bits/32)*2^(bits%32) := Nat.le_mul_of_pos_right _ (Nat.two_pow_pos _)
      _ = 2^bits := power
  · rw [valueTrim,← power,← Nat.div_div_eq_div_mul,← drops]
    split
    · rename_i whole
      rw [whole,Nat.pow_zero,Nat.div_one]
    · exact shrRowValue (Nat.le_of_lt (Nat.mod_lt _ (by decide))) _

end Bamts.BigInt
