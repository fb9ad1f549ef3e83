import Bamts.Limbs
import Bamts.Numeral
import Bamts.RuntimeNumber

/-! The unsigned integers behind number formatting, with the arithmetic and the division by shifting
and subtracting as the formatter has them. -/
set_option linter.all false
namespace Bamts.NumberFormat
open Limbs Numeral

structure Big where
  limbs : List UInt32
  trimmed : Trimmed limbs

namespace Big

def value (b : Big) : Nat := Limbs.value b.limbs

def zero : Big := ⟨[],trimmedNil⟩

def one : Big := ⟨[1],by decide⟩

@[simp] theorem valueZero : zero.value = 0 := rfl

@[simp] theorem valueOne : one.value = 1 := rfl

def normalize (limbs : List UInt32) : Big := ⟨trim limbs,trimTrimmed limbs⟩

@[simp] theorem valueNormalize (limbs) : (normalize limbs).value = Limbs.value limbs := valueTrim limbs

theorem fromHigh (low) {high} (some_ : high ≠ 0) : Trimmed [low,high] := fun zero => some_ (Option.some.inj zero)

theorem fromLow {low} (some_ : low ≠ 0) : Trimmed [low] := fun zero => some_ (Option.some.inj zero)

def fromU64 (n : Nat) : Big :=
  if high : UInt32.ofNat (n/2^32) ≠ 0 then ⟨[UInt32.ofNat n,UInt32.ofNat (n/2^32)],fromHigh _ high⟩
  else if low : UInt32.ofNat n ≠ 0 then ⟨[UInt32.ofNat n],fromLow low⟩
  else zero

theorem valueFromU64 {n} (small : n < 2^64) : (fromU64 n).value = n := by
  have low := ofNatToNat n
  have high := ofNatToNat (n/2^32)
  unfold fromU64
  split
  · rw [value,Limbs.valueCons,Limbs.valueCons,Limbs.valueNil,low,high]
    omega
  · rename_i none_
    rw [not_not.mp none_,UInt32.toNat_zero] at high
    split
    · rw [value,Limbs.valueCons,Limbs.valueNil,low]
      omega
    · rename_i none_'
      rw [not_not.mp none_',UInt32.toNat_zero] at low
      rw [valueZero]
      omega

def isZero (b : Big) : Bool := b.limbs.isEmpty

theorem isZeroIff (b : Big) : b.isZero = true ↔ b.value = 0 := by rw [isZero,List.isEmpty_iff,value,trimmedZero b.trimmed]

def cmp (a b : Big) : Ordering := order a.limbs b.limbs

theorem cmpValue (a b) : cmp a b = compare a.value b.value := orderValue a.trimmed b.trimmed

theorem cmpLess (a b) : cmp a b ≠ .lt ↔ b.value ≤ a.value := by
  rw [cmpValue,Ne,compare_lt_iff_lt,Nat.not_lt]

theorem lengthBound (b : Big) : b.limbs = [] ∨ (2^32)^(b.limbs.length-1) ≤ b.value := trimmedIff.mp b.trimmed

def addLoop : List UInt32 → Nat → List UInt32
  | [], c => if c = 0 then [] else [UInt32.ofNat c]
  | limb :: rest, c => if c = 0 then limb :: rest else UInt32.ofNat (limb.toNat+c) :: addLoop rest ((limb.toNat+c)/2^32)

theorem addNothing (limbs) : carry (fun (limb : UInt32) c => limb.toNat+c) 0 limbs = (limbs,0) := by
  induction limbs with
  | nil => rfl
  | cons limb rest ih =>
    have none_ : (limb.toNat+0)/2^32 = 0 := Nat.div_eq_of_lt (limbLt limb)
    rw [carry,none_,ih,Nat.add_zero,UInt32.ofNat_toNat]

theorem addLoopCarry (limbs c) : addLoop limbs c = close (carry (fun (limb : UInt32) c => limb.toNat+c) c limbs) := by
  induction limbs generalizing c with
  | nil =>
    rfl
  | cons limb rest ih =>
    rw [addLoop]
    split
    · rename_i none_
      rw [none_,addNothing,close,if_pos rfl]
    · rw [carry,closeCons,ih]

theorem addStep (limb : UInt32) (c) (small : c < 2^32) : limb.toNat+c = limb.toNat+c ∧ (limb.toNat+c)/2^32 < 2^32 := by
  have limb_ := limbLt limb
  exact ⟨rfl,by omega⟩

def addSmall (b : Big) (v : UInt32) : Big := ⟨addLoop b.limbs v.toNat,by
  rw [addLoopCarry]
  exact closeCarryTrimmed addStep (Nat.le_refl _) (limbLt v) (b.lengthBound.imp_right (Nat.le_add_right_of_le ·))⟩

@[simp] theorem valueAddSmall (b v) : (addSmall b v).value = b.value+v.toNat := by
  have loop : (addSmall b v).value = Limbs.value (addLoop b.limbs v.toNat) := rfl
  rw [loop,addLoopCarry]
  exact closeCarryValue addStep (Nat.le_refl _) (limbLt v)

def mulSmall (b : Big) (v : UInt32) : Big :=
  if none_ : v.toNat = 0 then zero
  else ⟨close (carry (fun limb c => limb.toNat*v.toNat+c) 0 b.limbs),by
    refine closeCarryTrimmed (scaleStep v) (Nat.le_refl _) (by decide) (b.lengthBound.imp_right fun large => ?_)
    rw [weighLimbs,Nat.add_zero]
    exact Nat.le_trans large (Nat.le_mul_of_pos_right _ (Nat.pos_of_ne_zero none_))⟩

@[simp] theorem valueMulSmall (b v) : (mulSmall b v).value = b.value*v.toNat := by
  unfold mulSmall
  split
  · rename_i none_
    rw [none_,Nat.mul_zero,valueZero]
  · rw [value,closeCarryValue (scaleStep v) (Nat.le_refl _) (by decide),weighLimbs,Nat.add_zero]
    rfl

def mulPow10 (b : Big) : Nat → Big
  | 0 => b
  | exponent+1 => mulPow10 (mulSmall b 10) exponent

@[simp] theorem valueMulPow10 (b exponent) : (mulPow10 b exponent).value = b.value*10^exponent := by
  induction exponent generalizing b with
  | zero => rw [mulPow10,Nat.pow_zero,Nat.mul_one]
  | succ exponent ih =>
    rw [mulPow10,ih,valueMulSmall,Nat.pow_succ',Nat.mul_assoc]
    rfl

def shiftLoop (limbs : List UInt32) (count : Nat) : List UInt32 :=
  let placed := List.replicate (count/32) 0 ++ limbs
  if count%32 = 0 then placed else close (carry (fun limb c => limb.toNat <<< (count%32) ||| c) 0 placed)

theorem valuePlaced (limbs words) : Limbs.value (List.replicate words 0 ++ limbs) = (2^32)^words*Limbs.value limbs := by
  rw [valueAppend,valueZeros,Nat.zero_add,List.length_replicate]

theorem shiftLoopValue (limbs count) : Limbs.value (shiftLoop limbs count) = Limbs.value limbs*2^count := by
  have power : (2^32)^(count/32)*2^(count%32) = 2^count := by rw [← Nat.pow_mul,← Nat.pow_add,Nat.div_add_mod]
  simp only [shiftLoop]
  split
  · rename_i whole
    rw [whole,Nat.pow_zero,Nat.mul_one] at power
    rw [valuePlaced,power,Nat.mul_comm]
  · have fits : 2^(count%32) ≤ 2^32 := Nat.pow_le_pow_right (by decide) (Nat.le_of_lt (Nat.mod_lt _ (by decide)))
    rw [closeCarryValue (shiftStep (count%32)) fits (Nat.two_pow_pos _),weighLimbs,Nat.add_zero,valuePlaced,← power]
    ring

theorem shiftLoopTrimmed (b : Big) (some_ : b.limbs ≠ []) (count) : Trimmed (shiftLoop b.limbs count) := by
  have large := b.lengthBound.resolve_left some_
  have long : 1 ≤ b.limbs.length := List.length_pos_of_ne_nil some_
  have placed : (2^32)^(count/32+b.limbs.length-1) ≤ Limbs.value (List.replicate (count/32) 0 ++ b.limbs) := by
    rw [valuePlaced,Nat.add_sub_assoc long,Nat.pow_add]
    exact Nat.mul_le_mul_left _ large
  simp only [shiftLoop]
  split
  · rw [trimmedIff,List.length_append,List.length_replicate]
    exact .inr placed
  · have fits : 2^(count%32) ≤ 2^32 := Nat.pow_le_pow_right (by decide) (Nat.le_of_lt (Nat.mod_lt _ (by decide)))
    refine closeCarryTrimmed (shiftStep (count%32)) fits (Nat.two_pow_pos _) (.inr ?_)
    rw [List.length_append,List.length_replicate,weighLimbs,Nat.add_zero]
    exact Nat.le_trans placed (Nat.le_mul_of_pos_right _ (Nat.two_pow_pos _))

def shlBits (b : Big) (count : Nat) : Big :=
  if still : b.limbs = [] ∨ count = 0 then b
  else ⟨shiftLoop b.limbs count,shiftLoopTrimmed b (not_or.mp still).1 count⟩

@[simp] theorem valueShlBits (b count) : (shlBits b count).value = b.value*2^count := by
  unfold shlBits
  split
  · rename_i still
    rcases still with none_ | nowhere
    · have nothing : b.value = 0 := (trimmedZero b.trimmed).mpr none_
      rw [nothing,Nat.zero_mul]
    · rw [nowhere,Nat.pow_zero,Nat.mul_one]
  · exact shiftLoopValue b.limbs count

def shlOne (b : Big) : Big := shlBits b 1

@[simp] theorem valueShlOne (b) : (shlOne b).value = b.value*2 := by rw [shlOne,valueShlBits,Nat.pow_one]

def bitLength (b : Big) : Nat := Limbs.bitLength b.limbs

def bit (b : Big) (index : Nat) : Bool := Limbs.testBit b.limbs index

theorem bitValue (b index) : bit b index = b.value.testBit index := testBitValue b.limbs index

def setLoop (limbs : List UInt32) (index : Nat) : List UInt32 :=
  let resized : List UInt32 := limbs.take (index/32+1) ++ List.replicate (index/32+1-limbs.length) 0
  resized.modify (index/32) fun limb => UInt32.ofNat (limb.toNat ||| 2^(index%32))

theorem resizedParts (limbs : List UInt32) (word) :
    limbs.take (word+1) ++ List.replicate (word+1-limbs.length) 0 =
    limbs.take word ++ List.replicate (word-limbs.length) 0 ++ [limbs[word]?.getD 0] := by
  rcases Nat.lt_or_ge word limbs.length with inside | outside
  · rw [List.take_succ_eq_append_getElem inside,List.getElem?_eq_getElem inside,Option.getD_some,Nat.sub_eq_zero_of_le inside,
      Nat.sub_eq_zero_of_le (Nat.le_of_lt inside),List.replicate_zero,List.append_nil,List.append_nil]
  · rw [List.take_of_length_le outside,List.take_of_length_le (Nat.le_succ_of_le outside),List.getElem?_eq_none outside,Option.getD_none,
      Nat.succ_sub outside,List.replicate_succ',List.append_assoc]

theorem setLoopParts (limbs index) : setLoop limbs index =
    limbs.take (index/32) ++ List.replicate (index/32-limbs.length) 0 ++
      [UInt32.ofNat ((limbs[index/32]?.getD 0).toNat ||| 2^(index%32))] := by
  have long : (limbs.take (index/32) ++ List.replicate (index/32-limbs.length) 0).length = index/32 := by
    rw [List.length_append,List.length_take,List.length_replicate]
    omega
  have last := modifyLast (fun limb : UInt32 => UInt32.ofNat (limb.toNat ||| 2^(index%32)))
    (limbs.take (index/32) ++ List.replicate (index/32-limbs.length) 0) (limbs[index/32]?.getD 0)
  rw [long] at last
  simp only [setLoop]
  rw [resizedParts,last]

theorem setFits (limb : UInt32) (index : Nat) : (UInt32.ofNat (limb.toNat ||| 2^(index%32))).toNat = limb.toNat ||| 2^(index%32) := by
  rw [ofNatToNat,Nat.mod_eq_of_lt]
  exact Nat.or_lt_two_pow (limbLt limb) (Nat.pow_lt_pow_right (by decide) (Nat.mod_lt _ (by decide)))

def setBit (b : Big) (index : Nat) : Big := ⟨setLoop b.limbs index,by
  rw [setLoopParts,Trimmed,List.getLast?_concat]
  intro zero
  have nothing := congrArg UInt32.toNat (Option.some.inj zero)
  rw [setFits,UInt32.toNat_zero,Nat.or_eq_zero_iff] at nothing
  exact absurd nothing.2 (Nat.two_pow_pos _).ne'⟩

theorem powerSplit (index) : (2^32)^(index/32)*2^(index%32) = 2^index := by rw [← Nat.pow_mul,← Nat.pow_add,Nat.div_add_mod]

theorem valueSetBit (b) {index} (above : 2^(index+1) ∣ b.value) :
    (setBit b index).value = b.value%(2^32)^(index/32+1) + 2^index := by
  have loop : (setBit b index).value = Limbs.value (setLoop b.limbs index) := rfl
  have power := powerSplit index
  have low : Limbs.value (b.limbs.take (index/32) ++ List.replicate (index/32-b.limbs.length) 0) = b.value%(2^32)^(index/32) := by
    rw [valueAppend,valueZeros,Nat.mul_zero,Nat.add_zero,valueTake]
    rfl
  have long : (b.limbs.take (index/32) ++ List.replicate (index/32-b.limbs.length) 0).length = index/32 := by
    rw [List.length_append,List.length_take,List.length_replicate]
    omega
  have joins : b.value/(2^32)^(index/32)%2^32 ||| 2^(index%32) = b.value/(2^32)^(index/32)%2^32 + 2^(index%32) := by
    obtain ⟨t,multiple⟩ := above
    have place : index%32+1 ≤ 32 := Nat.mod_lt _ (by decide)
    have high : b.value/(2^32)^(index/32) = t*2^(index%32+1) := by
      rw [multiple,Nat.pow_succ,← power]
      refine Nat.div_eq_of_eq_mul_right (Nat.pow_pos (by decide)) ?_
      ring
    have split : (2:Nat)^32 = 2^(32-(index%32+1))*2^(index%32+1) := by rw [← Nat.pow_add,Nat.sub_add_cancel place]
    rw [high,split,Nat.mul_mod_mul_right,← Nat.shiftLeft_eq]
    exact (Nat.shiftLeft_add_eq_or_of_lt (Nat.pow_lt_pow_right (by decide) (Nat.lt_succ_self _)) _).symm
  have top := limbAt b.limbs (index/32)
  rw [loop,setLoopParts,valueAppend,low,long,Limbs.valueCons,Limbs.valueNil,Nat.mul_zero,Nat.add_zero,setFits,top]
  have joins' : Limbs.value b.limbs/(2^32)^(index/32)%2^32 ||| 2^(index%32) = b.value/(2^32)^(index/32)%2^32 + 2^(index%32) := joins
  have kept : b.value%(2^32)^(index/32+1) = b.value%(2^32)^(index/32) + (2^32)^(index/32)*(b.value/(2^32)^(index/32)%2^32) := Nat.mod_pow_succ
  rw [joins',Nat.mul_add,power,← Nat.add_assoc,kept]

-- `u64` differences wrap; the limb keeps their low half.
def subLoop : List UInt32 → List UInt32 → Nat → List UInt32
  | [], _, _ => []
  | limb :: rest, other, borrow =>
    UInt32.ofNat (2^64+limb.toNat-((other.headD 0).toNat+borrow)) ::
      subLoop rest other.tail (if limb.toNat < (other.headD 0).toNat+borrow then 1 else 0)

theorem subLoopValue {limbs other borrow} (small : borrow ≤ 1) (enough : Limbs.value other+borrow ≤ Limbs.value limbs) :
    Limbs.value (subLoop limbs other borrow) + (Limbs.value other+borrow) = Limbs.value limbs := by
  induction limbs generalizing other borrow with
  | nil =>
    rw [subLoop,Limbs.valueNil,Nat.le_zero.mp enough]
  | cons limb rest ih =>
    have parts := headTail other
    have limb_ := limbLt limb
    have head_ := limbLt (other.headD 0)
    rw [Limbs.valueCons,parts] at enough
    rw [subLoop,Limbs.valueCons,Limbs.valueCons,ofNatToNat]
    split
    · have next := @ih other.tail 1 (Nat.le_refl 1) (by omega)
      omega
    · have next := @ih other.tail 0 (Nat.zero_le 1) (by omega)
      omega

def subAssign (b other : Big) : Big := normalize (subLoop b.limbs other.limbs 0)

theorem valueSubAssign {b other} (enough : other.value ≤ b.value) : (subAssign b other).value = b.value-other.value := by
  have parts := subLoopValue (Nat.zero_le 1) (show Limbs.value other.limbs+0 ≤ Limbs.value b.limbs from enough)
  rw [subAssign,valueNormalize,value,value,← parts,Nat.add_zero,Nat.add_sub_cancel]

def divRemStep (a d : Big) (index : Nat) (s : Big × Big) : Big × Big :=
  let remainder := shlOne s.2
  let remainder := if bit a index then addSmall remainder 1 else remainder
  if cmp remainder d ≠ .lt then (setBit s.1 index,subAssign remainder d) else (s.1,remainder)

def divRemFrom (a d : Big) : Nat → Big × Big → Big × Big
  | 0, s => s
  | index+1, s => divRemFrom a d index (divRemStep a d index s)

def divRem (a d : Big) : Big × Big := divRemFrom a d (bitLength a) (zero,zero)

def divmodSmall (b : Big) (divisor : Nat) : Big × Nat := (normalize (divSmall divisor b.limbs).1,(divSmall divisor b.limbs).2)

end Big

end Bamts.NumberFormat
