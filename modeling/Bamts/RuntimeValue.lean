import Bamts.Binary64
import Bamts.ProgramModel
import Mathlib.Data.Nat.Digits.Defs
import Mathlib.Data.Nat.Digits.Lemmas

/-! The NaN-boxed values of the runtime: `header:13 || tag:3 || payload:48`, their decoding,
and the conversions between array lengths, array indices and values. -/
set_option linter.all false
namespace Bamts.Runtime
open Bytecode Linkage Binary64

structure SlotId where
  segment : UInt16
  slot : UInt32
  segmentNonzero : segment ≠ 0
  slotNonzero : slot ≠ 0
  deriving DecidableEq, Repr

def SlotId.fromParts (segment : UInt16) (slot : UInt32) : Option SlotId :=
  if h : segment ≠ 0 ∧ slot ≠ 0 then some ⟨segment,slot,h.1,h.2⟩ else none

structure Value where fromBits ::
  bits : UInt64
  deriving DecidableEq, Repr

inductive Decoded where
  | number (value : Double)
  | heapRef (id : SlotId)
  | int32 (value : UInt32)
  | undefined
  | null
  | boolean (value : Bool)
  | hole
  | uninitialized
  deriving DecidableEq, Repr

namespace Value

def headerMask : UInt64 := (0x1fff : UInt64) <<< 51
def canonNan : UInt64 := (4095 : UInt64) <<< 51
def payloadMask : UInt64 := ((1 : UInt64) <<< 48) - 1

def tagHeapRef : UInt64 := 1
def tagInt32 : UInt64 := 2
def tagUndefined : UInt64 := 3
def tagNull : UInt64 := 4
def tagBoolean : UInt64 := 5
def tagHole : UInt64 := 6
def tagUninitialized : UInt64 := 7

def tagOf (bits : UInt64) : UInt64 := (bits >>> 48) &&& 7
def isBoxed (bits : UInt64) : Bool := bits &&& headerMask == canonNan && tagOf bits != 0
def boxed (tag payload : UInt64) : UInt64 := canonNan ||| (tag <<< 48) ||| payload

def undefined : Value := ⟨boxed tagUndefined 0⟩
def null : Value := ⟨boxed tagNull 0⟩
def hole : Value := ⟨boxed tagHole 0⟩
def uninitialized : Value := ⟨boxed tagUninitialized 0⟩
def boolean (value : Bool) : Value := ⟨boxed tagBoolean (if value then 1 else 0)⟩
def int32 (value : UInt32) : Value := ⟨boxed tagInt32 value.toUInt64⟩
def heapRef (id : SlotId) : Value := ⟨boxed tagHeapRef ((id.segment.toUInt64 <<< 32) ||| id.slot.toUInt64)⟩
def number (value : Double) : Value := if value.isNaN then ⟨canonNan⟩ else ⟨value.bits⟩

def isUninitialized (v : Value) : Bool := v.bits == uninitialized.bits

def decode (v : Value) : Option Decoded :=
  if !isBoxed v.bits then some (.number ⟨v.bits⟩) else
  let payload := v.bits &&& payloadMask
  let upper := (payload >>> 32).toUInt16
  let lower := payload.toUInt32
  if tagOf v.bits = tagHeapRef then (SlotId.fromParts upper lower).map .heapRef
  else if tagOf v.bits = tagInt32 then if upper = 0 then some (.int32 lower) else none
  else if tagOf v.bits = tagUndefined then if payload = 0 then some .undefined else none
  else if tagOf v.bits = tagNull then if payload = 0 then some .null else none
  else if tagOf v.bits = tagBoolean then
    if payload = 0 then some (.boolean false) else if payload = 1 then some (.boolean true) else none
  else if tagOf v.bits = tagHole then if payload = 0 then some .hole else none
  else if payload = 0 then some .uninitialized else none

theorem tagNat (bits) : (tagOf bits).toNat = bits.toNat / 2^48 % 8 := by
  have seven : (7 : UInt64).toNat = 2^3-1 := rfl
  have by48 : (48 : UInt64).toNat % 64 = 48 := rfl
  rw [tagOf,UInt64.toNat_and,UInt64.toNat_shiftRight,seven,by48,Nat.and_two_pow_sub_one_eq_mod,Nat.shiftRight_eq_div_pow]

theorem payloadNat (bits) : (bits &&& payloadMask).toNat = bits.toNat % 2^48 := by
  have mask : payloadMask.toNat = 2^48-1 := rfl
  rw [UInt64.toNat_and,mask,Nat.and_two_pow_sub_one_eq_mod]

theorem boxedNat {tag payload} (small : tag.toNat < 8) (short : payload.toNat < 2^48) :
    (boxed tag payload).toNat = (32760 + tag.toNat) * 2^48 + payload.toNat := by
  have by48 : (48 : UInt64).toNat % 64 = 48 := rfl
  have header : canonNan.toNat = 2^51 * 4095 := rfl
  have tags : tag.toNat <<< 48 % 2^64 = 2^48 * tag.toNat := by
    omega
  rw [boxed,UInt64.toNat_or,UInt64.toNat_or,UInt64.toNat_shiftLeft,by48,tags,header,
    ← Nat.two_pow_add_eq_or_of_lt (by omega)]
  have regroup : 2^51 * 4095 + 2^48 * tag.toNat = 2^48 * (32760+tag.toNat) := by omega
  rw [regroup,← Nat.two_pow_add_eq_or_of_lt short,Nat.mul_comm]

theorem headerShift (bits) : (bits &&& headerMask).toNat = bits.toNat / 2^51 * 2^51 := by
  have mask : headerMask.toNat = (2^13-1) <<< 51 := rfl
  have small : bits.toNat < 2^64 := bits.toNat_lt
  rw [UInt64.toNat_and,mask,← Nat.shiftRight_eq_div_pow,← Nat.shiftLeft_eq]
  apply Nat.eq_of_testBit_eq
  intro i
  rw [Nat.testBit_and,Nat.testBit_shiftLeft,Nat.testBit_shiftLeft,Nat.testBit_shiftRight]
  by_cases high : 51 ≤ i
  · rw [Nat.testBit_two_pow_sub_one,Nat.add_sub_cancel' high]
    by_cases far : i < 64
    · simp [high,show i-51 < 13 by omega]
    · have zero : bits.toNat.testBit i = false :=
        Nat.testBit_lt_two_pow (Nat.lt_of_lt_of_le small (Nat.pow_le_pow_right (by decide) (by omega)))
      simp [zero]
  · simp [high]

theorem boxedIff (bits) :
    isBoxed bits = true ↔ bits.toNat / 2^51 = 4095 ∧ bits.toNat / 2^48 % 8 ≠ 0 := by
  have header : canonNan.toNat = 4095 * 2^51 := rfl
  have zero : (0 : UInt64).toNat = 0 := rfl
  rw [isBoxed,Bool.and_eq_true,beq_iff_eq,bne_iff_ne,ne_eq,← UInt64.toNat_inj,← UInt64.toNat_inj,headerShift,header,tagNat,
    zero,Nat.mul_left_inj (by decide)]

theorem boxedIsBoxed {tag payload} (some_ : tag.toNat ≠ 0) (small : tag.toNat < 8) (short : payload.toNat < 2^48) :
    isBoxed (boxed tag payload) = true ∧ tagOf (boxed tag payload) = tag ∧
    boxed tag payload &&& payloadMask = payload := by
  have whole := boxedNat small short
  refine ⟨(boxedIff _).mpr (by omega),UInt64.toNat_inj.mp ?_,UInt64.toNat_inj.mp ?_⟩
  · rw [tagNat]
    omega
  · rw [payloadNat]
    omega

theorem decodeHeapRef (id) : (heapRef id).decode = some (.heapRef id) := by
  obtain ⟨segment,slot,hs,hl⟩ := id
  have by32 : (32 : UInt64).toNat % 64 = 32 := rfl
  have low : slot.toUInt64.toNat < 2^32 := slot.toNat_lt
  have wide : segment.toUInt64.toNat < 2^16 := segment.toNat_lt
  have value : ((segment.toUInt64 <<< 32) ||| slot.toUInt64).toNat = segment.toNat * 2^32 + slot.toNat := by
    have top : segment.toUInt64.toNat <<< 32 % 2^64 = 2^32 * segment.toUInt64.toNat := by
      omega
    rw [UInt64.toNat_or,UInt64.toNat_shiftLeft,by32,top,← Nat.two_pow_add_eq_or_of_lt low,Nat.mul_comm]
    rfl
  have size : segment.toNat < 2^16 := segment.toNat_lt
  have size' : slot.toNat < 2^32 := slot.toNat_lt
  obtain ⟨box,tag,payload⟩ := @boxedIsBoxed tagHeapRef
    ((segment.toUInt64 <<< 32) ||| slot.toUInt64) (by decide) (by decide) (by omega)
  have upper : (((segment.toUInt64 <<< 32) ||| slot.toUInt64) >>> 32).toUInt16 = segment := by
    apply UInt16.toNat_inj.mp
    rw [UInt64.toNat_toUInt16,UInt64.toNat_shiftRight,by32,value,Nat.shiftRight_eq_div_pow]
    omega
  have lower : ((segment.toUInt64 <<< 32) ||| slot.toUInt64).toUInt32 = slot := by
    apply UInt32.toNat_inj.mp
    rw [UInt64.toNat_toUInt32,value]
    omega
  simp [decode,heapRef,box,tag,payload,upper,lower,SlotId.fromParts,hs,hl]

theorem decodeInt32 (raw) : (int32 raw).decode = some (.int32 raw) := by
  have small : raw.toUInt64.toNat < 2^32 := raw.toNat_lt
  obtain ⟨box,tag,payload⟩ := @boxedIsBoxed tagInt32 raw.toUInt64 (by decide) (by decide) (by omega)
  have by32 : (32 : UInt64).toNat % 64 = 32 := rfl
  have upper : (raw.toUInt64 >>> 32).toUInt16 = 0 := by
    apply UInt16.toNat_inj.mp
    rw [UInt64.toNat_toUInt16,UInt64.toNat_shiftRight,by32,Nat.shiftRight_eq_div_pow,Nat.div_eq_of_lt small]
    rfl
  have other : tagInt32 ≠ tagHeapRef := by decide
  simp [decode,int32,box,tag,payload,upper,other]

theorem decodeNumber {x} (plain : x.isNaN = false) : (number x).decode = some (.number x) := by
  have open_ : isBoxed x.bits = false := by
    rw [Bool.eq_false_iff,ne_eq,boxedIff]
    intro box
    have nan : x.isNaN = true := by
      rw [Double.isNaN,Bool.and_eq_true,beq_iff_eq,bne_iff_ne,Double.exponent,Double.fraction]
      omega
    rw [plain] at nan
    cases nan
  simp [number,plain,decode,open_]

end Value

def runtimeHeapSegment : UInt16 := 1

-- `f64::from(raw as i32)`
def int32Double (raw : UInt32) : Double := Double.ofInt raw.toInt32.toInt

def numericF64 (v : Value) : Option Double :=
  match v.decode with
  | some (.number x) => some x
  | some (.int32 raw) => some (int32Double raw)
  | _ => none

def numberValue (x : Double) : Value :=
  match x.toInt with
  | some z => if -2147483648 ≤ z ∧ z ≤ 2147483647 then .int32 (Int32.ofInt z).toUInt32 else .number x
  | none => .number x

def exactArrayLength (v : Value) : Option Nat := do
  let x ← numericF64 v
  let z ← x.toInt
  if 0 ≤ z ∧ z ≤ 4294967295 then some z.toNat else none

theorem exactLength {n} (small : n ≤ 4294967295) : exactArrayLength (numberValue (.ofNat n)) = some n := by
  have whole := Double.toIntOfNat (n := n) (by omega)
  rw [numberValue,whole]
  by_cases narrow : n ≤ 2147483647
  · have back : int32Double (Int32.ofInt n).toUInt32 = .ofNat n := by
      rw [int32Double,Int32.toInt32_toUInt32,Int32.toInt_ofInt_of_le (by omega) (by omega)]
      rfl
    simp [narrow,exactArrayLength,numericF64,Value.decodeInt32,back,whole]
    omega
  · have plain : (Double.ofNat n).isNaN = false := Double.plainOfInt whole
    simp [narrow,exactArrayLength,numericF64,Value.decodeNumber plain,whole]
    omega

-- The code units of an ASCII text of the source.
def ascii (text : String) : EcmaString := ⟨text.toList.map fun c => UInt16.ofNat c.toNat⟩

def eqAscii (s : EcmaString) (text : String) : Bool := s == ascii text

-- `offset.to_string()`
def decimal (n : Nat) : EcmaString :=
  if n = 0 then ⟨[48]⟩ else ⟨(Nat.digits 10 n).reverse.map fun d => UInt16.ofNat (48+d)⟩

def isDigit (unit : UInt16) : Bool := 48 ≤ unit && unit ≤ 57

-- `u32` arithmetic: an index that leaves the type is no index.
def arrayIndexLoop : List UInt16 → Nat → Option Nat
  | [], index => some index
  | unit :: rest, index =>
    if isDigit unit ∧ index*10 + (unit.toNat-48) < 2^32 then arrayIndexLoop rest (index*10 + (unit.toNat-48)) else none

def arrayIndex (key : EcmaString) : Option Nat :=
  if key.asUnits.isEmpty || (1 < key.asUnits.length && key.asUnits.head? == some 48) then none else do
    let index ← arrayIndexLoop key.asUnits 0
    if index ≠ 4294967295 then some index else none

def digitsValue (units : List UInt16) (start : Nat) : Nat :=
  units.foldl (fun index unit => index*10 + (unit.toNat-48)) start

theorem arrayIndexLoopSome {units start n} (found : arrayIndexLoop units start = some n)
    (small : start < 2^32) : (∀ unit ∈ units, isDigit unit = true) ∧ n = digitsValue units start ∧ n < 2^32 := by
  induction units generalizing start with
  | nil =>
    cases Option.some.inj found
    exact ⟨by simp,rfl,small⟩
  | cons unit rest ih =>
    rw [arrayIndexLoop] at found
    split at found
    · rename_i step
      obtain ⟨digits,value⟩ := ih found step.2
      exact ⟨by simpa using ⟨step.1,digits⟩,value⟩
    · cases found

theorem digitsValueGrows (units start) : start ≤ digitsValue units start := by
  induction units generalizing start with
  | nil => exact Nat.le_refl _
  | cons unit rest ih =>
    have := ih (start*10 + (unit.toNat-48))
    simp only [digitsValue,List.foldl_cons] at this ⊢
    omega

theorem arrayIndexLoopOf {units start} (digits : ∀ unit ∈ units, isDigit unit = true)
    (small : digitsValue units start < 2^32) : arrayIndexLoop units start = some (digitsValue units start) := by
  induction units generalizing start with
  | nil => rfl
  | cons unit rest ih =>
    have first := digits unit List.mem_cons_self
    have grows := digitsValueGrows rest (start*10 + (unit.toNat-48))
    simp only [digitsValue,List.foldl_cons] at small grows ⊢
    rw [arrayIndexLoop,if_pos ⟨first,by omega⟩]
    exact ih (fun u member => digits u (List.mem_cons_of_mem _ member)) small

theorem digitsValueReverse (ds) (small : ∀ d ∈ ds, d < 10) :
    digitsValue (ds.reverse.map fun d => UInt16.ofNat (48+d)) 0 = Nat.ofDigits 10 ds := by
  induction ds with
  | nil => rfl
  | cons d rest ih =>
    have digit : d < 10 := small d List.mem_cons_self
    have unit : (UInt16.ofNat (48+d)).toNat = 48+d := by
      rw [UInt16.toNat_ofNat_of_lt']
      simp only [UInt16.size]
      omega
    have before := ih fun d member => small d (List.mem_cons_of_mem _ member)
    simp only [digitsValue] at before
    rw [List.reverse_cons,List.map_append,digitsValue,List.foldl_append,before,Nat.ofDigits_cons]
    simp only [List.map_cons,List.map_nil,List.foldl_cons,List.foldl_nil,unit]
    omega

theorem decimalUnits (n) : ∀ unit ∈ (decimal n).asUnits, isDigit unit = true := by
  intro unit member
  unfold decimal at member
  split at member
  · rcases List.mem_singleton.mp member with rfl
    rfl
  · obtain ⟨d,inside,rfl⟩ := List.mem_map.mp member
    have digit : d < 10 := Nat.digits_lt_base (by decide) (List.mem_reverse.mp inside)
    interval_cases d <;> rfl

theorem decimalValue (n) : digitsValue (decimal n).asUnits 0 = n := by
  unfold decimal
  split
  · subst n; rfl
  · rw [digitsValueReverse _ fun d member => Nat.digits_lt_base (by decide) member,Nat.ofDigits_digits]

theorem digitUnit {unit} (digit : isDigit unit = true) :
    UInt16.ofNat (48+(unit.toNat-48)) = unit ∧ unit.toNat-48 < 10 := by
  simp only [isDigit,Bool.and_eq_true,decide_eq_true_eq] at digit
  have low : 48 ≤ unit.toNat := digit.1
  have high : unit.toNat ≤ 57 := digit.2
  refine ⟨?_,by omega⟩
  rw [Nat.add_sub_cancel' low,UInt16.ofNat_toNat]

theorem canonicalUnits {units} (some_ : units ≠ []) (digits : ∀ unit ∈ units, isDigit unit = true)
    (lead : units.head? ≠ some 48) : units = (decimal (digitsValue units 0)).asUnits := by
  let ds := (units.map fun unit => unit.toNat-48).reverse
  have spelled : ds.reverse.map (fun d => UInt16.ofNat (48+d)) = units := by
    simp only [ds,List.reverse_reverse,List.map_map]
    conv_rhs => rw [← List.map_id units]
    exact List.map_congr_left fun unit member => (digitUnit (digits unit member)).1
  have small : ∀ d ∈ ds, d < 10 := by
    intro d member
    obtain ⟨unit,inside,rfl⟩ := List.mem_map.mp (List.mem_reverse.mp member)
    exact (digitUnit (digits unit inside)).2
  have value : digitsValue units 0 = Nat.ofDigits 10 ds := by
    rw [← digitsValueReverse ds small,spelled]
  have last : ∀ h, ds.getLast h ≠ 0 := by
    intro h zero
    obtain ⟨unit,rest,shape⟩ := List.exists_cons_of_ne_nil some_
    have first : unit.toNat - 48 = 0 := by simpa [ds,shape] using zero
    obtain ⟨same,_⟩ := digitUnit (digits unit (by simp [shape]))
    rw [first] at same
    exact lead (by simp [shape,← same])
  have back := Nat.digits_ofDigits 10 (by decide) ds small last
  have nonzero : digitsValue units 0 ≠ 0 := by
    intro zero
    rw [← value,zero,Nat.digits_zero] at back
    exact some_ (by rw [← spelled,← back]; rfl)
  rw [decimal,if_neg nonzero,value,back,spelled]

theorem arrayIndexSome {key n} (found : arrayIndex key = some n) :
    key = decimal n ∧ n < 4294967295 := by
  obtain ⟨units⟩ := key
  unfold arrayIndex at found
  split at found
  · cases found
  rename_i shape
  simp only [Bool.or_eq_true,Bool.and_eq_true,List.isEmpty_iff,decide_eq_true_eq,beq_iff_eq,not_or,not_and] at shape
  obtain ⟨some_,lead⟩ := shape
  simp only [bind,Option.bind_eq_some_iff] at found
  obtain ⟨index,loop,range⟩ := found
  split at range
  · rename_i below
    cases range
    obtain ⟨digits,rfl,bound⟩ := arrayIndexLoopSome loop (by decide)
    refine ⟨?_,by omega⟩
    by_cases zero : units.head? = some 48
    · have single : units = [48] := by
        match units,some_,lead,zero with
        | [unit],_,_,zero => simpa using zero
        | _ :: _ :: _,_,lead,zero => exact absurd zero (lead (by simp))
      subst units
      rfl
    · exact congrArg EcmaString.fromUnits (canonicalUnits some_ digits zero)
  · cases range

theorem decimalHead {n} (positive : n ≠ 0) : (decimal n).asUnits ≠ [] ∧ (decimal n).asUnits.head? ≠ some 48 := by
  have some_ := Nat.digits_ne_nil_iff_ne_zero (b := 10) |>.mpr positive
  have lead := Nat.getLast_digit_ne_zero 10 positive
  have digit := Nat.digits_lt_base (m := n) (b := 10) (by decide) (List.getLast_mem some_)
  have units : (decimal n).asUnits = (Nat.digits 10 n).reverse.map fun d => UInt16.ofNat (48+d) := by
    rw [decimal,if_neg positive]
  rw [units]
  refine ⟨by simpa using some_,?_⟩
  rw [List.head?_map,List.head?_reverse,List.getLast?_eq_some_getLast some_]
  intro same
  revert lead digit same
  generalize (Nat.digits 10 n).getLast some_ = d
  intro lead digit same
  interval_cases d
  · exact lead rfl
  all_goals revert same; decide

theorem arrayIndexDecimal {n} (small : n < 4294967295) : arrayIndex (decimal n) = some n := by
  have loop := @arrayIndexLoopOf _ 0 (decimalUnits n) (by rw [decimalValue]; omega)
  rw [decimalValue] at loop
  have plain : ((decimal n).asUnits.isEmpty ||
      (1 < (decimal n).asUnits.length && (decimal n).asUnits.head? == some 48)) = false := by
    by_cases zero : n = 0
    · subst n
      rfl
    · obtain ⟨some_,lead⟩ := decimalHead zero
      simp [some_,lead]
  simp [arrayIndex,plain,loop]
  omega

end Bamts.Runtime
