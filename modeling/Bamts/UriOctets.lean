import Bamts.StringCodePoints
import Mathlib.Data.Nat.Bitwise

/-! Percent escapes of octets, and the UTF-8 octets of one scalar value in them. -/
set_option linter.all false
namespace Bamts.Uri
open Bytecode Linkage

def hexDigits : List UInt8 := [48,49,50,51,52,53,54,55,56,57,65,66,67,68,69,70]

def hexDigit (nibble : UInt8) : UInt16 := (hexDigits.getD nibble.toNat 0).toUInt16

def percent : UInt16 := 37

def pushPercentOctet (octet : UInt8) : List UInt16 := [percent,hexDigit (octet >>> 4),hexDigit (octet &&& 0x0f)]

-- `mark | (bits as u8)`
def marked (mark : UInt8) (bits : UInt32) : UInt8 := mark ||| bits.toUInt8

def utf8Octets (scalar : UInt32) : List UInt8 :=
  if scalar ≤ 0x7f then [scalar.toUInt8]
  else if scalar ≤ 0x7ff then [marked 0xc0 (scalar >>> 6),marked 0x80 (scalar &&& 0x3f)]
  else if scalar ≤ 0xffff then [marked 0xe0 (scalar >>> 12),marked 0x80 ((scalar >>> 6) &&& 0x3f),marked 0x80 (scalar &&& 0x3f)]
  else [marked 0xf0 (scalar >>> 18),marked 0x80 ((scalar >>> 12) &&& 0x3f),marked 0x80 ((scalar >>> 6) &&& 0x3f),marked 0x80 (scalar &&& 0x3f)]

def pushUtf8PercentEncoded (scalar : UInt32) : List UInt16 := (utf8Octets scalar).flatMap pushPercentOctet

def hexValue (unit : UInt16) : Option UInt8 :=
  if 0x30 ≤ unit ∧ unit ≤ 0x39 then some (unit-0x30).toUInt8
  else if 0x41 ≤ unit ∧ unit ≤ 0x46 then some (unit-0x41+10).toUInt8
  else if 0x61 ≤ unit ∧ unit ≤ 0x66 then some (unit-0x61+10).toUInt8
  else none

def percentOctet (units : List UInt16) (offset : Nat) : Option UInt8 :=
  if units[offset]? ≠ some percent then none
  else do
    let high ← hexValue (← units[offset+1]?)
    let low ← hexValue (← units[offset+2]?)
    some ((high <<< 4) ||| low)

def utf8SequenceWidth (first : UInt8) : Option Nat :=
  if first ≤ 0x7f then some 1
  else if 0xc2 ≤ first ∧ first ≤ 0xdf then some 2
  else if 0xe0 ≤ first ∧ first ≤ 0xef then some 3
  else if 0xf0 ≤ first ∧ first ≤ 0xf4 then some 4
  else none

def isContinuation (octet : UInt8) : Bool := 0x80 ≤ octet && octet ≤ 0xbf

def addOctet (scalar : UInt32) (octet : UInt8) : UInt32 := (scalar <<< 6) ||| (octet &&& 0x3f).toUInt32

def continueScalar (units : List UInt16) : Nat → Nat → UInt32 → Option UInt32
  | 0, _, scalar => some scalar
  | n+1, index, scalar => do
    let octet ← percentOctet units (index*3)
    if isContinuation octet then continueScalar units n (index+1) (addOctet scalar octet) else none

def firstBits (width : Nat) (first : UInt8) : UInt32 :=
  if width = 1 then first.toUInt32 else (first &&& (0x7f >>> UInt8.ofNat width)).toUInt32

def minimumScalar : Nat → UInt32
  | 2 => 0x80
  | 3 => 0x800
  | 4 => 0x10000
  | _ => 0

def decodePercentScalar (units : List UInt16) : Option (UInt32 × Nat) := do
  let first ← percentOctet units 0
  let width ← utf8SequenceWidth first
  let scalar ← continueScalar units (width-1) 1 (firstBits width first)
  if scalar < minimumScalar width || isSurrogate scalar || 0x10ffff < scalar then none else some (scalar,width*3)

inductive Escaped : List UInt8 → List UInt16 → Prop where
  | nil : Escaped [] []
  | cons {high low : UInt16} {a b : UInt8} {octets : List UInt8} {units : List UInt16} (first : hexValue high = some a) (second : hexValue low = some b)
      (rest : Escaped octets units) : Escaped (((a <<< 4) ||| b) :: octets) (percent :: high :: low :: units)

section Hex

theorem hexKept : ∀ n : Fin 16, hexValue (hexDigit (UInt8.ofNat n)) = some (UInt8.ofNat n) := by decide

theorem nibblesJoin : ∀ n : Fin 256, ((UInt8.ofNat n >>> 4) <<< 4) ||| (UInt8.ofNat n &&& 0x0f) = UInt8.ofNat n ∧
    (UInt8.ofNat n >>> 4).toNat < 16 ∧ (UInt8.ofNat n &&& 0x0f).toNat < 16 := by decide +kernel

theorem nibbleKept {nibble} (small : nibble.toNat < 16) : hexValue (hexDigit nibble) = some nibble := by
  have kept := hexKept ⟨nibble.toNat,small⟩
  rwa [UInt8.ofNat_toNat] at kept

theorem pushEscaped (octet) {octets units} (rest : Escaped octets units) :
    Escaped (octet :: octets) (pushPercentOctet octet ++ units) := by
  have split := nibblesJoin ⟨octet.toNat,octet.toNat_lt⟩
  simp only [UInt8.ofNat_toNat] at split
  have cons := Escaped.cons (nibbleKept split.2.1) (nibbleKept split.2.2) rest
  rwa [split.1] at cons

theorem pushesEscaped (octets) : Escaped octets (octets.flatMap pushPercentOctet) := by
  induction octets with
  | nil => exact .nil
  | cons octet rest ih => exact pushEscaped octet ih

theorem escapedLength {octets units} (escaped : Escaped octets units) : units.length = 3*octets.length := by
  induction escaped with
  | nil => rfl
  | cons _ _ _ ih =>
    simp only [List.length_cons,ih]
    omega

theorem octetNext (high low units offset) :
    percentOctet (percent :: high :: low :: units) (offset+3) = percentOctet units offset := rfl

theorem octetFirst {units octet} : percentOctet units 0 = some octet ↔
    ∃ high low a b rest, units = percent :: high :: low :: rest ∧ hexValue high = some a ∧ hexValue low = some b ∧ octet = (a <<< 4) ||| b := by
  unfold percentOctet
  constructor
  · intro found
    match units with
    | [] => cases found
    | unit :: rest =>
      split at found
      · cases found
      · rename_i sign
        have same : unit = percent := Option.some.inj (of_not_not sign)
        subst same
        simp only [bind,Option.bind_eq_some_iff] at found
        obtain ⟨high,at1,a,value,low,at2,b,value',same⟩ := found
        match rest with
        | [] => cases at1
        | [_] => cases at2
        | h :: l :: rest =>
          cases at1
          cases at2
          exact ⟨_,_,_,_,_,rfl,value,value',(Option.some.inj same).symm⟩
  · intro spelled
    obtain ⟨high,low,a,b,rest,same,first,second,join⟩ := spelled
    subst same join
    simp [first,second]

theorem escapesRead {octets units} : (∀ (i : Nat) octet, octets[i]? = some octet → percentOctet units (i*3) = some octet) ↔
    ∃ escape rest, units = escape ++ rest ∧ Escaped octets escape := by
  induction octets generalizing units with
  | nil => exact iff_of_true (fun i octet found => by cases found) ⟨[],units,rfl,.nil⟩
  | cons octet octets ih =>
    constructor
    · intro reads
      obtain ⟨high,low,a,b,rest,same,first,second,join⟩ := octetFirst.mp (reads 0 octet rfl)
      subst same
      obtain ⟨escape,rest',same,escaped⟩ := ih.mp fun i octet found => by
        have read := reads (i+1) octet found
        rwa [Nat.add_mul,Nat.one_mul,octetNext] at read
      subst same
      exact ⟨percent :: high :: low :: escape,rest',rfl,join ▸ .cons first second escaped⟩
    · intro spelled i found at_
      obtain ⟨escape,rest,same,escaped⟩ := spelled
      cases escaped with
      | @cons high low a b _ units first second escaped =>
        subst same
        cases i with
        | zero =>
          cases at_
          exact octetFirst.mpr ⟨high,low,a,b,units ++ rest,rfl,first,second,rfl⟩
        | succ i =>
          rw [Nat.add_mul,Nat.one_mul,List.cons_append,List.cons_append,List.cons_append,octetNext]
          exact ih.mpr ⟨units,rest,rfl,escaped⟩ i found at_

end Hex

section Bits

theorem markedNat {mark bits k a} (whole : mark.toNat = 2^k*a) (small : bits.toNat < 2^k) (short : k ≤ 8) :
    (marked mark bits).toNat = mark.toNat + bits.toNat := by
  have fits : bits.toUInt8.toNat = bits.toNat := by
    exact Nat.mod_eq_of_lt (small.trans_le (Nat.pow_le_pow_right (by decide) short))
  rw [marked,UInt8.toNat_or,fits,whole,Nat.two_pow_add_eq_or_of_lt small]

theorem lowBits (scalar : UInt32) : (scalar &&& 0x3f).toNat = scalar.toNat % 64 := by
  rw [UInt32.toNat_and,show (0x3f : UInt32).toNat = 2^6-1 from rfl,Nat.and_two_pow_sub_one_eq_mod]

theorem shiftedBits (scalar : UInt32) (k) (small : k.toNat < 32) : (scalar >>> k).toNat = scalar.toNat/2^k.toNat := by
  rw [UInt32.toNat_shiftRight,Nat.mod_eq_of_lt small,Nat.shiftRight_eq_div_pow]

theorem addOctetNat (scalar octet) (small : scalar.toNat < 2^26) :
    (addOctet scalar octet).toNat = scalar.toNat*64 + octet.toNat % 64 := by
  have low : (octet &&& 0x3f).toUInt32.toNat = octet.toNat % 64 := by
    rw [UInt8.toNat_toUInt32,UInt8.toNat_and,show (0x3f : UInt8).toNat = 2^6-1 from rfl,Nat.and_two_pow_sub_one_eq_mod]
  have high : (scalar <<< 6).toNat = scalar.toNat*64 := by
    rw [UInt32.toNat_shiftLeft,Nat.shiftLeft_eq]
    simp only [UInt32.reduceToNat,Nat.reduceMod,Nat.reducePow]
    omega
  have joined := Nat.two_pow_add_eq_or_of_lt (show octet.toNat % 64 < 2^6 by omega) scalar.toNat
  rw [addOctet,UInt32.toNat_or,low,high,Nat.mul_comm scalar.toNat 64]
  exact joined.symm

theorem continuationRange {octet} : isContinuation octet = true ↔ 128 ≤ octet.toNat ∧ octet.toNat ≤ 191 := by
  simp [isContinuation,UInt8.le_iff_toNat_le]

theorem continueReads {units n index scalar result} : continueScalar units n index scalar = some result ↔
    ∃ tail : List UInt8, tail.length = n ∧ (∀ (i : Nat) octet, tail[i]? = some octet → percentOctet units ((index+i)*3) = some octet) ∧
      (∀ octet ∈ tail, isContinuation octet = true) ∧ result = tail.foldl addOctet scalar := by
  induction n generalizing index scalar with
  | zero =>
    constructor
    · intro found
      cases found
      exact ⟨[],rfl,fun i octet at_ => (by cases at_),fun octet inside => absurd inside List.not_mem_nil,rfl⟩
    · intro found
      obtain ⟨tail,none,_,_,same⟩ := found
      rw [List.length_eq_zero_iff.mp none] at same
      exact congrArg some same.symm
  | succ n ih =>
    constructor
    · intro found
      obtain ⟨octet,here,found⟩ := Option.bind_eq_some_iff.mp found
      split at found
      · rename_i continues
        obtain ⟨tail,length,reads,all,same⟩ := ih.mp found
        refine ⟨octet :: tail,by rw [List.length_cons,length],fun i other at_ => ?_,fun other inside => ?_,same⟩
        · cases i with
          | zero =>
            cases at_
            exact here
          | succ i =>
            have read := reads i other at_
            rwa [Nat.add_assoc,Nat.add_comm 1 i] at read
        · obtain same | later := List.mem_cons.mp inside
          · exact same ▸ continues
          · exact all other later
      · cases found
    · intro found
      obtain ⟨tail,length,reads,all,same⟩ := found
      match tail with
      | [] => cases length
      | octet :: tail =>
        refine Option.bind_eq_some_iff.mpr ⟨octet,reads 0 octet rfl,?_⟩
        rw [if_pos (all octet List.mem_cons_self)]
        refine ih.mpr ⟨tail,Nat.succ.inj length,fun i other at_ => ?_,fun other inside => all other (List.mem_cons_of_mem _ inside),same⟩
        have read := reads (i+1) other at_
        rwa [Nat.add_comm i 1,← Nat.add_assoc] at read

theorem encodeOne {c : Char} (high : c.val.toNat ≤ 127) : String.utf8EncodeChar c = [UInt8.ofNat c.val.toNat] := if_pos high

theorem encodeTwo {c : Char} (low : 127 < c.val.toNat) (high : c.val.toNat ≤ 2047) :
    String.utf8EncodeChar c = [UInt8.ofNat (c.val.toNat/64 % 32+192),UInt8.ofNat (c.val.toNat % 64+128)] :=
  (if_neg (Nat.not_le.mpr low)).trans (if_pos high)

theorem encodeThree {c : Char} (low : 2047 < c.val.toNat) (high : c.val.toNat ≤ 65535) :
    String.utf8EncodeChar c =
      [UInt8.ofNat (c.val.toNat/4096 % 16+224),UInt8.ofNat (c.val.toNat/64 % 64+128),UInt8.ofNat (c.val.toNat % 64+128)] :=
  (if_neg (Nat.not_le.mpr (Nat.lt_of_le_of_lt (by decide) low))).trans ((if_neg (Nat.not_le.mpr low)).trans (if_pos high))

theorem encodeFour {c : Char} (low : 65535 < c.val.toNat) :
    String.utf8EncodeChar c = [UInt8.ofNat (c.val.toNat/262144 % 8+240),UInt8.ofNat (c.val.toNat/4096 % 64+128),
      UInt8.ofNat (c.val.toNat/64 % 64+128),UInt8.ofNat (c.val.toNat % 64+128)] :=
  (if_neg (Nat.not_le.mpr (Nat.lt_of_le_of_lt (by decide) low))).trans
    ((if_neg (Nat.not_le.mpr (Nat.lt_of_le_of_lt (by decide) low))).trans (if_neg (Nat.not_le.mpr low)))

theorem ofNatIs (octet : UInt8) {n} (same : n = octet.toNat) : UInt8.ofNat n = octet := same ▸ UInt8.ofNat_toNat

theorem byteNat {n} (small : n < 256) : (UInt8.ofNat n).toNat = n := UInt8.toNat_ofNat_of_lt' small

theorem markedOctet {mark bits k a n} (whole : mark.toNat = 2^k*a) (short : k ≤ 8) (same : bits.toNat = n) (small : n < 2^k) :
    marked mark bits = UInt8.ofNat (n+mark.toNat) := by
  have value := markedNat whole (same.trans_lt small) short
  rw [same,Nat.add_comm] at value
  exact (ofNatIs _ value.symm).symm

theorem continuedMark {bits n} (same : bits.toNat = n % 64) : marked 0x80 bits = UInt8.ofNat (n % 64+128) :=
  markedOctet (show (0x80 : UInt8).toNat = 2^6*2 from rfl) (by decide) same (by omega)

theorem octetsEncode (c) : utf8Octets c.val = String.utf8EncodeChar c := by
  have third := lowBits c.val
  have second : ((c.val >>> 6) &&& 0x3f).toNat = c.val.toNat/64 % 64 := by rw [lowBits,shiftedBits _ _ (by decide)]; rfl
  have first : ((c.val >>> 12) &&& 0x3f).toNat = c.val.toNat/4096 % 64 := by rw [lowBits,shiftedBits _ _ (by decide)]; rfl
  unfold utf8Octets
  simp only [UInt32.le_iff_toNat_le,UInt32.reduceToNat]
  split
  · rename_i one
    rw [encodeOne one]
    exact congrArg (· :: []) (UInt8.ofNat_uInt32ToNat c.val).symm
  rename_i narrow
  split
  · rename_i two
    have six : (c.val >>> 6).toNat = c.val.toNat/64 % 32 :=
      (shiftedBits _ _ (by decide)).trans (Nat.mod_eq_of_lt (show c.val.toNat/64 < 32 by omega)).symm
    have lead := markedOctet (show (0xc0 : UInt8).toNat = 2^6*3 from rfl) (by decide) six (by omega)
    rw [encodeTwo (Nat.not_le.mp narrow) two,lead,continuedMark third]
    rfl
  rename_i wide
  split
  · rename_i three
    have twelve : (c.val >>> 12).toNat = c.val.toNat/4096 % 16 :=
      (shiftedBits _ _ (by decide)).trans (Nat.mod_eq_of_lt (show c.val.toNat/4096 < 16 by omega)).symm
    have lead := markedOctet (show (0xe0 : UInt8).toNat = 2^4*14 from rfl) (by decide) twelve (by omega)
    rw [encodeThree (Nat.not_le.mp wide) three,lead,continuedMark second,continuedMark third]
    rfl
  · rename_i four
    have below : c.val.toNat < 0x110000 := by
      obtain early | late := c.valid
      · exact early.trans (by decide)
      · exact late.2
    have eighteen : (c.val >>> 18).toNat = c.val.toNat/262144 % 8 :=
      (shiftedBits _ _ (by decide)).trans (Nat.mod_eq_of_lt (show c.val.toNat/262144 < 8 by omega)).symm
    have lead := markedOctet (show (0xf0 : UInt8).toNat = 2^3*30 from rfl) (by decide) eighteen (by omega)
    rw [encodeFour (Nat.not_le.mp four),lead,continuedMark first,continuedMark second,continuedMark third]
    rfl

theorem firstBitsNat (first) : (firstBits 1 first).toNat = first.toNat ∧ (firstBits 2 first).toNat = first.toNat % 32 ∧
    (firstBits 3 first).toNat = first.toNat % 16 ∧ (firstBits 4 first).toNat = first.toNat % 8 := by
  refine ⟨by simp [firstBits],?_,?_,?_⟩
  · show (first &&& 0x1f).toUInt32.toNat = _
    rw [UInt8.toNat_toUInt32,UInt8.toNat_and,show (0x1f : UInt8).toNat = 2^5-1 from rfl,Nat.and_two_pow_sub_one_eq_mod]
  · show (first &&& 0x0f).toUInt32.toNat = _
    rw [UInt8.toNat_toUInt32,UInt8.toNat_and,show (0x0f : UInt8).toNat = 2^4-1 from rfl,Nat.and_two_pow_sub_one_eq_mod]
  · show (first &&& 0x07).toUInt32.toNat = _
    rw [UInt8.toNat_toUInt32,UInt8.toNat_and,show (0x07 : UInt8).toNat = 2^3-1 from rfl,Nat.and_two_pow_sub_one_eq_mod]

theorem widthRange {first width} : utf8SequenceWidth first = some width ↔
    width = 1 ∧ first.toNat ≤ 127 ∨ width = 2 ∧ 194 ≤ first.toNat ∧ first.toNat ≤ 223 ∨ width = 3 ∧ 224 ≤ first.toNat ∧ first.toNat ≤ 239 ∨
      width = 4 ∧ 240 ≤ first.toNat ∧ first.toNat ≤ 244 := by
  unfold utf8SequenceWidth
  simp only [UInt8.le_iff_toNat_le,UInt8.reduceToNat]
  repeat' split
  all_goals simp only [Option.some.injEq,reduceCtorEq,false_iff]
  all_goals omega

def InRange (width : Nat) (scalar : UInt32) : Prop := (scalar < minimumScalar width || isSurrogate scalar || 0x10ffff < scalar) = false

theorem inRange {width scalar} : InRange width scalar ↔
    (minimumScalar width).toNat ≤ scalar.toNat ∧ ¬(0xd800 ≤ scalar.toNat ∧ scalar.toNat ≤ 0xdfff) ∧ scalar.toNat < 0x110000 := by
  simp only [InRange,Bool.or_eq_false_iff,decide_eq_false_iff_not,Bool.eq_false_iff.trans (not_congr surrogateRange),
    UInt32.lt_iff_toNat_lt,UInt32.reduceToNat,Nat.not_lt]
  omega

def Spells (first : UInt8) (tail : List UInt8) (scalar : UInt32) : Prop :=
  utf8SequenceWidth first = some (tail.length+1) ∧ (∀ octet ∈ tail, isContinuation octet = true) ∧
    scalar = tail.foldl addOctet (firstBits (tail.length+1) first) ∧ InRange (tail.length+1) scalar

-- A continuation octet holds the scalar's next six bits below its mark.
theorem sextet {n high low : Nat} (number : n = high*64 + low % 64) : n/64 = high ∧ n % 64 = low % 64 := by
  omega

theorem continuedOctet {octet} (continues : isContinuation octet = true) : UInt8.ofNat (octet.toNat % 64+128) = octet := by
  have range := continuationRange.mp continues
  exact ofNatIs octet (by omega)

theorem continued (n) : isContinuation (UInt8.ofNat (n % 64+128)) = true := by
  have value := byteNat (show n % 64+128 < 256 by omega)
  exact continuationRange.mpr (by rw [value]; omega)

theorem addContinued (scalar n) (small : scalar.toNat < 2^26) :
    (addOctet scalar (UInt8.ofNat (n % 64+128))).toNat = scalar.toNat*64 + n % 64 := by
  rw [addOctetNat _ _ small,byteNat (show n % 64+128 < 256 by omega)]
  omega

theorem spelledTwo {first a : UInt8} {c : Char} (low : 194 ≤ first.toNat) (high : first.toNat ≤ 223) (above : 128 ≤ c.val.toNat)
    (continues : isContinuation a = true) (value : c.val = addOctet (firstBits 2 first) a) : String.utf8EncodeChar c = [first,a] := by
  obtain ⟨_,bits,_⟩ := firstBitsNat first
  have number : c.val.toNat = first.toNat % 32*64 + a.toNat % 64 := by
    rw [value,addOctetNat _ _ (by omega),bits]
  obtain ⟨up,last⟩ := sextet number
  rw [encodeTwo above (by omega),up,last,Nat.mod_mod,continuedOctet continues,ofNatIs first (by omega)]

theorem spelledThree {first a b : UInt8} {c : Char} (low : 224 ≤ first.toNat) (high : first.toNat ≤ 239) (above : 2048 ≤ c.val.toNat)
    (continuesA : isContinuation a = true) (continuesB : isContinuation b = true)
    (value : c.val = addOctet (addOctet (firstBits 3 first) a) b) : String.utf8EncodeChar c = [first,a,b] := by
  obtain ⟨_,_,bits,_⟩ := firstBitsNat first
  have inner := addOctetNat (firstBits 3 first) a (by omega)
  have number : c.val.toNat = (first.toNat % 16*64 + a.toNat % 64)*64 + b.toNat % 64 := by
    rw [value,addOctetNat _ _ (by omega),inner,bits]
  obtain ⟨up,last⟩ := sextet number
  obtain ⟨top,mid⟩ := sextet up
  rw [Nat.div_div_eq_div_mul] at top
  rw [encodeThree above (by omega),top,mid,last,Nat.mod_mod,continuedOctet continuesA,continuedOctet continuesB,ofNatIs first (by omega)]

theorem spelledFour {first a b d : UInt8} {c : Char} (low : 240 ≤ first.toNat) (high : first.toNat ≤ 244) (above : 65536 ≤ c.val.toNat)
    (continuesA : isContinuation a = true) (continuesB : isContinuation b = true) (continuesD : isContinuation d = true)
    (value : c.val = addOctet (addOctet (addOctet (firstBits 4 first) a) b) d) : String.utf8EncodeChar c = [first,a,b,d] := by
  obtain ⟨_,_,_,bits⟩ := firstBitsNat first
  have inner := addOctetNat (firstBits 4 first) a (by omega)
  have outer := addOctetNat (addOctet (firstBits 4 first) a) b (by omega)
  have number : c.val.toNat = ((first.toNat % 8*64 + a.toNat % 64)*64 + b.toNat % 64)*64 + d.toNat % 64 := by
    rw [value,addOctetNat _ _ (by omega),outer,inner,bits]
  obtain ⟨up,last⟩ := sextet number
  obtain ⟨top,mid⟩ := sextet up
  obtain ⟨lead,early⟩ := sextet top
  rw [Nat.div_div_eq_div_mul] at early
  rw [Nat.div_div_eq_div_mul,Nat.div_div_eq_div_mul] at lead
  rw [encodeFour above,lead,early,mid,last,Nat.mod_mod,continuedOctet continuesA,continuedOctet continuesB,continuedOctet continuesD,
    ofNatIs first (by omega)]

theorem spelledScalar {first tail scalar} (spells : Spells first tail scalar) :
    ∃ c, c.val = scalar ∧ String.utf8EncodeChar c = first :: tail := by
  obtain ⟨width,all,value,range⟩ := spells
  obtain ⟨above,apart,below⟩ := inRange.mp range
  have valid : scalar.isValidChar := by
    omega
  refine ⟨⟨scalar,valid⟩,rfl,?_⟩
  have ranges := widthRange.mp width
  match tail with
  | [] =>
    have few : first.toNat ≤ 127 := by simpa using ranges
    have number : scalar.toNat = first.toNat := (congrArg UInt32.toNat value).trans (firstBitsNat first).1
    exact (encodeOne (number.trans_le few)).trans (congrArg (· :: []) (ofNatIs first number))
  | [a] =>
    obtain ⟨low,high⟩ : 194 ≤ first.toNat ∧ first.toNat ≤ 223 := by simpa using ranges
    exact spelledTwo low high above (all a (by simp)) value
  | [a,b] =>
    obtain ⟨low,high⟩ : 224 ≤ first.toNat ∧ first.toNat ≤ 239 := by simpa using ranges
    exact spelledThree low high above (all a (by simp)) (all b (by simp)) value
  | [a,b,d] =>
    obtain ⟨low,high⟩ : 240 ≤ first.toNat ∧ first.toNat ≤ 244 := by simpa using ranges
    exact spelledFour low high above (all a (by simp)) (all b (by simp)) (all d (by simp)) value
  | _ :: _ :: _ :: _ :: _ =>
    simp only [List.length_cons] at ranges
    omega

theorem spellsOne {scalar : UInt32} (high : scalar.toNat ≤ 127) : Spells (UInt8.ofNat scalar.toNat) [] scalar := by
  have lead := byteNat (show scalar.toNat < 256 by omega)
  refine ⟨widthRange.mpr (Or.inl ⟨rfl,by rwa [lead]⟩),by simp,UInt32.toNat_inj.mp ?_,inRange.mpr ⟨Nat.zero_le _,by omega,by omega⟩⟩
  exact ((firstBitsNat (UInt8.ofNat scalar.toNat)).1.trans lead).symm

theorem spellsTwo {scalar : UInt32} (low : 127 < scalar.toNat) (high : scalar.toNat ≤ 2047) :
    Spells (UInt8.ofNat (scalar.toNat/64 % 32+192)) [UInt8.ofNat (scalar.toNat % 64+128)] scalar := by
  have lead := byteNat (show scalar.toNat/64 % 32+192 < 256 by omega)
  obtain ⟨_,bits,_⟩ := firstBitsNat (UInt8.ofNat (scalar.toNat/64 % 32+192))
  rw [lead] at bits
  refine ⟨widthRange.mpr (Or.inr (Or.inl ⟨rfl,by rw [lead]; omega⟩)),fun octet inside => ?_,UInt32.toNat_inj.mp ?_,
    inRange.mpr ⟨low,by omega,by omega⟩⟩
  · rw [List.mem_singleton.mp inside]
    exact continued scalar.toNat
  · show _ = (addOctet (firstBits 2 _) _).toNat
    rw [addContinued _ _ (by omega),bits]
    omega

theorem spellsThree {scalar : UInt32} (low : 2047 < scalar.toNat) (high : scalar.toNat ≤ 65535)
    (apart : ¬(0xd800 ≤ scalar.toNat ∧ scalar.toNat ≤ 0xdfff)) :
    Spells (UInt8.ofNat (scalar.toNat/4096 % 16+224)) [UInt8.ofNat (scalar.toNat/64 % 64+128),UInt8.ofNat (scalar.toNat % 64+128)]
      scalar := by
  have lead := byteNat (show scalar.toNat/4096 % 16+224 < 256 by omega)
  obtain ⟨_,_,bits,_⟩ := firstBitsNat (UInt8.ofNat (scalar.toNat/4096 % 16+224))
  rw [lead] at bits
  refine ⟨widthRange.mpr (Or.inr (Or.inr (Or.inl ⟨rfl,by rw [lead]; omega⟩))),fun octet inside => ?_,UInt32.toNat_inj.mp ?_,
    inRange.mpr ⟨low,apart,by omega⟩⟩
  · simp only [List.mem_cons,List.not_mem_nil,or_false] at inside
    obtain same | same := inside
    · exact same ▸ continued _
    · exact same ▸ continued _
  · show _ = (addOctet (addOctet (firstBits 3 _) _) _).toNat
    have inner := addContinued (firstBits 3 (UInt8.ofNat (scalar.toNat/4096 % 16+224))) (scalar.toNat/64) (by omega)
    rw [addContinued _ _ (by omega),inner,bits]
    omega

theorem spellsFour {scalar : UInt32} (low : 65535 < scalar.toNat) (high : scalar.toNat < 0x110000) :
    Spells (UInt8.ofNat (scalar.toNat/262144 % 8+240)) [UInt8.ofNat (scalar.toNat/4096 % 64+128),UInt8.ofNat (scalar.toNat/64 % 64+128),
      UInt8.ofNat (scalar.toNat % 64+128)] scalar := by
  have lead := byteNat (show scalar.toNat/262144 % 8+240 < 256 by omega)
  obtain ⟨_,_,_,bits⟩ := firstBitsNat (UInt8.ofNat (scalar.toNat/262144 % 8+240))
  rw [lead] at bits
  refine ⟨widthRange.mpr (Or.inr (Or.inr (Or.inr ⟨rfl,by rw [lead]; omega⟩))),fun octet inside => ?_,UInt32.toNat_inj.mp ?_,
    inRange.mpr ⟨low,by omega,high⟩⟩
  · simp only [List.mem_cons,List.not_mem_nil,or_false] at inside
    obtain same | same | same := inside
    · exact same ▸ continued _
    · exact same ▸ continued _
    · exact same ▸ continued _
  · show _ = (addOctet (addOctet (addOctet (firstBits 4 _) _) _) _).toNat
    have inner := addContinued (firstBits 4 (UInt8.ofNat (scalar.toNat/262144 % 8+240))) (scalar.toNat/4096) (by omega)
    have outer := addContinued (addOctet (firstBits 4 (UInt8.ofNat (scalar.toNat/262144 % 8+240))) (UInt8.ofNat (scalar.toNat/4096 % 64+128)))
      (scalar.toNat/64) (by omega)
    rw [addContinued _ _ (by omega),outer,inner,bits]
    omega

theorem charSpells {c first tail} (encoded : String.utf8EncodeChar c = first :: tail) : Spells first tail c.val := by
  have valid : c.val.toNat < 0xd800 ∨ 0xdfff < c.val.toNat ∧ c.val.toNat < 0x110000 := c.valid
  obtain one | above := Nat.lt_or_ge 127 c.val.toNat |>.symm
  · cases (encodeOne one).symm.trans encoded
    exact spellsOne one
  obtain two | above' := Nat.lt_or_ge 2047 c.val.toNat |>.symm
  · cases (encodeTwo above two).symm.trans encoded
    exact spellsTwo above two
  obtain three | four := Nat.lt_or_ge 65535 c.val.toNat |>.symm
  · cases (encodeThree above' three).symm.trans encoded
    exact spellsThree above' three (by omega)
  · cases (encodeFour four).symm.trans encoded
    exact spellsFour four (by omega)

end Bits

theorem decodeReads {units scalar consumed} : decodePercentScalar units = some (scalar,consumed) ↔
    ∃ (c : Char) (escape rest : List UInt16), c.val = scalar ∧ units = escape ++ rest ∧ Escaped (String.utf8EncodeChar c) escape ∧ consumed = escape.length := by
  constructor
  · intro found
    obtain ⟨first,lead,found⟩ := Option.bind_eq_some_iff.mp found
    obtain ⟨width,sized,found⟩ := Option.bind_eq_some_iff.mp found
    obtain ⟨value,continues,found⟩ := Option.bind_eq_some_iff.mp found
    split at found
    · cases found
    · rename_i range
      cases found
      obtain ⟨tail,length,reads,all,same⟩ := continueReads.mp continues
      have positive : width = tail.length+1 := by
        have ranges := widthRange.mp sized
        omega
      subst positive
      obtain ⟨c,same,encoded⟩ := spelledScalar ⟨sized,all,same,Bool.eq_false_iff.mpr range⟩
      have each : ∀ (i : Nat) octet, (first :: tail)[i]? = some octet → percentOctet units (i*3) = some octet := by
        intro i octet at_
        cases i with
        | zero =>
          cases at_
          exact lead
        | succ i =>
          have read := reads i octet at_
          rwa [Nat.add_comm 1 i] at read
      obtain ⟨escape,rest,split,escaped⟩ := escapesRead.mp each
      refine ⟨c,escape,rest,same,split,encoded ▸ escaped,?_⟩
      rw [escapedLength escaped,List.length_cons,Nat.mul_comm]
  · intro found
    obtain ⟨c,escape,rest,same,split,escaped,length⟩ := found
    have reads := escapesRead.mpr ⟨escape,rest,split,escaped⟩
    rw [escapedLength escaped] at length
    cases encoded : String.utf8EncodeChar c with
    | nil =>
      have positive := c.utf8Size_pos
      rw [← String.length_utf8EncodeChar,encoded] at positive
      exact absurd positive (Nat.lt_irrefl 0)
    | cons first tail =>
      rw [encoded] at reads length
      obtain ⟨width,all,value,range⟩ := charSpells encoded
      have continues : continueScalar units (tail.length+1-1) 1 (firstBits (tail.length+1) first) = some c.val :=
        continueReads.mpr ⟨tail,rfl,fun i octet at_ => (by rw [Nat.add_comm]; exact reads (i+1) octet at_),all,value⟩
      unfold decodePercentScalar
      simp only [reads 0 first rfl,width,continues,bind,Option.bind_some]
      rw [if_neg (Bool.eq_false_iff.mp range),same,length,List.length_cons,Nat.mul_comm]

end Bamts.Uri
