import Bamts.Binary64
import Bamts.BinaryFormat
import Bamts.CheckedWord
import Bamts.Numeral

/-! Hexadecimal, octal and binary literals: the first bits and the sticky bit, rounded once. -/
set_option linter.all false
namespace Bamts.RadixLiteral
open Binary64 BinaryFormat CheckedWord NearestPoint

def digitValue (radix : Nat) (c : Char) : Nat :=
  if '0' ≤ c ∧ c ≤ '9' then c.toNat-48
  else if 'a' ≤ c ∧ c ≤ 'z' then c.toNat-87
  else if 'A' ≤ c ∧ c ≤ 'Z' then c.toNat-55
  else radix

def toDigit (radix : Nat) (c : Char) : Option Nat := if digitValue radix c < radix then some (digitValue radix c) else none

def trailingZeros (value : Nat) : Nat := ((List.range 32).find? fun place => value.testBit place).getD 32

structure Bits where
  any : Bool
  significant : Bool
  bitLength : Nat
  prefix_ : Nat
  sticky : Bool
  deriving DecidableEq

def start : Bits := ⟨false,false,0,0,false⟩

def shiftIn (value bit : Nat) : Nat := value*2%2^64 ||| bit

def pushBit (bits : Bits) (bit : Nat) : Bits :=
  if !bits.significant && bit == 0 then bits
  else if saturating (bits.bitLength+1) ≤ 54 then ⟨bits.any,true,saturating (bits.bitLength+1),shiftIn bits.prefix_ bit,bits.sticky⟩
  else ⟨bits.any,true,saturating (bits.bitLength+1),bits.prefix_,bits.sticky || bit != 0⟩

def pushDigit (bitsPerDigit : Nat) (bits : Bits) (digit : Nat) : Bits :=
  (List.range bitsPerDigit).reverse.foldl (fun bits place => pushBit bits (digit >>> place &&& 1)) { bits with any := true }

def roundGuard (value : Nat) (sticky : Bool) : Option Nat :=
  if value &&& 1 != 0 && (sticky || value >>> 1 &&& 1 != 0) then add (value >>> 1) 1 else some (value >>> 1)

-- The exponent and the significand; `none` is an overflow or a shift out of range.
def round (bits : Bits) : Option (Nat × Nat) := do
  let exponent ← subtract bits.bitLength 1
  if bits.bitLength ≤ 53 then
    let count ← subtract 53 bits.bitLength
    let significand ← shiftLeft bits.prefix_ count
    some (exponent,significand)
  else
    let rounded ← roundGuard bits.prefix_ bits.sticky
    if rounded = 2^53 then some (saturating (exponent+1),rounded >>> 1) else some (exponent,rounded)

def assemble (exponent significand : Nat) : Option Double :=
  if 1023 < exponent then some Double.infinity
  else if 2^52 ≤ significand ∧ significand < 2^53 then do
    let biased ← add exponent 1023
    let high ← shiftLeft biased 52
    some ⟨UInt64.ofNat (high ||| (significand &&& (2^52-1)))⟩
  else none

-- The outer option is the panic, of the assertion and of the arithmetic.
def radixValue (digits : List Char) (radix : Nat) : Option (Option Double) :=
  match (digits.filter (· != '_')).foldlM (fun bits c => (toDigit radix c).map (pushDigit (trailingZeros radix) bits)) start with
  | none => some none
  | some bits =>
    if !bits.any then some none
    else if !bits.significant then some (some Double.zero)
    else do
      let (exponent,significand) ← round bits
      return some (← assemble exponent significand)

/-- The integer that the digits denote, without the separators. -/
def denoted (digits : List Char) (radix : Nat) : Nat := Numeral.read radix (digits.filterMap (toDigit radix))

/-- What has been read of a number: its first bits, at most as many as are kept, and whether a later one is set. -/
structure Holds (bits : Bits) (length k r n : Nat) : Prop where
  significant : bits.significant = true
  split : n = bits.prefix_*2^k+r
  rest : r < 2^k
  sticky : bits.sticky = true ↔ r ≠ 0
  positive : 0 < length
  least : 2^(length-1) ≤ bits.prefix_
  most : bits.prefix_ < 2^length
  kept : length ≤ 54
  full : k = 0 ∨ length = 54
  counted : bits.bitLength = saturating (length+k)

def Read (bits : Bits) (n : Nat) : Prop := bits.significant = false ∧ bits = ⟨bits.any,false,0,0,false⟩ ∧ n = 0 ∨ ∃ length k r, Holds bits length k r n

theorem shiftInExact {value bit} (room : value < 2^63) (small : bit < 2) : shiftIn value bit = value*2+bit := by
  rw [shiftIn,Nat.mod_eq_of_lt (by omega)]
  exact joinBits 1 small

theorem saturatingSmall {count} (small : count ≤ 54) : saturating count = count := Nat.min_eq_left (by omega)

theorem saturatingLarge {count} (large : 54 < count) : 54 < saturating count := by
  unfold saturating
  omega

theorem pushFirst (bits) (clear : bits = ⟨bits.any,false,0,0,false⟩) : pushBit bits 1 = ⟨bits.any,true,1,1,false⟩ := by
  have length : saturating (0+1) = 1 := saturatingSmall (by decide)
  rw [clear,pushBit,if_neg (by simp)]
  dsimp only
  rw [length,if_pos (by decide),shiftInExact (by decide) (by decide)]

theorem pushKept {bits bit length} (significant : bits.significant = true) (counted : saturating (bits.bitLength+1) = length)
    (room : length ≤ 54) : pushBit bits bit = ⟨bits.any,true,length,shiftIn bits.prefix_ bit,bits.sticky⟩ := by
  rw [pushBit,if_neg (by simp [significant]),counted,if_pos room]

theorem pushDropped {bits bit length} (significant : bits.significant = true) (counted : saturating (bits.bitLength+1) = length)
    (full : 54 < length) : pushBit bits bit = ⟨bits.any,true,length,bits.prefix_,bits.sticky || bit != 0⟩ := by
  rw [pushBit,if_neg (by simp [significant]),counted,if_neg (Nat.not_le.mpr full)]

theorem Holds.next {bits length k r n bit} (holds : Holds bits length k r n) (small : bit < 2) :
    ∃ length k r, Holds (pushBit bits bit) length k r (2*n+bit) := by
  obtain ⟨significant,split,rest,sticky,positive,least,most,kept,full,counted⟩ := holds
  have step : saturating (bits.bitLength+1) = saturating (length+k+1) := by rw [counted,saturatingNext]
  rcases Nat.lt_or_ge 54 (length+k+1) with past | room
  · obtain rfl : length = 54 := by omega
    rw [pushDropped significant step (saturatingLarge past)]
    refine ⟨54,k+1,2*r+bit,rfl,?_,?_,?_,positive,least,most,kept,.inr rfl,rfl⟩
    · dsimp only
      rw [split,pow_succ]
      ring
    · rw [pow_succ]
      omega
    · dsimp only
      rw [Bool.or_eq_true,sticky,bne_iff_ne]
      omega
  · obtain rfl : k = 0 := by omega
    obtain rfl : r = 0 := by omega
    have word : bits.prefix_ < 2^63 := lt_of_lt_of_le most (Nat.pow_le_pow_right two_pos (by omega))
    obtain ⟨j,rfl⟩ := Nat.exists_eq_succ_of_ne_zero positive.ne'
    rw [saturatingSmall room] at step
    rw [pushKept significant step room,shiftInExact word small]
    rw [Nat.succ_sub_one] at least
    refine ⟨j+2,0,0,rfl,?_,Nat.one_pos,sticky,Nat.succ_pos _,?_,?_,room,.inl rfl,(saturatingSmall room).symm⟩
    · dsimp only
      omega
    · dsimp only
      rw [Nat.add_sub_assoc (by decide),pow_succ]
      omega
    · dsimp only
      rw [pow_succ]
      omega

theorem Read.next {bits n bit} (read : Read bits n) (small : bit < 2) : Read (pushBit bits bit) (2*n+bit) := by
  rcases read with ⟨clear,state,rfl⟩ | ⟨length,k,r,holds⟩
  · rcases Nat.eq_zero_or_pos bit with rfl | one
    · rw [pushBit,clear]
      exact .inl ⟨clear,state,rfl⟩
    · obtain rfl : bit = 1 := by omega
      rw [pushFirst bits state]
      exact .inr ⟨1,0,0,rfl,rfl,Nat.one_pos,by simp,Nat.one_pos,le_rfl,Nat.one_lt_two,Nat.le_of_ble_eq_true rfl,.inl rfl,(@saturatingSmall 1 (by decide)).symm⟩
  · exact .inr (holds.next small)

theorem Read.digit {bits n digit} (count) (read : Read bits n) (small : digit < 2^count) :
    Read (pushDigit count bits digit) (n*2^count+digit) := by
  have run : ∀ places bits n, Read bits n →
      Read ((List.range places).reverse.foldl (fun bits place => pushBit bits (digit >>> place &&& 1)) bits) (n*2^places+digit%2^places) := by
    intro places
    induction places with
    | zero =>
      intro bits n read
      rw [pow_zero,Nat.mul_one,Nat.mod_one]
      exact read
    | succ places ih =>
      intro bits n read
      rw [List.range_succ,List.reverse_append,List.reverse_singleton,List.singleton_append,List.foldl_cons]
      have bit : digit >>> places &&& 1 < 2 := by
        rw [Nat.and_one_is_mod]
        exact Nat.mod_lt _ two_pos
      have later := ih _ _ (read.next bit)
      have same : (2*n+(digit >>> places &&& 1))*2^places+digit%2^places = n*2^(places+1)+digit%2^(places+1) := by
        rw [Nat.and_one_is_mod,Nat.shiftRight_eq_div_pow,pow_succ,Nat.mod_mul]
        ring
      rwa [same] at later
  have clear : Read { bits with any := true } n := by
    rcases read with ⟨clear,state,zero⟩ | ⟨length,k,r,⟨significant,split,rest,sticky,positive,least,most,kept,full,counted⟩⟩
    · rw [state]
      exact .inl ⟨rfl,rfl,zero⟩
    · exact .inr ⟨length,k,r,significant,split,rest,sticky,positive,least,most,kept,full,counted⟩
  have read_ := run count _ _ clear
  rwa [Nat.mod_eq_of_lt small] at read_

theorem infinityCode : binary64.infinity = 2047*2^52 := by decide

/-- The pattern of an exponent and a significand, as long as the exponent is of the format. -/
theorem assembled {exponent significand} (low : 2^52 ≤ significand) (high : significand < 2^53) :
    ∃ x, assemble exponent significand = some x ∧ x.bits.toNat = min ((exponent+1022)*2^52+significand) binary64.infinity := by
  rw [infinityCode,assemble]
  split
  · refine ⟨Double.infinity,rfl,?_⟩
    have bits : Double.infinity.bits.toNat = 2047*2^52 := by decide
    omega
  · rename_i small
    have biased : add exponent 1023 = some (exponent+1023) := addExact (by omega)
    have shifted : shiftLeft (exponent+1023) 52 = some ((exponent+1023)*2^52) := shiftLeftExact (by decide) (by omega)
    have part : significand &&& (2^52-1) = significand-2^52 := by
      rw [Nat.and_two_pow_sub_one_eq_mod]
      omega
    rw [if_pos ⟨low,high⟩,biased,Option.bind_eq_bind,Option.bind_some,shifted,Option.bind_some,part,
      joinBits 52 (by omega)]
    refine ⟨_,rfl,?_⟩
    rw [UInt64.toNat_ofNat_of_lt' (by simp only [UInt64.size]; omega)]
    omega

theorem saturatingCode {total significand} (positive : 0 < total) :
    min ((saturating total-1+1022)*2^52+significand) binary64.infinity = min ((total+1021)*2^52+significand) binary64.infinity := by
  rw [infinityCode]
  unfold saturating
  omega

/-- The guard bit and the sticky bit decide as the rest of the division does. -/
theorem roundGuardEven {value r k sticky} (small : value < 2^54) (rest : r < 2^k) (later : sticky = true ↔ r ≠ 0) :
    roundGuard value sticky = some (roundEven (value/2) (value%2*2^k+r) (2^(k+1))) := by
  rw [roundGuard,Nat.and_one_is_mod,Nat.and_one_is_mod,Nat.shiftRight_one,roundEven]
  have up : ((value%2 != 0 && (sticky || value/2%2 != 0)) = true) ↔
      (2^(k+1) < 2*(value%2*2^k+r) ∨ 2*(value%2*2^k+r) = 2^(k+1) ∧ value/2%2 = 1) := by
    rw [Bool.and_eq_true,Bool.or_eq_true,later,bne_iff_ne,bne_iff_ne,pow_succ]
    rcases Nat.mod_two_eq_zero_or_one value with even | odd
    · rw [even,Nat.zero_mul]
      omega
    · rw [odd,Nat.one_mul]
      omega
  by_cases cond : (value%2 != 0 && (sticky || value/2%2 != 0)) = true
  · rw [if_pos cond,if_pos (up.mp cond),addExact (by omega)]
  · rw [if_neg cond,if_neg fun past => cond (up.mpr past)]

theorem leastScale (k : Nat) : (2 : ℚ)^(1074+k)*binary64.least = 2^k := by
  have unit : binary64.least = 1/2^1074 := rfl
  rw [unit,pow_add]
  field_simp

/-- What the first bits round to is what the number rounds to. -/
def RoundsTo (bits : Bits) (n : Nat) : Prop := ∃ exponent significand code,
    round bits = some (exponent,significand) ∧ 2^52 ≤ significand ∧ significand < 2^53 ∧
    min ((exponent+1022)*2^52+significand) binary64.infinity = min code binary64.infinity ∧ Nearest binary64.magnitude n code

/-- With room for all the bits. -/
theorem roundsShort {bits j} (short : j ≤ 52) (least : 2^j ≤ bits.prefix_) (most : bits.prefix_ < 2^(j+1))
    (counted : bits.bitLength = j+1) : RoundsTo bits bits.prefix_ := by
  have scaled : 2^52 ≤ bits.prefix_*2^(52-j) ∧ bits.prefix_*2^(52-j) < 2^53 := by
    have one : 2^52 = 2^j*2^(52-j) := by rw [← pow_add,Nat.add_sub_cancel' short]
    have two : 2^53 = 2^(j+1)*2^(52-j) := by rw [← pow_add,Nat.add_right_comm,Nat.add_sub_cancel' short]
    rw [one,two]
    exact ⟨Nat.mul_le_mul_right _ least,Nat.mul_lt_mul_of_pos_right most (Nat.two_pow_pos _)⟩
  refine ⟨j,bits.prefix_*2^(52-j),(j+1022)*2^52+bits.prefix_*2^(52-j),?_,scaled.1,scaled.2,rfl,?_⟩
  · have exponent : subtract bits.bitLength 1 = some j := by rw [counted]; rfl
    have count : subtract 53 bits.bitLength = some (52-j) := by
      rw [counted,subtract,if_pos (Nat.succ_le_succ short),Nat.succ_sub_succ]
    have significand : shiftLeft bits.prefix_ (52-j) = some (bits.prefix_*2^(52-j)) := shiftLeftExact (by omega) (by omega)
    rw [round,exponent,Option.bind_eq_bind,Option.bind_some,if_pos (by omega),count,Option.bind_some,significand]
    rfl
  · refine @Format.nearestPacked binary64 bits.prefix_ (j+1022) (bits.prefix_*2^(52-j)) 0 1 (.inr scaled.1) scaled.2 Nat.one_pos ?_
    have place : (2 : ℚ)^(52-j)*2^(j+1022) = 2^(1074+0) := by rw [← pow_add,show 52-j+(j+1022) = 1074+0 by omega]
    push_cast
    rw [mul_one,mul_one,add_zero,mul_assoc (bits.prefix_ : ℚ),place,mul_assoc,leastScale,pow_zero,mul_one]

theorem roundsLong {bits k r n} (split : n = bits.prefix_*2^k+r) (rest : r < 2^k) (sticky : bits.sticky = true ↔ r ≠ 0)
    (least : 2^53 ≤ bits.prefix_) (most : bits.prefix_ < 2^54) (counted : bits.bitLength = saturating (54+k)) : RoundsTo bits n := by
  have some_ : 53 < saturating (54+k) := by
    unfold saturating
    omega
  have exponent : subtract bits.bitLength 1 = some (saturating (54+k)-1) := by
    rw [subtract,if_pos (by omega),counted]
  have again : saturating (saturating (54+k)-1+1) = saturating (54+k) := by
    unfold saturating
    omega
  have run : round bits = (roundGuard bits.prefix_ bits.sticky).bind fun rounded =>
      if rounded = 2^53 then some (saturating (saturating (54+k)-1+1),rounded >>> 1) else some (saturating (54+k)-1,rounded) := by
    rw [round,exponent,Option.bind_eq_bind,Option.bind_some,if_neg (by omega)]
  have code := fun m => @saturatingCode (54+k) m (by omega)
  have range : bits.prefix_/2 ≤ roundEven (bits.prefix_/2) (bits.prefix_%2*2^k+r) (2^(k+1)) ∧
      roundEven (bits.prefix_/2) (bits.prefix_%2*2^k+r) (2^(k+1)) ≤ bits.prefix_/2+1 := by
    rw [roundEven]
    split <;> omega
  have less : bits.prefix_%2*2^k+r < 2^(k+1) := by
    have part := Nat.mul_le_mul_right (2^k) (show bits.prefix_%2 ≤ 1 by omega)
    omega
  have whole : n = bits.prefix_/2*2^(k+1)+(bits.prefix_%2*2^k+r) := by
    rw [split,pow_succ]
    nth_rewrite 1 [← Nat.div_add_mod bits.prefix_ 2]
    ring
  have nearest := @Format.nearestPacked binary64 n (54+k+1021) (bits.prefix_/2) (bits.prefix_%2*2^k+r) (2^(k+1))
    (.inr (show 2^52 ≤ _ by omega)) (show _ < 2^53 by omega) less ?_
  · rw [roundGuardEven most rest sticky,Option.bind_some] at run
    generalize roundEven (bits.prefix_/2) (bits.prefix_%2*2^k+r) (2^(k+1)) = m at run range nearest
    by_cases carry : m = 2^53
    · rw [if_pos carry,again,carry] at run
      have same : (saturating (54+k)+1022)*2^52+2^52 = (saturating (54+k)-1+1022)*2^52+m := by omega
      exact ⟨saturating (54+k),2^52,(54+k+1021)*2^52+m,run,le_rfl,by decide,by rw [same,code],nearest⟩
    · rw [if_neg carry] at run
      exact ⟨saturating (54+k)-1,m,(54+k+1021)*2^52+m,run,by omega,by omega,code m,nearest⟩
  · rw [show 54+k+1021 = 1074+(k+1) by omega,mul_assoc _ (2^_),leastScale]
    exact_mod_cast congrArg (· * 2^(k+1)) whole

theorem Holds.rounds {bits length k r n} (holds : Holds bits length k r n) : RoundsTo bits n := by
  obtain ⟨-,split,rest,sticky,positive,least,most,kept,full,counted⟩ := holds
  obtain ⟨j,rfl⟩ := Nat.exists_eq_succ_of_ne_zero positive.ne'
  rcases Nat.lt_or_ge 52 j with long | short
  · obtain rfl : j = 53 := by omega
    exact roundsLong split rest sticky least most counted
  · obtain rfl : k = 0 := by omega
    obtain rfl : r = 0 := by omega
    rw [pow_zero,Nat.mul_one] at split
    rw [split]
    exact roundsShort short least most (by rw [counted,Nat.add_zero,saturatingSmall kept])

theorem pushBitAny (bits bit) : (pushBit bits bit).any = bits.any := by
  rw [pushBit]
  split
  · rfl
  · split <;> rfl

theorem pushDigitAny (count bits digit) : (pushDigit count bits digit).any = true := by
  have run : ∀ (places : List Nat) (bits : Bits), bits.any = true →
      (places.foldl (fun bits place => pushBit bits (digit >>> place &&& 1)) bits).any = true := by
    intro places
    induction places with
    | nil => exact fun _ any => any
    | cons place places ih => exact fun bits any => ih _ (by rw [pushBitAny,any])
  exact run _ _ rfl

theorem digitLess {radix d c} (digit : toDigit radix c = some d) : d < radix := by
  rw [toDigit] at digit
  split at digit
  · rename_i less
    obtain rfl := Option.some.inj digit
    exact less
  · cases digit

theorem separatorNone (radix) : toDigit radix '_' = none := if_neg (Nat.lt_irrefl radix)

/-- The characters push the number that the digits before them and they denote. -/
theorem scanned {radix count} (power : radix = 2^count) (zeros : trailingZeros radix = count) (chars)
    (all : ∀ c ∈ chars, (toDigit radix c).isSome) : ∀ {bits : Bits} {n : Nat}, Read bits n →
    ∃ bits', chars.foldlM (fun bits c => (toDigit radix c).map (pushDigit (trailingZeros radix) bits)) bits = some bits' ∧
      Read bits' ((chars.filterMap (toDigit radix)).foldl (fun n d => n*radix+d) n) ∧ (bits.any = true ∨ chars ≠ [] → bits'.any = true) := by
  induction chars with
  | nil => exact fun {bits} n read => ⟨bits,rfl,read,fun some_ => some_.resolve_right fun empty => empty rfl⟩
  | cons c chars ih =>
    intro bits n read
    obtain ⟨d,digit⟩ := Option.isSome_iff_exists.mp (all c List.mem_cons_self)
    have less := digitLess digit
    rw [power] at less
    have next := read.digit count less
    obtain ⟨bits',run,read',any⟩ := ih (fun c' at_ => all c' (List.mem_cons_of_mem c at_)) next
    refine ⟨bits',?_,?_,fun _ => any (.inl (pushDigitAny _ _ _))⟩
    · rw [List.foldlM_cons,digit,Option.map_some,zeros]
      rw [zeros] at run
      exact run
    · rw [List.filterMap_cons_some digit,List.foldl_cons]
      rw [← power] at read'
      exact read'

theorem filteredDigits (digits : List Char) (radix) :
    (digits.filter (· != '_')).filterMap (toDigit radix) = digits.filterMap (toDigit radix) := by
  rw [List.filterMap_filter]
  congr 1
  funext c
  by_cases separator : c = '_'
  · rw [separator,separatorNone]
    rfl
  · rw [if_pos (bne_iff_ne.mpr separator)]

theorem denotedKept (digits radix) :
    denoted digits radix = ((digits.filter (· != '_')).filterMap (toDigit radix)).foldl (fun n d => n*radix+d) 0 := by
  rw [denoted,Numeral.read,filteredDigits]

theorem Holds.some {bits length k r n} (holds : Holds bits length k r n) : 0 < n := by
  have first := Nat.mul_pos (lt_of_lt_of_le (Nat.two_pow_pos _) holds.least) (Nat.two_pow_pos k)
  have split := holds.split
  omega

theorem powerDifference {a b} (order : b ≤ a) : ((2^a-2^b : Nat) : ℚ) = 2^a-2^b := by
  rw [Nat.cast_sub (Nat.pow_le_pow_right two_pos order),Nat.cast_pow,Nat.cast_pow,Nat.cast_ofNat]

theorem roundsInfinity {n code : Nat} {x} (pattern : x.bits.toNat = min code binary64.infinity) (nearest : Nearest binary64.magnitude n code) :
    binary64.Rounds n x.bits.toNat ∧ (x = Double.infinity ↔ 2^1024-2^970 ≤ n) := by
  have positive : (0 : ℚ) ≤ n := Nat.cast_nonneg n
  have join : binary64.join false (min code binary64.infinity) = x.bits.toNat := by
    rw [Format.join,Bool.toNat_false,Nat.zero_mul,Nat.zero_add,pattern]
  have rounds := @Format.roundsNearest binary64 n code false positive nearest
  rw [join] at rounds
  refine ⟨rounds,?_⟩
  have infinite : x = Double.infinity ↔ binary64.infinity ≤ code := by
    rw [infinityCode] at pattern ⊢
    constructor
    · rintro rfl
      have bits : Double.infinity.bits.toNat = 2047*2^52 := by decide
      omega
    · intro past
      rw [Nat.min_eq_right past] at pattern
      exact congrArg Double.mk (UInt64.toNat_inj.mp pattern)
  rw [infinite,← Format.overflowIff nearest,overflow64]
  rw [← @Nat.cast_le ℚ,powerDifference (by decide)]

/-- A literal is the nearest number to what its digits denote. -/
theorem radixLiteralRounds {digits : List Char} {radix : Nat} (kind : radix = 16 ∨ radix = 8 ∨ radix = 2) (some_ : ∃ c ∈ digits, c ≠ '_')
    (all : ∀ c ∈ digits, c ≠ '_' → (toDigit radix c).isSome) : ∃ x : Double, radixValue digits radix = some (some x) ∧
    binary64.Rounds (denoted digits radix) x.bits.toNat ∧ (denoted digits radix = 0 → x = Double.zero) ∧
    (x = Double.infinity ↔ 2^1024-2^970 ≤ denoted digits radix) := by
  have powers : radix = 2^trailingZeros radix := by
    rcases kind with rfl | rfl | rfl <;> decide
  obtain ⟨bits,run,read,any⟩ := @scanned radix _ powers rfl (digits.filter (· != '_')) (fun c at_ => by
    rw [List.mem_filter,bne_iff_ne] at at_
    exact all c at_.1 at_.2) start 0 (.inl ⟨rfl,rfl,rfl⟩)
  have any_ := any (.inr (by
    obtain ⟨c,at_,digit⟩ := some_
    exact List.ne_nil_of_mem (List.mem_filter.mpr ⟨at_,bne_iff_ne.mpr digit⟩)))
  rw [← denotedKept] at read
  generalize denoted digits radix = n at read ⊢
  rw [radixValue,run]
  dsimp only
  rw [any_,if_neg (by decide)]
  rcases read with ⟨clear,-,rfl⟩ | ⟨length,k,r,holds⟩
  · rw [clear,if_pos (show (!false) = true from rfl)]
    have exact_ := @nearestExact ℚ _ _ _ binary64.magnitude 0 binary64.magnitudeRising
    rw [binary64.magnitudeZero] at exact_
    obtain ⟨rounds,infinite⟩ := @roundsInfinity 0 0 Double.zero rfl (by exact_mod_cast exact_)
    exact ⟨Double.zero,rfl,rounds,fun _ => rfl,infinite⟩
  · rw [holds.significant,if_neg (show ¬(!true) = true by decide)]
    obtain ⟨exponent,significand,code,rounds,low,high,same,nearest⟩ := holds.rounds
    obtain ⟨x,assembled_,pattern⟩ := assembled low high
    rw [rounds,Option.bind_eq_bind,Option.bind_some]
    dsimp only
    rw [assembled_,Option.bind_eq_bind,Option.bind_some]
    obtain ⟨rounds_,infinite⟩ := @roundsInfinity n code x (pattern.trans same) nearest
    exact ⟨x,rfl,rounds_,fun zero => absurd zero holds.some.ne',infinite⟩

theorem radixLiteralHexadecimal : ∃ x : Double, radixValue ['1','_','f'] 16 = some (some x) ∧
    binary64.Rounds (denoted ['1','_','f'] 16) x.bits.toNat ∧ (denoted ['1','_','f'] 16 = 0 → x = Double.zero) ∧
    (x = Double.infinity ↔ 2^1024-2^970 ≤ denoted ['1','_','f'] 16) :=
  radixLiteralRounds (.inl rfl) ⟨'1',by decide,by decide⟩ (List.forall_iff_forall_mem.mp (by decide))

end Bamts.RadixLiteral
