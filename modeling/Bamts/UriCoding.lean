import Bamts.UriOctets

/-! The coding of text for URIs, and the older `escape` of single units. -/
set_option linter.all false
namespace Bamts.Uri
open Bytecode Linkage

def uriReserved : List UInt8 := [59,47,63,58,64,38,61,43,36,44,35]
def uriUnescaped : List UInt8 := [45,95,46,33,126,42,39,40,41]
def escapeUnescaped : List UInt8 := [64,42,95,43,45,46,47]

def isAsciiAlphanumeric (unit : UInt16) : Bool :=
  unit ≤ 255 && (48 ≤ unit.toUInt8 && unit.toUInt8 ≤ 57 || 65 ≤ unit.toUInt8 && unit.toUInt8 ≤ 90 || 97 ≤ unit.toUInt8 && unit.toUInt8 ≤ 122)

def componentUnescaped (unit : UInt16) : Bool := isAsciiAlphanumeric unit || unit ≤ 255 && uriUnescaped.contains unit.toUInt8

def encodeUnescaped (unit : UInt16) (preserveReserved : Bool) : Bool :=
  componentUnescaped unit || preserveReserved && unit ≤ 255 && uriReserved.contains unit.toUInt8

-- No result is the `Err(())` of the source.
def encodeUnits (preserveReserved : Bool) : List UInt16 → Option (List UInt16)
  | [] => some []
  | first :: rest =>
    if encodeUnescaped first preserveReserved then (encodeUnits preserveReserved rest).map (first :: ·)
    else if isHighSurrogate first then
      match rest with
      | [] => none
      | second :: rest =>
        if isLowSurrogate second then (encodeUnits preserveReserved rest).map (pushUtf8PercentEncoded (pairedCodePoint first second) ++ ·) else none
    else if isLowSurrogate first then none
    else (encodeUnits preserveReserved rest).map (pushUtf8PercentEncoded first.toUInt32 ++ ·)

def encode (source : EcmaString) (preserveReserved : Bool) : Option EcmaString := (encodeUnits preserveReserved source.asUnits).map EcmaString.fromUnits

def pushScalar (scalar : UInt32) : List UInt16 :=
  if scalar ≤ 0xffff then [scalar.toUInt16]
  else [(0xd800 : UInt16) ||| ((scalar-0x10000) >>> 10).toUInt16,(0xdc00 : UInt16) ||| ((scalar-0x10000) &&& 0x3ff).toUInt16]

def isReserved (scalar : UInt32) : Bool := scalar ≤ 255 && uriReserved.contains scalar.toUInt8

def decodeUnits (preserveReserved : Bool) : List UInt16 → Option (List UInt16)
  | [] => some []
  | unit :: rest =>
    if unit ≠ percent then (decodeUnits preserveReserved rest).map (unit :: ·)
    else match decodePercentScalar (unit :: rest) with
      | none => none
      | some (scalar,consumed) =>
        -- `consumed` is three at least.
        (decodeUnits preserveReserved (rest.drop (consumed-1))).map
          ((if preserveReserved && isReserved scalar then (unit :: rest).take consumed else pushScalar scalar) ++ ·)
  termination_by units => units.length

def decode (source : EcmaString) (preserveReserved : Bool) : Option EcmaString := (decodeUnits preserveReserved source.asUnits).map EcmaString.fromUnits

def escapeUnit (unit : UInt16) : List UInt16 :=
  if isAsciiAlphanumeric unit || unit ≤ 255 && escapeUnescaped.contains unit.toUInt8 then [unit]
  else if unit ≤ 255 then pushPercentOctet unit.toUInt8
  else [percent,117,hexDigit ((unit >>> 12) &&& 0x0f).toUInt8,hexDigit ((unit >>> 8) &&& 0x0f).toUInt8,
    hexDigit ((unit >>> 4) &&& 0x0f).toUInt8,hexDigit (unit &&& 0x0f).toUInt8]

def escapeUnits (source : EcmaString) : EcmaString := ⟨source.asUnits.flatMap escapeUnit⟩

def addDigit (value : UInt16) (digit : UInt8) : UInt16 := (value <<< 4) ||| digit.toUInt16

-- The four digits after `%u`.
def longEscape (units : List UInt16) : Option UInt16 :=
  if units[0]? = some percent ∧ units[1]? = some 117 then
    (List.range 4).foldlM (fun value index => do
      let digit ← hexValue (← units[index+2]?)
      some (addDigit value digit)) 0
  else none

def unescapeFrom : List UInt16 → List UInt16
  | [] => []
  | unit :: rest =>
    match longEscape (unit :: rest) with
    | some long => long :: unescapeFrom (rest.drop 5)
    | none =>
      match percentOctet (unit :: rest) 0 with
      | some octet => octet.toUInt16 :: unescapeFrom (rest.drop 2)
      | none => unit :: unescapeFrom rest
  termination_by units => units.length

def unescapeUnits (source : EcmaString) : EcmaString := ⟨unescapeFrom source.asUnits⟩

def UnpairedAt (units : List UInt16) (i : Nat) : Prop :=
  (∃ unit, units[i]? = some unit ∧ isHighSurrogate unit = true ∧ ∀ next, units[i+1]? = some next → isLowSurrogate next = false) ∨
  ∃ unit, units[i]? = some unit ∧ isLowSurrogate unit = true ∧ ∀ j before, i = j+1 → units[j]? = some before → isHighSurrogate before = false

def StartsEscape (units : List UInt16) : Prop :=
  ∃ (c : Char) (escape rest : List UInt16), units = escape ++ rest ∧ Escaped (String.utf8EncodeChar c) escape

inductive Reads : List UInt16 → List UInt16 → Prop where
  | here (units : List UInt16) : Reads units units
  | plain {unit : UInt16} {rest left : List UInt16} (other : unit ≠ percent) (later : Reads rest left) : Reads (unit :: rest) left
  | escape {c : Char} {escape rest left : List UInt16} (spelled : Escaped (String.utf8EncodeChar c) escape) (later : Reads rest left) :
    Reads (escape ++ rest) left

def Malformed (units : List UInt16) : Prop := ∃ rest, Reads units (percent :: rest) ∧ ¬StartsEscape (percent :: rest)

section
variable {p : Bool} {units rest : List UInt16} {first second : UInt16}

theorem highNotLow {unit} (high : isHighSurrogate unit = true) : isLowSurrogate unit = false := by
  have range := highRange.mp high
  refine Bool.eq_false_iff.mpr fun low => ?_
  have other := lowRange.mp low
  omega

theorem lowNotHigh {unit} (low : isLowSurrogate unit = true) : isHighSurrogate unit = false :=
  Bool.eq_false_iff.mpr fun high => Bool.false_ne_true ((highNotLow high).symm.trans low)

theorem unpairedPast (high : isHighSurrogate first = false) (low : isLowSurrogate first = false) :
    (∃ i, UnpairedAt (first :: rest) i) ↔ ∃ i, UnpairedAt rest i := by
  constructor
  · intro found
    obtain ⟨i,unpaired⟩ := found
    cases i with
    | zero =>
      obtain ⟨unit,at_,isHigh,_⟩ | ⟨unit,at_,isLow,_⟩ := unpaired
      · cases at_
        exact absurd (high.symm.trans isHigh) Bool.false_ne_true
      · cases at_
        exact absurd (low.symm.trans isLow) Bool.false_ne_true
    | succ i =>
      refine ⟨i,?_⟩
      obtain ⟨unit,at_,isHigh,alone⟩ | ⟨unit,at_,isLow,alone⟩ := unpaired
      · exact Or.inl ⟨unit,at_,isHigh,alone⟩
      · exact Or.inr ⟨unit,at_,isLow,fun j before same there => alone (j+1) before (by omega) there⟩
  · intro found
    obtain ⟨i,unpaired⟩ := found
    refine ⟨i+1,?_⟩
    obtain ⟨unit,at_,isHigh,alone⟩ | ⟨unit,at_,isLow,alone⟩ := unpaired
    · exact Or.inl ⟨unit,at_,isHigh,alone⟩
    · refine Or.inr ⟨unit,at_,isLow,fun j before same there => ?_⟩
      cases j with
      | zero =>
        cases there
        exact high
      | succ j => exact alone j before (by omega) there

theorem unpairedPair (high : isHighSurrogate first = true) (low : isLowSurrogate second = true) :
    (∃ i, UnpairedAt (first :: second :: rest) i) ↔ ∃ i, UnpairedAt rest i := by
  constructor
  · intro found
    obtain ⟨i,unpaired⟩ := found
    match i with
    | 0 =>
      obtain ⟨unit,at_,isHigh,alone⟩ | ⟨unit,at_,isLow,_⟩ := unpaired
      · exact absurd ((alone second rfl).symm.trans low) Bool.false_ne_true
      · cases at_
        exact absurd ((highNotLow high).symm.trans isLow) Bool.false_ne_true
    | 1 =>
      obtain ⟨unit,at_,isHigh,_⟩ | ⟨unit,at_,isLow,alone⟩ := unpaired
      · cases at_
        exact absurd ((lowNotHigh low).symm.trans isHigh) Bool.false_ne_true
      · exact absurd ((alone 0 first rfl rfl).symm.trans high) Bool.false_ne_true
    | i+2 =>
      refine ⟨i,?_⟩
      obtain ⟨unit,at_,isHigh,alone⟩ | ⟨unit,at_,isLow,alone⟩ := unpaired
      · exact Or.inl ⟨unit,at_,isHigh,alone⟩
      · exact Or.inr ⟨unit,at_,isLow,fun j before same there => alone (j+2) before (by omega) there⟩
  · intro found
    obtain ⟨i,unpaired⟩ := found
    refine ⟨i+2,?_⟩
    obtain ⟨unit,at_,isHigh,alone⟩ | ⟨unit,at_,isLow,alone⟩ := unpaired
    · exact Or.inl ⟨unit,at_,isHigh,alone⟩
    · refine Or.inr ⟨unit,at_,isLow,fun j before same there => ?_⟩
      match j with
      | 0 => omega
      | 1 =>
        cases there
        exact lowNotHigh low
      | j+2 => exact alone j before (by omega) there

theorem unescapedPlain {unit} (plain : encodeUnescaped unit p = true) :
    unit ≠ percent ∧ isHighSurrogate unit = false ∧ isLowSurrogate unit = false := by
  have small : unit ≤ 255 := by
    unfold encodeUnescaped componentUnescaped isAsciiAlphanumeric at plain
    simp only [Bool.or_eq_true,Bool.and_eq_true,decide_eq_true_eq] at plain
    obtain (alphabetic | other) | reserved := plain
    · exact alphabetic.1
    · exact other.1
    · exact reserved.1.2
  rw [UInt16.le_iff_toNat_le] at small
  simp only [UInt16.reduceToNat] at small
  refine ⟨fun same => ?_,Bool.eq_false_iff.mpr fun high => ?_,Bool.eq_false_iff.mpr fun low => ?_⟩
  · rw [same] at plain
    cases p <;> exact absurd plain (by decide)
  · have range := highRange.mp high
    omega
  · have range := lowRange.mp low
    omega

theorem encodeFails (units) : encodeUnits p units = none ↔ ∃ i, UnpairedAt units i := by
  fun_induction encodeUnits p units with
  | case1 =>
    refine iff_of_false (by simp) fun found => ?_
    obtain ⟨i,⟨unit,at_,_⟩ | ⟨unit,at_,_⟩⟩ := found
    · cases at_
    · cases at_
  | case2 first rest plain ih =>
    obtain ⟨_,high,low⟩ := unescapedPlain plain
    rw [Option.map_eq_none_iff,ih,unpairedPast high low]
  | case3 first plain high => exact iff_of_true rfl ⟨0,Or.inl ⟨first,rfl,high,fun next at_ => (by cases at_)⟩⟩
  | case4 first plain high second rest low ih => rw [Option.map_eq_none_iff,ih,unpairedPair high low]
  | case5 first plain high second rest apart =>
    refine iff_of_true rfl ⟨0,Or.inl ⟨first,rfl,high,fun next at_ => ?_⟩⟩
    cases at_
    exact Bool.eq_false_iff.mpr apart
  | case6 first rest plain apart low => exact iff_of_true rfl ⟨0,Or.inr ⟨first,rfl,low,fun j before same => (by omega)⟩⟩
  | case7 first rest plain apart other ih =>
    rw [Option.map_eq_none_iff,ih,unpairedPast (Bool.eq_false_iff.mpr apart) (Bool.eq_false_iff.mpr other)]

theorem decodePlain {unit} (other : unit ≠ percent) : decodeUnits p (unit :: rest) = (decodeUnits p rest).map (unit :: ·) := by
  rw [decodeUnits,if_pos other]

theorem escapeStarts {c escape} (escaped : Escaped (String.utf8EncodeChar c) escape) :
    ∃ tail, escape = percent :: tail ∧ (escape ++ rest).drop escape.length = rest ∧ (tail ++ rest).drop (escape.length-1) = rest := by
  cases encoded : String.utf8EncodeChar c with
  | nil =>
    have positive := c.utf8Size_pos
    rw [← String.length_utf8EncodeChar,encoded] at positive
    exact absurd positive (Nat.lt_irrefl 0)
  | cons first octets =>
    rw [encoded] at escaped
    cases escaped with
    | cons _ _ _ => exact ⟨_,rfl,List.drop_left,List.drop_left⟩

theorem decodeEscape {c escape} (escaped : Escaped (String.utf8EncodeChar c) escape) :
    decodeUnits p (escape ++ rest) =
      (decodeUnits p rest).map ((if p && isReserved c.val then escape else pushScalar c.val) ++ ·) := by
  have read : decodePercentScalar (escape ++ rest) = some (c.val,escape.length) := decodeReads.mpr ⟨c,escape,rest,rfl,rfl,escaped,rfl⟩
  have taken : (escape ++ rest).take escape.length = escape := List.take_left
  obtain ⟨tail,same,_,after⟩ := @escapeStarts rest c escape escaped
  subst same
  rw [List.cons_append] at read taken ⊢
  rw [decodeUnits,if_neg (not_not.mpr rfl),read]
  dsimp only
  rw [after,taken]

theorem decodeMalformed (bad : ¬StartsEscape (percent :: rest)) : decodeUnits p (percent :: rest) = none := by
  rw [decodeUnits,if_neg (not_not.mpr rfl)]
  cases read : decodePercentScalar (percent :: rest) with
  | none => rfl
  | some found =>
    obtain ⟨c,escape,after,_,split,escaped,_⟩ := decodeReads.mp (show _ = some (found.1,found.2) from read)
    exact absurd ⟨c,escape,after,split,escaped⟩ bad

theorem malformedStops {left} (reads : Reads units left) (stops : decodeUnits p left = none) : decodeUnits p units = none := by
  induction reads with
  | here units => exact stops
  | plain other _ ih => rw [decodePlain other,ih stops,Option.map_none]
  | escape spelled _ ih => rw [decodeEscape spelled,ih stops,Option.map_none]

theorem stopsMalformed (units) (stops : decodeUnits p units = none) : Malformed units := by
  induction length : units.length using Nat.strong_induction_on generalizing units with
  | _ n ih =>
    match units with
    | [] =>
      rw [decodeUnits] at stops
      cases stops
    | unit :: rest =>
      by_cases sign : unit = percent
      · subst sign
        by_cases starts : StartsEscape (percent :: rest)
        · obtain ⟨c,escape,after,split,escaped⟩ := starts
          rw [split,decodeEscape escaped,Option.map_eq_none_iff] at stops
          obtain ⟨tail,same,_,_⟩ := @escapeStarts after c escape escaped
          have shorter : after.length < n := by
            rw [← length,split,same,List.cons_append,List.length_cons,List.length_append]
            omega
          obtain ⟨left,reads,bad⟩ := ih after.length shorter after stops rfl
          exact ⟨left,split ▸ .escape escaped reads,bad⟩
        · exact ⟨rest,.here _,starts⟩
      · rw [decodePlain sign,Option.map_eq_none_iff] at stops
        obtain ⟨left,reads,bad⟩ := ih rest.length (length ▸ Nat.lt_succ_self _) rest stops rfl
        exact ⟨left,.plain sign reads,bad⟩

theorem decodeFails (units) : decodeUnits p units = none ↔ Malformed units := by
  refine ⟨stopsMalformed units,fun malformed => ?_⟩
  obtain ⟨left,reads,bad⟩ := malformed
  exact malformedStops reads (decodeMalformed bad)

theorem pushesScalar {scalar} (small : ¬scalar > 0x10ffff) : pushCodePoint [] scalar = .ok (pushScalar scalar) := by
  unfold pushCodePoint pushScalar
  rw [if_neg small]
  split
  · rfl
  · rw [UInt32.toUInt16_and]
    rfl

theorem pushesPair (high : isHighSurrogate first = true) (low : isLowSurrogate second = true) :
    pushScalar (pairedCodePoint first second) = [first,second] := by
  have small : ¬pairedCodePoint first second > 0x10ffff := by
    have range := highRange.mp high
    have range' := lowRange.mp low
    simp only [gt_iff_lt,UInt32.lt_iff_toNat_lt,pairedNat high low,UInt32.reduceToNat]
    omega
  exact Except.ok.inj ((pushesScalar small).symm.trans (pairedSplits high low []))

theorem pushesUnit (unit) : pushScalar unit.toUInt32 = [unit] := by
  have small : ¬unit.toUInt32 > 0x10ffff := by
    have range := unit.toNat_lt
    simp only [gt_iff_lt,UInt32.lt_iff_toNat_lt,UInt16.toNat_toUInt32,UInt32.reduceToNat]
    omega
  exact Except.ok.inj ((pushesScalar small).symm.trans (unitPushes unit []))

theorem encodedEscape {scalar} (valid) : Escaped (String.utf8EncodeChar ⟨scalar,valid⟩) (pushUtf8PercentEncoded scalar) := by
  rw [← octetsEncode]
  exact pushesEscaped _

theorem decodeEncoded {scalar} (valid : scalar.isValidChar) (kept : (p && isReserved scalar) = false) :
    decodeUnits p (pushUtf8PercentEncoded scalar ++ rest) = (decodeUnits p rest).map (pushScalar scalar ++ ·) := by
  rw [decodeEscape (encodedEscape valid)]
  simp only [kept,Bool.false_eq_true,if_false]

theorem pairedValid (high : isHighSurrogate first = true) (low : isLowSurrogate second = true) :
    (pairedCodePoint first second).isValidChar ∧ isReserved (pairedCodePoint first second) = false := by
  have range := highRange.mp high
  have range' := lowRange.mp low
  have number := pairedNat high low
  refine ⟨?_,Bool.eq_false_iff.mpr fun reserved => ?_⟩
  · unfold UInt32.isValidChar Nat.isValidChar
    omega
  · have small := of_decide_eq_true (Bool.and_eq_true_iff.mp reserved).1
    simp only [UInt32.le_iff_toNat_le,UInt32.reduceToNat] at small
    omega

theorem unitValid (escaped : ¬encodeUnescaped first p = true) (high : ¬isHighSurrogate first = true) (low : ¬isLowSurrogate first = true) :
    first.toUInt32.isValidChar ∧ (p && isReserved first.toUInt32) = false := by
  constructor
  · unfold UInt32.isValidChar Nat.isValidChar
    rw [highRange] at high
    rw [lowRange] at low
    have range := first.toNat_lt
    rw [UInt16.toNat_toUInt32]
    omega
  · refine Bool.eq_false_iff.mpr fun reserved => escaped ?_
    obtain ⟨preserves,reserved⟩ := Bool.and_eq_true_iff.mp reserved
    obtain ⟨small,listed⟩ := Bool.and_eq_true_iff.mp reserved
    have narrow : first ≤ 255 := by
      have small := of_decide_eq_true small
      rwa [UInt32.le_iff_toNat_le,UInt16.toNat_toUInt32] at small
    unfold encodeUnescaped
    rw [preserves,Bool.true_and,decide_eq_true narrow,Bool.true_and]
    exact Bool.or_eq_true_iff.mpr (Or.inr listed)

theorem decodeEncode (units) : (encodeUnits p units).bind (decodeUnits p) = (encodeUnits p units).map fun _ => units := by
  fun_induction encodeUnits p units with
  | case1 =>
    rw [Option.bind_some,decodeUnits]
    rfl
  | case2 first rest plain ih =>
    cases result : encodeUnits p rest with
    | none => rfl
    | some encoded =>
      rw [result,Option.bind_some] at ih
      rw [Option.map_some,Option.bind_some,decodePlain (unescapedPlain plain).1,ih]
      rfl
  | case3 first plain high => rfl
  | case4 first plain high second rest low ih =>
    cases result : encodeUnits p rest with
    | none => rfl
    | some encoded =>
      rw [result,Option.bind_some] at ih
      obtain ⟨valid,other⟩ := pairedValid high low
      rw [Option.map_some,Option.bind_some,decodeEncoded valid (by rw [other,Bool.and_false]),ih,pushesPair high low]
      rfl
  | case5 first plain high second rest apart => rfl
  | case6 first rest plain apart low => rfl
  | case7 first rest plain apart other ih =>
    cases result : encodeUnits p rest with
    | none => rfl
    | some encoded =>
      rw [result,Option.bind_some] at ih
      obtain ⟨valid,kept⟩ := unitValid plain apart other
      rw [Option.map_some,Option.bind_some,decodeEncoded valid kept,ih,pushesUnit]
      rfl

end

section
variable {unit : UInt16} {rest : List UInt16}

theorem digitNotLong : ∀ n : Fin 16, hexDigit (UInt8.ofNat n) ≠ 117 := by decide

theorem nibbleNotLong {nibble} (small : nibble.toNat < 16) : hexDigit nibble ≠ 117 := by
  have other := digitNotLong ⟨nibble.toNat,small⟩
  rwa [UInt8.ofNat_toNat] at other

theorem unescapePlain (other : unit ≠ percent) : unescapeFrom (unit :: rest) = unit :: unescapeFrom rest := by
  have short : longEscape (unit :: rest) = none := if_neg fun both => other (Option.some.inj both.1)
  have octet : percentOctet (unit :: rest) 0 = none := if_pos fun same => other (Option.some.inj same)
  rw [unescapeFrom,short]
  rw [octet]

theorem unescapeOctet (octet) : unescapeFrom (pushPercentOctet octet ++ rest) = octet.toUInt16 :: unescapeFrom rest := by
  have split := nibblesJoin ⟨octet.toNat,octet.toNat_lt⟩
  simp only [UInt8.ofNat_toNat] at split
  have short : longEscape (pushPercentOctet octet ++ rest) = none := if_neg fun both => nibbleNotLong split.2.1 (Option.some.inj both.2)
  have read : percentOctet (pushPercentOctet octet ++ rest) 0 = some octet :=
    octetFirst.mpr ⟨_,_,_,_,rest,rfl,nibbleKept split.2.1,nibbleKept split.2.2,split.1.symm⟩
  rw [pushPercentOctet,List.cons_append] at short read ⊢
  rw [unescapeFrom,short]
  rw [read]
  rfl

def unitNibble (unit : UInt16) (shift : UInt16) : UInt8 := ((unit >>> shift) &&& 0x0f).toUInt8

theorem nibbleNat (unit shift) (small : shift.toNat < 16) : (unitNibble unit shift).toNat = unit.toNat/2^shift.toNat % 16 := by
  rw [unitNibble,UInt16.toNat_toUInt8,UInt16.toNat_and,UInt16.toNat_shiftRight,Nat.mod_eq_of_lt small,Nat.shiftRight_eq_div_pow,
    show (0x0f : UInt16).toNat = 2^4-1 from rfl,Nat.and_two_pow_sub_one_eq_mod]
  omega

theorem addDigitNat {value digit n d} (is : value.toNat = n) (digitIs : digit.toNat = d) (small : n < 2^12) (nibble : d < 16) :
    (addDigit value digit).toNat = n*16+d := by
  subst is digitIs
  have high : (value <<< 4).toNat = 2^4*value.toNat := by
    rw [UInt16.toNat_shiftLeft,Nat.shiftLeft_eq]
    simp only [UInt16.reduceToNat,Nat.reduceMod,Nat.reducePow]
    omega
  rw [addDigit,UInt16.toNat_or,high,UInt8.toNat_toUInt16,← Nat.two_pow_add_eq_or_of_lt (show digit.toNat < 2^4 from nibble)]
  omega

theorem longRead (unit rest) : longEscape ([percent,117,hexDigit (unitNibble unit 12),hexDigit (unitNibble unit 8),
    hexDigit (unitNibble unit 4),hexDigit (unitNibble unit 0)] ++ rest) = some unit := by
  have third := nibbleNat unit 12 (by decide)
  have second := nibbleNat unit 8 (by decide)
  have first := nibbleNat unit 4 (by decide)
  have last := nibbleNat unit 0 (by decide)
  simp only [UInt16.reduceToNat,Nat.reducePow,Nat.div_one] at third second first last
  have range := unit.toNat_lt
  have one := addDigitNat (show (0 : UInt16).toNat = 0 from rfl) third (by decide) (by omega)
  have two := addDigitNat one second (by omega) (by omega)
  have three := addDigitNat two first (by omega) (by omega)
  have four := addDigitNat three last (by omega) (by omega)
  have digits : ∀ n, n.toNat < 16 → hexValue (hexDigit n) = some n := fun _ small => nibbleKept small
  unfold longEscape
  rw [if_pos ⟨rfl,rfl⟩,show List.range 4 = [0,1,2,3] from rfl]
  simp only [List.foldlM_cons,List.foldlM_nil,List.cons_append,List.nil_append,List.getElem?_cons_succ,List.getElem?_cons_zero,bind,Option.bind_some,
    digits _ (show (unitNibble unit 12).toNat < 16 by omega),digits _ (show (unitNibble unit 8).toNat < 16 by omega),
    digits _ (show (unitNibble unit 4).toNat < 16 by omega),digits _ (show (unitNibble unit 0).toNat < 16 by omega)]
  exact congrArg some (UInt16.toNat_inj.mp (four.trans (by omega)))

theorem unescapeLong (unit) : unescapeFrom ([percent,117,hexDigit (unitNibble unit 12),hexDigit (unitNibble unit 8),
    hexDigit (unitNibble unit 4),hexDigit (unitNibble unit 0)] ++ rest) = unit :: unescapeFrom rest := by
  have read := longRead unit rest
  rw [List.cons_append] at read ⊢
  rw [unescapeFrom,read]
  rfl

theorem unescapeUnit (unit) : unescapeFrom (escapeUnit unit ++ rest) = unit :: unescapeFrom rest := by
  unfold escapeUnit
  split
  · rename_i plain
    refine unescapePlain fun same => ?_
    rw [same] at plain
    exact absurd plain (by decide)
  · split
    · rename_i narrow
      rw [unescapeOctet]
      refine congrArg (· :: _) (UInt16.toNat_inj.mp ?_)
      simp only [UInt16.le_iff_toNat_le,UInt16.reduceToNat] at narrow
      rw [UInt8.toNat_toUInt16,UInt16.toNat_toUInt8]
      omega
    · have last : (unit &&& 0x0f).toUInt8 = unitNibble unit 0 := by rw [unitNibble,UInt16.shiftRight_zero]
      exact unescapeLong unit

theorem unescapeEscape (units) : unescapeFrom (units.flatMap escapeUnit) = units := by
  induction units with
  | nil =>
    rw [List.flatMap_nil,unescapeFrom]
  | cons unit rest ih => rw [List.flatMap_cons,unescapeUnit,ih]

end

/- Encoding fails on an unpaired surrogate alone, decoding undoes it, and decoding fails on a malformed escape alone; `unescape` undoes `escape`. -/
theorem uriRoundTrips :
    (∀ (s : EcmaString) (p : Bool), encode s p = none ↔ ∃ i, UnpairedAt s.asUnits i) ∧
    (∀ (s : EcmaString) (p : Bool), ((encode s p).bind fun encoded => decode encoded p) = (encode s p).map fun _ => s) ∧
    (∀ (t : EcmaString) (p : Bool), decode t p = none ↔ Malformed t.asUnits) ∧ ∀ s : EcmaString, unescapeUnits (escapeUnits s) = s := by
  refine ⟨fun s p => Option.map_eq_none_iff.trans (encodeFails s.asUnits),fun s p => ?_,fun t p => Option.map_eq_none_iff.trans (decodeFails t.asUnits),
    fun s => congrArg EcmaString.fromUnits (unescapeEscape s.asUnits)⟩
  have round := decodeEncode (p := p) s.asUnits
  unfold encode
  cases result : encodeUnits p s.asUnits with
  | none => rfl
  | some encoded =>
    rw [result,Option.bind_some,Option.map_some] at round
    rw [Option.map_some,Option.bind_some,decode,round]
    rfl

end Bamts.Uri
