import Bamts.ProgramModel

/-! The code points of a string and back: `code_points`, `push_code_point` and the scan for an unpaired surrogate. -/
set_option linter.all false
namespace Bamts.Linkage
open Bytecode

def pairedCodePoint (high low : UInt16) : UInt32 := (0x10000 : UInt32) + ((high.toUInt32 - 0xd800) <<< 10) + (low.toUInt32 - 0xdc00)

def codePointsFrom : Nat → List UInt16 → List (Nat × UInt32)
  | _, [] => []
  | offset, [unit] => [(offset,unit.toUInt32)]
  | offset, unit :: low :: rest =>
    if isHighSurrogate unit && isLowSurrogate low then (offset,pairedCodePoint unit low) :: codePointsFrom (offset+2) rest
    else (offset,unit.toUInt32) :: codePointsFrom (offset+1) (low :: rest)

def codePoints (s : EcmaString) : List (Nat × UInt32) := codePointsFrom 0 s.asUnits

structure InvalidCodePoint where
  value : UInt32

def pushCodePoint (builder : List UInt16) (codePoint : UInt32) : Except InvalidCodePoint (List UInt16) :=
  if codePoint > 0x10ffff then .error ⟨codePoint⟩
  else if codePoint ≤ 0xffff then .ok (builder ++ [codePoint.toUInt16])
  else
    let supplementary := codePoint - 0x10000
    .ok (builder ++ [(0xd800 : UInt16) ||| (supplementary >>> 10).toUInt16,(0xdc00 : UInt16) ||| (supplementary.toUInt16 &&& 0x03ff)])

def firstIllFormedFrom : Nat → List UInt16 → Option Nat
  | _, [] => none
  | offset, [unit] => if isHighSurrogate unit || isLowSurrogate unit then some offset else none
  | offset, unit :: next :: rest =>
    if isHighSurrogate unit then if isLowSurrogate next then firstIllFormedFrom (offset+2) rest else some offset
    else if isLowSurrogate unit then some offset
    else firstIllFormedFrom (offset+1) (next :: rest)

def firstIllFormedOffset (s : EcmaString) : Option Nat := firstIllFormedFrom 0 s.asUnits

-- `char::from_u32`
def charOf (codePoint : UInt32) : Option Char :=
  if valid : codePoint.toNat.isValidChar then some ⟨codePoint,valid⟩ else none

-- `String::from_utf16`
def decodeUtf16 : List UInt16 → Option (List Char)
  | [] => some []
  | [unit] => if isHighSurrogate unit || isLowSurrogate unit then none else do return [← charOf unit.toUInt32]
  | unit :: next :: rest =>
    if isLowSurrogate unit then none
    else if isHighSurrogate unit then
      if isLowSurrogate next then do return (← charOf (pairedCodePoint unit next)) :: (← decodeUtf16 rest) else none
    else do return (← charOf unit.toUInt32) :: (← decodeUtf16 (next :: rest))

inductive Utf8Fault where
  | illFormed (unitOffset : Nat)
  | unreachable
  deriving DecidableEq

def toUtf8Strict (s : EcmaString) : Except Utf8Fault String :=
  match firstIllFormedOffset s with
  | some unitOffset => .error (.illFormed unitOffset)
  | none => match decodeUtf16 s.asUnits with
    | some text => .ok (String.ofList text)
    | none => .error .unreachable

def isSurrogate (codePoint : UInt32) : Bool := 0xd800 ≤ codePoint && codePoint ≤ 0xdfff

def unitWidth (codePoint : UInt32) : Nat := if codePoint ≤ 0xffff then 1 else 2

def Tiles : Nat → List (Nat × UInt32) → Nat → Prop
  | start, [], stop => start = stop
  | start, (offset,codePoint) :: rest, stop => offset = start ∧ Tiles (start + unitWidth codePoint) rest stop

theorem highRange {unit} : isHighSurrogate unit = true ↔ 0xd800 ≤ unit.toNat ∧ unit.toNat ≤ 0xdbff := by
  simp [isHighSurrogate,UInt16.le_iff_toNat_le]

theorem lowRange {unit} : isLowSurrogate unit = true ↔ 0xdc00 ≤ unit.toNat ∧ unit.toNat ≤ 0xdfff := by
  simp [isLowSurrogate,UInt16.le_iff_toNat_le]

theorem surrogateRange {codePoint} : isSurrogate codePoint = true ↔ 0xd800 ≤ codePoint.toNat ∧ codePoint.toNat ≤ 0xdfff := by
  simp [isSurrogate,UInt32.le_iff_toNat_le]

theorem pairedNat {high low} (isHigh : isHighSurrogate high = true) (isLow : isLowSurrogate low = true) :
    (pairedCodePoint high low).toNat = 0x10000 + (high.toNat - 0xd800)*1024 + (low.toNat - 0xdc00) := by
  obtain ⟨fromHigh,toHigh⟩ := highRange.mp isHigh
  obtain ⟨fromLow,toLow⟩ := lowRange.mp isLow
  have lessHigh : (0xd800 : UInt32) ≤ high.toUInt32 := by simpa [UInt32.le_iff_toNat_le] using fromHigh
  have lessLow : (0xdc00 : UInt32) ≤ low.toUInt32 := by simpa [UInt32.le_iff_toNat_le] using fromLow
  unfold pairedCodePoint
  rw [UInt32.toNat_add,UInt32.toNat_add,UInt32.toNat_shiftLeft,UInt32.toNat_sub_of_le _ _ lessHigh,UInt32.toNat_sub_of_le _ _ lessLow]
  simp only [UInt16.toNat_toUInt32,UInt32.reduceToNat,Nat.shiftLeft_eq,Nat.reduceMod,Nat.reducePow]
  omega

theorem pairedSplits {high low} (isHigh : isHighSurrogate high = true) (isLow : isLowSurrogate low = true) (builder) :
    pushCodePoint builder (pairedCodePoint high low) = .ok (builder ++ [high,low]) := by
  have paired := pairedNat isHigh isLow
  obtain ⟨fromHigh,toHigh⟩ := highRange.mp isHigh
  obtain ⟨fromLow,toLow⟩ := lowRange.mp isLow
  have inside : ¬pairedCodePoint high low > 0x10ffff := by
    simp only [gt_iff_lt,UInt32.lt_iff_toNat_lt,paired,UInt32.reduceToNat]
    omega
  have wide : ¬pairedCodePoint high low ≤ 0xffff := by
    simp only [UInt32.le_iff_toNat_le,paired,UInt32.reduceToNat]
    omega
  have base : (0x10000 : UInt32) ≤ pairedCodePoint high low := by
    simp only [UInt32.le_iff_toNat_le,paired,UInt32.reduceToNat]
    omega
  have rest : (pairedCodePoint high low - 0x10000).toNat = (high.toNat - 0xd800)*1024 + (low.toNat - 0xdc00) := by
    rw [UInt32.toNat_sub_of_le _ _ base,paired]
    simp only [UInt32.reduceToNat]
    omega
  have upper : (0xd800 : UInt16) ||| ((pairedCodePoint high low - 0x10000) >>> 10).toUInt16 = high := by
    have shifted : ((pairedCodePoint high low - 0x10000) >>> 10).toUInt16.toNat = high.toNat - 0xd800 := by
      rw [UInt32.toNat_toUInt16,UInt32.toNat_shiftRight,rest]
      simp only [UInt32.reduceToNat,Nat.shiftRight_eq_div_pow,Nat.reduceMod,Nat.reducePow]
      omega
    have joined := Nat.two_pow_add_eq_or_of_lt (show high.toNat - 0xd800 < 2^10 by omega) 54
    rw [← UInt16.toNat_inj,UInt16.toNat_or,shifted,show (0xd800 : UInt16).toNat = 2^10*54 from rfl,← joined]
    omega
  have lower : (0xdc00 : UInt16) ||| ((pairedCodePoint high low - 0x10000).toUInt16 &&& 0x03ff) = low := by
    have masked : ((pairedCodePoint high low - 0x10000).toUInt16 &&& 0x03ff).toNat = low.toNat - 0xdc00 := by
      rw [UInt16.toNat_and,UInt32.toNat_toUInt16,rest,show (0x03ff : UInt16).toNat = 2^10-1 from rfl,Nat.and_two_pow_sub_one_eq_mod]
      omega
    have joined := Nat.two_pow_add_eq_or_of_lt (show low.toNat - 0xdc00 < 2^10 by omega) 55
    rw [← UInt16.toNat_inj,UInt16.toNat_or,masked,show (0xdc00 : UInt16).toNat = 2^10*55 from rfl,← joined]
    omega
  unfold pushCodePoint
  rw [if_neg inside,if_neg wide]
  simp only [upper,lower]

theorem unitPushes (unit : UInt16) (builder : List UInt16) : pushCodePoint builder unit.toUInt32 = .ok (builder ++ [unit]) := by
  have small := unit.toNat_lt
  have inside : ¬unit.toUInt32 > 0x10ffff := by
    simp only [gt_iff_lt,UInt32.lt_iff_toNat_lt,UInt16.toNat_toUInt32,UInt32.reduceToNat]
    omega
  have narrow : unit.toUInt32 ≤ 0xffff := by
    simp only [UInt32.le_iff_toNat_le,UInt16.toNat_toUInt32,UInt32.reduceToNat]
    omega
  unfold pushCodePoint
  rw [if_neg inside,if_pos narrow,UInt16.toUInt16_toUInt32]

def pushAll (builder : List UInt16) (points : List (Nat × UInt32)) : Except InvalidCodePoint (List UInt16) :=
  points.foldlM (fun builder p => pushCodePoint builder p.2) builder

theorem pushesBack (offset units builder) :
    pushAll builder (codePointsFrom offset units) = .ok (builder ++ units) := by
  induction offset,units using codePointsFrom.induct generalizing builder with
  | case1 offset =>
    rw [List.append_nil]
    rfl
  | case2 offset unit => simp [codePointsFrom,pushAll,unitPushes]
  | case3 offset unit low rest pair ih =>
    have split := Bool.and_eq_true_iff.mp pair
    rw [codePointsFrom,if_pos pair,pushAll,List.foldlM_cons]
    simp only [pairedSplits split.1 split.2]
    exact (ih _).trans (by rw [List.append_assoc]; rfl)
  | case4 offset unit low rest apart ih =>
    rw [codePointsFrom,if_neg apart,pushAll,List.foldlM_cons]
    simp only [unitPushes]
    exact (ih _).trans (by rw [List.append_assoc]; rfl)

theorem unitNarrow (unit : UInt16) : unitWidth unit.toUInt32 = 1 := by
  have small := unit.toNat_lt
  refine if_pos ?_
  simp only [UInt32.le_iff_toNat_le,UInt16.toNat_toUInt32,UInt32.reduceToNat]
  omega

theorem pairedWide {high low} (isHigh : isHighSurrogate high = true) (isLow : isLowSurrogate low = true) :
    unitWidth (pairedCodePoint high low) = 2 := by
  refine if_neg ?_
  simp only [UInt32.le_iff_toNat_le,pairedNat isHigh isLow,UInt32.reduceToNat]
  omega

theorem tiles (offset units) : Tiles offset (codePointsFrom offset units) (offset + units.length) := by
  induction offset,units using codePointsFrom.induct with
  | case1 offset => rfl
  | case2 offset unit => exact ⟨rfl,by rw [unitNarrow]; rfl⟩
  | case3 offset unit low rest pair ih =>
    have split := Bool.and_eq_true_iff.mp pair
    rw [codePointsFrom,if_pos pair]
    refine ⟨rfl,?_⟩
    have count : offset + (unit :: low :: rest).length = offset + 2 + rest.length := by
      simp only [List.length_cons]
      omega
    rw [pairedWide split.1 split.2,count]
    exact ih
  | case4 offset unit low rest apart ih =>
    rw [codePointsFrom,if_neg apart]
    refine ⟨rfl,?_⟩
    have count : offset + (unit :: low :: rest).length = offset + 1 + (low :: rest).length := by
      simp only [List.length_cons]
      omega
    rw [unitNarrow,count]
    exact ih

theorem Tiles.rises {start stop points} (tiled : Tiles start points stop) :
    (∀ p ∈ points, start ≤ p.1) ∧ (points.map Prod.fst).Pairwise (· < ·) := by
  induction points generalizing start with
  | nil => simp
  | cons p rest ih =>
    obtain ⟨here,later⟩ := tiled
    obtain ⟨above,rising⟩ := ih later
    have width : 1 ≤ unitWidth p.2 := by
      unfold unitWidth
      split <;> omega
    refine ⟨fun q member => ?_,List.pairwise_cons.mpr ⟨fun offset member => ?_,rising⟩⟩
    · rcases List.mem_cons.mp member with rfl | old
      · exact le_of_eq here.symm
      · exact le_trans (by omega) (above q old)
    · obtain ⟨q,inside,rfl⟩ := List.mem_map.mp member
      have := above q inside
      omega

theorem unitSurrogate (unit) : isSurrogate unit.toUInt32 = (isHighSurrogate unit || isLowSurrogate unit) := by
  rw [Bool.eq_iff_iff,Bool.or_eq_true,surrogateRange,highRange,lowRange,UInt16.toNat_toUInt32]
  omega

theorem pairedScalar {high low} (isHigh : isHighSurrogate high = true) (isLow : isLowSurrogate low = true) :
    isSurrogate (pairedCodePoint high low) = false := by
  rw [← Bool.not_eq_true,surrogateRange,pairedNat isHigh isLow]
  omega

theorem scansFirst (offset units) :
    firstIllFormedFrom offset units = ((codePointsFrom offset units).find? fun p => isSurrogate p.2).map Prod.fst := by
  induction offset,units using codePointsFrom.induct with
  | case1 offset => rfl
  | case2 offset unit =>
    rw [codePointsFrom,firstIllFormedFrom,List.find?_singleton,unitSurrogate]
    split <;> rfl
  | case3 offset unit low rest pair ih =>
    have split := Bool.and_eq_true_iff.mp pair
    rw [codePointsFrom,if_pos pair,firstIllFormedFrom,if_pos split.1,if_pos split.2,
      List.find?_cons_of_neg (by simp [pairedScalar split.1 split.2]),ih]
  | case4 offset unit low rest apart ih =>
    rw [codePointsFrom,if_neg apart,firstIllFormedFrom]
    by_cases surrogate : isSurrogate unit.toUInt32 = true
    · rw [List.find?_cons_of_pos (by simpa using surrogate),Option.map_some]
      rw [unitSurrogate,Bool.or_eq_true] at surrogate
      by_cases high : isHighSurrogate unit = true
      · have : ¬isLowSurrogate low = true := fun low => apart (Bool.and_eq_true_iff.mpr ⟨high,low⟩)
        rw [if_pos high,if_neg this]
      · rw [if_neg high,if_pos (surrogate.resolve_left high)]
    · rw [List.find?_cons_of_neg (by simpa using surrogate),← ih]
      rw [unitSurrogate,Bool.or_eq_true,not_or] at surrogate
      rw [if_neg surrogate.1,if_neg surrogate.2]

theorem scalarDecodes {codePoint} (inside : codePoint.toNat < 0x110000) (scalar : isSurrogate codePoint = false) :
    (charOf codePoint).isSome = true := by
  rw [← Bool.not_eq_true,surrogateRange] at scalar
  have valid : codePoint.toNat.isValidChar := by
    omega
  rw [charOf,dif_pos valid]
  rfl

theorem scannedDecodes {offset units} (clean : firstIllFormedFrom offset units = none) :
    (decodeUtf16 units).isSome = true := by
  induction offset,units using firstIllFormedFrom.induct with
  | case1 offset => rfl
  | case2 offset unit surrogate => simp [firstIllFormedFrom,surrogate] at clean
  | case3 offset unit apart =>
    have plain : isSurrogate unit.toUInt32 = false := by rw [unitSurrogate,← Bool.not_eq_true]; exact apart
    obtain ⟨c,decoded⟩ := Option.isSome_iff_exists.mp (scalarDecodes (by have := unit.toNat_lt; simp; omega) plain)
    rw [decodeUtf16,if_neg apart,decoded]
    rfl
  | case4 offset unit next rest high low ih =>
    rw [firstIllFormedFrom,if_pos high,if_pos low] at clean
    have notLow : ¬isLowSurrogate unit = true := by
      rw [lowRange]
      have := (highRange.mp high).2
      omega
    have bound : (pairedCodePoint unit next).toNat < 0x110000 := by
      rw [pairedNat high low]
      have := highRange.mp high
      have := lowRange.mp low
      omega
    obtain ⟨c,decoded⟩ := Option.isSome_iff_exists.mp (scalarDecodes bound (pairedScalar high low))
    obtain ⟨text,later⟩ := Option.isSome_iff_exists.mp (ih clean)
    rw [decodeUtf16,if_neg notLow,if_pos high,if_pos low,decoded,later]
    rfl
  | case5 offset unit next rest high apart => simp [firstIllFormedFrom,high,apart] at clean
  | case6 offset unit next rest apart low => simp [firstIllFormedFrom,apart,low] at clean
  | case7 offset unit next rest notHigh notLow ih =>
    rw [firstIllFormedFrom,if_neg notHigh,if_neg notLow] at clean
    have plain : isSurrogate unit.toUInt32 = false := by
      rw [unitSurrogate,← Bool.not_eq_true,Bool.or_eq_true,not_or]
      exact ⟨notHigh,notLow⟩
    obtain ⟨c,decoded⟩ := Option.isSome_iff_exists.mp (scalarDecodes (by have := unit.toNat_lt; simp; omega) plain)
    obtain ⟨text,later⟩ := Option.isSome_iff_exists.mp (ih clean)
    rw [decodeUtf16,if_neg notLow,if_neg notHigh,decoded,later]
    rfl

theorem strictFails (s fault) :
    toUtf8Strict s = .error fault ↔ ∃ offset, firstIllFormedOffset s = some offset ∧ fault = .illFormed offset := by
  unfold toUtf8Strict
  rcases scan : firstIllFormedOffset s with _ | offset
  · obtain ⟨text,decoded⟩ := Option.isSome_iff_exists.mp (scannedDecodes scan)
    simp [decoded]
  · simp [eq_comm]

theorem codePointsLossless (s : EcmaString) :
    pushAll [] (codePoints s) = .ok s.asUnits ∧
    ((codePoints s).map Prod.fst).Pairwise (· < ·) ∧ Tiles 0 (codePoints s) s.lenUnits ∧
    ((∃ fault, toUtf8Strict s = .error fault) ↔ ∃ p ∈ codePoints s, isSurrogate p.2 = true) ∧
    ∀ fault, toUtf8Strict s = .error fault →
      ∃ first, (codePoints s).find? (fun p => isSurrogate p.2) = some first ∧ fault = .illFormed first.1 := by
  have tiled := tiles 0 s.asUnits
  rw [Nat.zero_add] at tiled
  have first : firstIllFormedOffset s = _ := scansFirst 0 s.asUnits
  refine ⟨pushesBack 0 s.asUnits [],tiled.rises.2,tiled,?_,fun fault failed => ?_⟩
  · simp only [strictFails,first,Option.map_eq_some_iff]
    constructor
    · rintro ⟨fault,offset,⟨p,found,rfl⟩,rfl⟩
      exact ⟨p,List.mem_of_find?_eq_some found,by simpa using List.find?_some found⟩
    · rintro ⟨p,member,surrogate⟩
      obtain ⟨q,found⟩ := Option.isSome_iff_exists.mp
        (List.find?_isSome.mpr ⟨p,member,surrogate⟩ : ((codePoints s).find? fun p => isSurrogate p.2).isSome = true)
      exact ⟨_,_,⟨q,found,rfl⟩,rfl⟩
  · obtain ⟨offset,scan,rfl⟩ := (strictFails s fault).mp failed
    rw [first] at scan
    obtain ⟨p,found,rfl⟩ := Option.map_eq_some_iff.mp scan
    exact ⟨p,found,rfl⟩

end Bamts.Linkage
