import Bamts.BigIntValue
import Bamts.Numeral

/-! Big integers as text: the numeral in any radix, found in chunks of digits, and the strings that stand
for a big integer. -/
set_option linter.all false
namespace Bamts.BigInt
open Limbs Numeral

def digitChar (d : Nat) : Char := if d < 10 then Char.ofNat (48+d) else Char.ofNat (97+(d-10))

def charDigit (c : Char) : Option Nat :=
  if 48 ≤ c.toNat ∧ c.toNat ≤ 57 then some (c.toNat-48)
  else if 97 ≤ c.toNat ∧ c.toNat ≤ 122 then some (c.toNat-97+10)
  else if 65 ≤ c.toNat ∧ c.toNat ≤ 90 then some (c.toNat-65+10)
  else none

def isJsWhitespace (c : Char) : Bool :=
  c.toNat ∈ [0x09,0x0A,0x0B,0x0C,0x0D,0x20,0xA0,0x1680] ∨ 0x2000 ≤ c.toNat ∧ c.toNat ≤ 0x200A ∨
  c.toNat ∈ [0x2028,0x2029,0x202F,0x205F,0x3000,0xFEFF]

def radixChunkLoop (radix : Nat) (base : 2 ≤ radix) (chunk : Nat) (positive : 0 < chunk) (digits : Nat) : Nat × Nat :=
  if room : chunk*radix ≤ 2^32-1 then
    radixChunkLoop radix base (chunk*radix) (Nat.mul_pos positive (Nat.lt_of_lt_of_le Nat.zero_lt_two base)) (digits+1)
  else (chunk,digits)
termination_by 2^32-chunk
decreasing_by
  have grows : chunk*2 ≤ chunk*radix := Nat.mul_le_mul_left _ base
  omega

def radixChunk (radix : Nat) (base : 2 ≤ radix) : Nat × Nat := radixChunkLoop radix base 1 Nat.one_pos 0

def digitsWhile (radix : Nat) (base : 2 ≤ radix) (rem : Nat) : List Nat :=
  if rem = 0 then [] else rem%radix :: digitsWhile radix base (rem/radix)
termination_by rem
decreasing_by exact Nat.div_lt_self (Nat.pos_of_ne_zero ‹_›) base

def digitsFor (radix : Nat) : Nat → Nat → List Nat
  | 0, _ => []
  | count+1, rem => rem%radix :: digitsFor radix count (rem/radix)

theorem chunkShrinks {chunk} (large : 2 ≤ chunk) {work} (some_ : ¬work.isEmpty = true) :
    value (trim (divSmall chunk work).1)+(trim (divSmall chunk work).1).length < value work+work.length := by
  have quotient := divSmallDiv (Nat.zero_lt_of_lt large) work
  have short : (trim (divSmall chunk work).1).length ≤ work.length := by
    rw [← divSmallLength chunk work]
    exact (List.rdropWhile_prefix _ _).length_le
  rw [valueTrim,quotient]
  rcases Nat.eq_zero_or_pos (value work) with none_ | positive
  · have nothing : trim (divSmall chunk work).1 = [] := by
      rw [← trimmedZero (trimTrimmed _),valueTrim,quotient,none_,Nat.zero_div]
    rw [nothing,none_,Nat.zero_div]
    exact Nat.add_lt_add_left (List.length_pos_iff.mpr fun same => some_ (List.isEmpty_iff.mpr same)) 0
  · exact Nat.add_lt_add_of_lt_of_le (Nat.div_lt_self positive large) short

def radixLoop (radix : Nat) (base : 2 ≤ radix) (chunk chunkDigits : Nat) (large : 2 ≤ chunk) (work : List UInt32) : List Nat :=
  if work.isEmpty then []
  else
    let next := trim (divSmall chunk work).1
    let rem := (divSmall chunk work).2
    (if next.isEmpty then digitsWhile radix base rem else digitsFor radix chunkDigits rem) ++ radixLoop radix base chunk chunkDigits large next
termination_by value work+work.length
decreasing_by exact chunkShrinks large ‹_›

theorem radixChunkPower (radix base chunk positive digits) :
    ∃ m, radixChunkLoop radix base chunk positive digits = (chunk*radix^m,digits+m) := by
  induction chunk, positive, digits using radixChunkLoop.induct radix base with
  | case1 chunk positive digits room ih =>
    obtain ⟨m,found⟩ := ih
    refine ⟨m+1,?_⟩
    rw [radixChunkLoop,dif_pos room,found,Nat.pow_succ',Nat.mul_assoc,Nat.add_assoc,Nat.add_comm 1]
  | case2 chunk positive digits full =>
    refine ⟨0,?_⟩
    rw [radixChunkLoop,dif_neg full,Nat.pow_zero,Nat.mul_one,Nat.add_zero]

theorem radixChunkValue (radix base) : (radixChunk radix base).1 = radix^(radixChunk radix base).2 := by
  obtain ⟨m,found⟩ := radixChunkPower radix base 1 Nat.one_pos 0
  rw [radixChunk,found,Nat.one_mul,Nat.zero_add]

theorem radixChunkLarge {radix} (base) (narrow : radix ≤ 36) : 2 ≤ (radixChunk radix base).1 := by
  have room : 1*radix ≤ 2^32-1 := by omega
  obtain ⟨m,found⟩ := radixChunkPower radix base (1*radix) (by omega) (0+1)
  rw [radixChunk,radixChunkLoop,dif_pos room,found,Nat.one_mul]
  exact Nat.le_trans base (Nat.le_mul_of_pos_right _ (Nat.pow_pos (Nat.zero_lt_of_lt base)))

theorem digitsWhileReverse {radix} (base) {n} (some_ : n ≠ 0) : (digitsWhile radix base n).reverse = numeral radix n := by
  have same : ∀ n, digitsWhile radix base n = Nat.digits radix n := fun n => by
    induction n using digitsWhile.induct radix base with
    | case1 => rw [digitsWhile,if_pos rfl,Nat.digits_zero]
    | case2 n real ih => rw [digitsWhile,if_neg real,ih,Nat.digits_def' base (Nat.pos_of_ne_zero real)]
  rw [same,numeral,if_neg some_]

theorem digitsForReverse (radix count n) : (digitsFor radix count n).reverse = places radix count n := by
  induction count generalizing n with
  | zero => rfl
  | succ count ih => rw [digitsFor,List.reverse_cons,ih,places]

theorem radixLoopNumeral {radix chunk chunkDigits} (base large) (power : chunk = radix^chunkDigits)
    {work} (trimmed : Trimmed work) (some_ : work ≠ []) :
    (radixLoop radix base chunk chunkDigits large work).reverse = numeral radix (value work) := by
  induction work using radixLoop.induct chunk large with
  | case1 work none_ => exact absurd (List.isEmpty_iff.mp none_) some_
  | case2 work real next ih =>
    have positive : value work ≠ 0 := fun zero => some_ ((trimmedZero trimmed).mp zero)
    have quotient : value next = value work/chunk := (valueTrim _).trans (divSmallDiv (Nat.zero_lt_of_lt large) work)
    have trimmed_ : Trimmed next := trimTrimmed _
    rw [radixLoop,if_neg real,List.reverse_append,divSmallMod (Nat.zero_lt_of_lt large) work]
    change (radixLoop radix base chunk chunkDigits large next).reverse ++
      (if next.isEmpty then digitsWhile radix base (value work%chunk) else digitsFor radix chunkDigits (value work%chunk)).reverse = _
    by_cases last : next = []
    · have small : value work < chunk := by
        rw [last,valueNil] at quotient
        rcases Nat.div_eq_zero_iff.mp quotient.symm with none_ | below
        · exact absurd none_ (Nat.ne_of_gt (Nat.zero_lt_of_lt large))
        · exact below
      rw [last,radixLoop,if_pos List.isEmpty_nil,List.reverse_nil,List.nil_append,if_pos List.isEmpty_nil,Nat.mod_eq_of_lt small,digitsWhileReverse base positive]
    · have more : value next ≠ 0 := fun zero => last ((trimmedZero trimmed_).mp zero)
      have reach : radix^chunkDigits ≤ value work := by
        rw [← power]
        by_contra below
        exact more (quotient.trans (Nat.div_eq_of_lt (Nat.not_le.mp below)))
      rw [if_neg fun none_ => last (List.isEmpty_iff.mp none_),ih trimmed_ last,digitsForReverse,quotient,power,placesMod,← numeralSplit base _ reach]

def toStringRadix (x : BigIntValue) (radix : Nat) (base : 2 ≤ radix) (narrow : radix ≤ 36) : List Char :=
  if x.limbs.isEmpty then ['0']
  else
    (if x.negative then ['-'] else []) ++
      (radixLoop radix base (radixChunk radix base).1 (radixChunk radix base).2 (radixChunkLarge base narrow) x.limbs).reverse.map digitChar

def signText (negative : Bool) : List Char := if negative then ['-'] else []

theorem toStringNumeral (x) {radix} (base narrow) :
    toStringRadix x radix base narrow = signText x.negative ++ (numeral radix x.magnitude).map digitChar := by
  unfold toStringRadix
  split
  · rename_i none_
    have nothing := List.isEmpty_iff.mp none_
    rw [x.signed nothing,x.limbsNil.mpr nothing]
    rfl
  · rename_i some_
    rw [radixLoopNumeral base _ (radixChunkValue radix base) x.trimmed fun none_ => some_ (List.isEmpty_iff.mpr none_)]
    rfl

def parseLoop (radix : Nat) (limbs : List UInt32) : List Char → Option (List UInt32)
  | [] => some limbs
  | c :: rest =>
    match charDigit c with
    | none => none
    | some digit => if radix ≤ digit then none else parseLoop radix (magMulAddSmall limbs (UInt32.ofNat radix) (UInt32.ofNat digit)) rest

def parseDigits (text : List Char) (radix : Nat) : Option (List UInt32) := if text.isEmpty then none else parseLoop radix [] text

def prefixRadix (mark : Char) : Option Nat :=
  if mark = 'x' ∨ mark = 'X' then some 16
  else if mark = 'b' ∨ mark = 'B' then some 2
  else if mark = 'o' ∨ mark = 'O' then some 8
  else none

def radixPrefix : List Char → Option (Nat × List Char)
  | zero :: mark :: digits => if zero = '0' then (prefixRadix mark).map fun radix => (radix,digits) else none
  | _ => none

def takeSign : List Char → Bool × List Char
  | [] => (false,[])
  | c :: digits => if c = '-' then (true,digits) else if c = '+' then (false,digits) else (false,c :: digits)

def trimMatches (text : List Char) : List Char := (text.dropWhile isJsWhitespace).rdropWhile isJsWhitespace

def parsed (negative : Bool) (digits : List Char) (radix : Nat) : Except BigIntError BigIntValue :=
  match parseDigits digits radix with
  | none => .error (.syntaxError "invalid BigInt literal")
  | some limbs => .ok (fromParts negative limbs)

def parseString (text : List Char) : Except BigIntError BigIntValue :=
  let trimmed := trimMatches text
  if trimmed.isEmpty then .ok BigIntValue.zero
  else
    match radixPrefix trimmed with
    | some (radix,digits) => parsed false digits radix
    | none => parsed (takeSign trimmed).1 (takeSign trimmed).2 10

structure Spells (radix : Nat) (text : List Char) (digits : List Nat) : Prop where
  spelled : text.map charDigit = digits.map some
  below : ∀ d ∈ digits, d < radix
  some_ : digits ≠ []

inductive Denotes : List Char → Int → Prop where
  | empty : Denotes [] 0
  | plain {text digits} (spells : Spells 10 text digits) : Denotes text (read 10 digits)
  | plus {text digits} (spells : Spells 10 text digits) : Denotes ('+' :: text) (read 10 digits)
  | minus {text digits} (spells : Spells 10 text digits) : Denotes ('-' :: text) (-(read 10 digits : Int))
  | prefixed {mark radix text digits} (marked : prefixRadix mark = some radix) (spells : Spells radix text digits) :
      Denotes ('0' :: mark :: text) (read radix digits)

theorem parseLoopSpells {radix} (narrow : radix ≤ 36) {text limbs out} (found : parseLoop radix limbs text = some out) :
    ∃ digits : List Nat, text.map charDigit = digits.map some ∧ (∀ d ∈ digits, d < radix) ∧
      value out = digits.foldl (fun n d => n*radix+d) (value limbs) := by
  induction text generalizing limbs with
  | nil =>
    cases found
    exact ⟨[],rfl,fun _ among => absurd among List.not_mem_nil,rfl⟩
  | cons c rest ih =>
    rw [parseLoop] at found
    cases digit : charDigit c with
    | none =>
      rw [digit] at found
      cases found
    | some d =>
      rw [digit] at found
      dsimp only at found
      split at found
      · cases found
      · rename_i below
        have small : d < radix := Nat.not_le.mp below
        obtain ⟨digits,spelled,rest_,same⟩ := ih found
        have radix_ : (UInt32.ofNat radix).toNat = radix := (ofNatToNat radix).trans (Nat.mod_eq_of_lt (by omega))
        have digit_ : (UInt32.ofNat d).toNat = d := (ofNatToNat d).trans (Nat.mod_eq_of_lt (by omega))
        rw [magMulAddSmallValue,radix_,digit_] at same
        exact ⟨d :: digits,by rw [List.map_cons,List.map_cons,digit,spelled],List.forall_mem_cons.mpr ⟨small,rest_⟩,same⟩

theorem parseLoopFinds {radix} (narrow : radix ≤ 36) {text} {digits : List Nat} (spelled : text.map charDigit = digits.map some)
    (below : ∀ d ∈ digits, d < radix) (limbs) :
    ∃ out, parseLoop radix limbs text = some out ∧ value out = digits.foldl (fun n d => n*radix+d) (value limbs) := by
  induction text generalizing digits limbs with
  | nil =>
    rw [List.map_eq_nil_iff.mp spelled.symm]
    exact ⟨limbs,rfl,rfl⟩
  | cons c rest ih =>
    cases digits with
    | nil => cases spelled
    | cons d digits =>
      obtain ⟨digit,spelled'⟩ := List.cons.inj spelled
      obtain ⟨small,below'⟩ := List.forall_mem_cons.mp below
      obtain ⟨out,found,same⟩ := ih spelled' below' (magMulAddSmall limbs (UInt32.ofNat radix) (UInt32.ofNat d))
      have radix_ : (UInt32.ofNat radix).toNat = radix := (ofNatToNat radix).trans (Nat.mod_eq_of_lt (by omega))
      have digit_ : (UInt32.ofNat d).toNat = d := (ofNatToNat d).trans (Nat.mod_eq_of_lt (by omega))
      rw [magMulAddSmallValue,radix_,digit_] at same
      exact ⟨out,by rw [parseLoop,digit]; dsimp only; rw [if_neg (Nat.not_le.mpr small),found],same⟩

theorem parsedIff {radix} (narrow : radix ≤ 36) (negative text x) :
    parsed negative text radix = .ok x ↔ ∃ digits, Spells radix text digits ∧ x.toInt = signedInt negative (read radix digits) := by
  unfold parsed parseDigits
  constructor
  · intro ok
    split at ok
    · cases ok
    · rename_i limbs found
      split at found
      · cases found
      · rename_i real
        obtain ⟨digits,spelled,below,same⟩ := parseLoopSpells narrow found
        refine ⟨digits,⟨spelled,below,fun none_ => ?_⟩,?_⟩
        · rw [none_,List.map_nil,List.map_eq_nil_iff] at spelled
          exact real (List.isEmpty_iff.mpr spelled)
        · rw [← Except.ok.inj ok,BigIntValue.toIntFromParts,same]
          rfl
  · rintro ⟨digits,spells,same⟩
    have real : ¬text.isEmpty = true := fun none_ => spells.some_ (by
      have spelled := spells.spelled
      rw [List.isEmpty_iff.mp none_] at spelled
      exact List.map_eq_nil_iff.mp spelled.symm)
    obtain ⟨out,found,back⟩ := parseLoopFinds narrow spells.spelled spells.below []
    rw [if_neg real,found]
    refine congrArg Except.ok (BigIntValue.unique ?_)
    rw [BigIntValue.toIntFromParts,back,same]
    rfl

theorem headDigit {radix text digits} (spells : Spells radix text digits) :
    ∃ c d rest, text = c :: rest ∧ charDigit c = some d ∧ d < radix := by
  have spelled := spells.spelled
  cases text with
  | nil => exact absurd (List.map_eq_nil_iff.mp spelled.symm) spells.some_
  | cons c rest =>
    cases digits with
    | nil => exact absurd rfl spells.some_
    | cons d digits => exact ⟨c,d,rest,rfl,(List.cons.inj spelled).1,spells.below d List.mem_cons_self⟩

theorem markDigit {mark radix} (marked : prefixRadix mark = some radix) : ∀ d, charDigit mark = some d → 10 ≤ d := by
  unfold prefixRadix at marked
  have marks : mark = 'x' ∨ mark = 'X' ∨ mark = 'b' ∨ mark = 'B' ∨ mark = 'o' ∨ mark = 'O' := by
    split at marked
    · rename_i hex
      exact hex.imp_right .inl
    · split at marked
      · rename_i binary
        exact .inr (.inr (binary.imp_right .inl))
      · split at marked
        · rename_i octal
          exact .inr (.inr (.inr (.inr octal)))
        · cases marked
  rcases marks with rfl | rfl | rfl | rfl | rfl | rfl <;> exact fun d found => by
    cases found
    decide

theorem prefixNarrow {mark radix} (marked : prefixRadix mark = some radix) : radix ≤ 36 := by
  unfold prefixRadix at marked
  split at marked
  · cases marked
    decide
  · split at marked
    · cases marked
      decide
    · split at marked
      · cases marked
        decide
      · cases marked

theorem radixPrefixIff {text digits radix} :
    radixPrefix text = some (radix,digits) ↔ ∃ mark, text = '0' :: mark :: digits ∧ prefixRadix mark = some radix := by
  unfold radixPrefix
  constructor
  · intro found
    split at found
    · rename_i zero mark rest
      split at found
      · rename_i same
        obtain ⟨radix',marked,both⟩ := Option.map_eq_some_iff.mp found
        cases both
        exact ⟨mark,by rw [same],marked⟩
      · cases found
    · cases found
  · rintro ⟨mark,rfl,marked⟩
    dsimp only
    rw [if_pos rfl,marked]
    rfl

theorem plainPrefix {text digits} (spells : Spells 10 text digits) : radixPrefix text = none := by
  cases found : radixPrefix text with
  | none => rfl
  | some result =>
    obtain ⟨mark,same,marked⟩ := radixPrefixIff.mp found
    have spelled := spells.spelled
    rw [same,List.map_cons,List.map_cons] at spelled
    obtain ⟨first,digits',rfl,-,spelled'⟩ := List.map_eq_cons_iff.mp spelled.symm
    obtain ⟨second,digits'',rfl,second_,-⟩ := List.map_eq_cons_iff.mp spelled'
    have large := markDigit marked second second_.symm
    have small := spells.below second (List.mem_cons_of_mem _ List.mem_cons_self)
    exact absurd large (Nat.not_le.mpr small)

theorem plainSign {text digits} (spells : Spells 10 text digits) : takeSign text = (false,text) := by
  obtain ⟨c,d,rest,rfl,digit,-⟩ := headDigit spells
  have minus : c ≠ '-' := fun same => by
    rw [same] at digit
    cases digit
  have plus : c ≠ '+' := fun same => by
    rw [same] at digit
    cases digit
  rw [takeSign,if_neg minus,if_neg plus]

theorem signedPrefix {c} (other : c ≠ '0') (rest) : radixPrefix (c :: rest) = none := by
  cases rest with
  | nil => rfl
  | cons mark digits => exact if_neg other

theorem parseStringIff (text x) : parseString text = .ok x ↔ Denotes (trimMatches text) x.toInt := by
  unfold parseString
  generalize trimMatches text = trimmed
  constructor
  · intro ok
    dsimp only at ok
    split at ok
    · rename_i none_
      rw [← Except.ok.inj ok,List.isEmpty_iff.mp none_]
      exact .empty
    · split at ok
      · rename_i radix digits found
        obtain ⟨mark,rfl,marked⟩ := radixPrefixIff.mp found
        obtain ⟨values,spells,same⟩ := (parsedIff (prefixNarrow marked) false digits x).mp ok
        rw [same]
        exact .prefixed marked spells
      · obtain ⟨values,spells,same⟩ := (parsedIff (by decide) _ _ x).mp ok
        rw [same]
        cases trimmed with
        | nil => exact absurd rfl ‹¬_›
        | cons c rest =>
          rw [takeSign] at spells ⊢
          split at spells
          · rename_i minus
            rw [if_pos minus,minus]
            exact .minus spells
          · rename_i other
            rw [if_neg other]
            split at spells
            · rename_i plus
              rw [if_pos plus,plus]
              exact .plus spells
            · rename_i plain
              rw [if_neg plain]
              exact .plain spells
  · intro denotes
    dsimp only
    generalize found : x.toInt = z at denotes
    cases denotes with
    | empty => exact congrArg Except.ok (BigIntValue.unique found.symm)
    | plain spells =>
      rename_i digits
      obtain ⟨c,d,rest,rfl,-,-⟩ := headDigit spells
      rw [List.isEmpty_cons,if_neg Bool.false_ne_true,plainPrefix spells,plainSign spells]
      exact (parsedIff (by decide) _ _ x).mpr ⟨digits,spells,found⟩
    | plus spells =>
      rename_i rest digits
      rw [List.isEmpty_cons,if_neg Bool.false_ne_true,signedPrefix (by decide)]
      exact (parsedIff (by decide) _ _ x).mpr ⟨digits,spells,found⟩
    | minus spells =>
      rename_i rest digits
      rw [List.isEmpty_cons,if_neg Bool.false_ne_true,signedPrefix (by decide)]
      exact (parsedIff (by decide) _ _ x).mpr ⟨digits,spells,found⟩
    | prefixed marked spells =>
      rename_i mark radix rest digits
      rw [List.isEmpty_cons,if_neg Bool.false_ne_true,radixPrefixIff.mpr ⟨mark,rfl,marked⟩]
      exact (parsedIff (prefixNarrow marked) _ _ x).mpr ⟨digits,spells,found⟩

theorem digitUnits : ∀ d : Fin 36, charDigit (digitChar d) = some d.val ∧ isJsWhitespace (digitChar d) = false := by decide

theorem spellsNumeral {radix} (base : 2 ≤ radix) (narrow : radix ≤ 36) (n) :
    Spells radix ((numeral radix n).map digitChar) (numeral radix n) := by
  have below := @numeralBelow radix base n
  refine ⟨?_,below,fun none_ => ?_⟩
  · rw [List.map_map]
    exact List.map_congr_left fun d among => (digitUnits ⟨d,Nat.lt_of_lt_of_le (below d among) narrow⟩).1
  · have some_ := @numeralPositive radix n
    rw [none_] at some_
    cases some_

theorem trimNothing {text} (plain : ∀ c ∈ text, isJsWhitespace c = false) : trimMatches text = text := by
  have front : text.dropWhile isJsWhitespace = text := by
    cases text with
    | nil => rfl
    | cons c rest => rw [List.dropWhile_cons,plain c List.mem_cons_self,if_neg Bool.false_ne_true]
  rw [trimMatches,front,List.rdropWhile_eq_self_iff]
  intro some_ white
  rw [plain _ (List.getLast_mem some_)] at white
  cases white

def decimalText (x : BigIntValue) : List Char := toStringRadix x 10 (by decide) (by decide)

theorem decimalRead (x) : parseString (decimalText x) = .ok x := by
  have spells := spellsNumeral (show 2 ≤ 10 by decide) (by decide) x.magnitude
  have back : read 10 (numeral 10 x.magnitude) = x.magnitude := readNumeral _
  have plain : ∀ c ∈ decimalText x, isJsWhitespace c = false := by
    intro c among
    rw [decimalText,toStringNumeral,List.mem_append] at among
    rcases among with sign | digit
    · unfold signText at sign
      split at sign
      · rw [List.mem_singleton.mp sign]
        decide
      · cases sign
    · obtain ⟨d,among,rfl⟩ := List.mem_map.mp digit
      exact (digitUnits ⟨d,Nat.lt_of_lt_of_le (spells.below d among) (by decide)⟩).2
  rw [parseStringIff,trimNothing plain,decimalText,toStringNumeral,BigIntValue.toInt,signText]
  cases x.negative with
  | false =>
    have denotes := Denotes.plain spells
    rwa [back] at denotes
  | true =>
    have denotes := Denotes.minus spells
    rwa [back] at denotes

theorem everyInteger (z) : ∃ x : BigIntValue, x.toInt = z := by
  cases z with
  | ofNat n => exact ⟨BigIntValue.fromU64 n,BigIntValue.toIntFromU64 n⟩
  | negSucc n => exact ⟨(BigIntValue.fromU64 (n+1)).neg,by rw [BigIntValue.toIntNeg,BigIntValue.toIntFromU64]; rfl⟩

theorem textExact :
    (∀ x, parseString (decimalText x) = .ok x) ∧
    (∀ x y, decimalText x = decimalText y ↔ x = y) ∧
    (∀ (x : BigIntValue) (radix : Nat) (base : 2 ≤ radix) (narrow : radix ≤ 36), ∃ digits,
      toStringRadix x radix base narrow = signText x.negative ++ digits.map digitChar ∧
      (∀ d ∈ digits, d < radix) ∧ Canonical digits ∧ signedInt x.negative (read radix digits) = x.toInt ∧
      ∀ other, (∀ d ∈ other, d < radix) → Canonical other → read radix other = read radix digits → other = digits) ∧
    (∀ text, (∃ x, parseString text = .ok x) ↔ ∃ z, Denotes (trimMatches text) z) ∧
    (∀ text x, parseString text = .ok x ↔ Denotes (trimMatches text) x.toInt) ∧
    ∀ text, (∃ x, parseString text = .ok x) ∨ parseString text = .error (.syntaxError "invalid BigInt literal") := by
  refine ⟨decimalRead,?_,?_,?_,parseStringIff,?_⟩
  · intro x y
    constructor
    · intro same
      have both := (decimalRead x).symm.trans ((congrArg parseString same).trans (decimalRead y))
      exact Except.ok.inj both
    · rintro rfl
      rfl
  · intro x radix base narrow
    refine ⟨numeral radix x.magnitude,toStringNumeral x base narrow,numeralBelow base _,numeralCanonical _,by rw [readNumeral]; rfl,?_⟩
    intro other below canonical same
    rw [canonicalUnique base below canonical,same,readNumeral]
  · intro text
    constructor
    · rintro ⟨x,ok⟩
      exact ⟨x.toInt,(parseStringIff text x).mp ok⟩
    · rintro ⟨z,denotes⟩
      obtain ⟨x,rfl⟩ := everyInteger z
      exact ⟨x,(parseStringIff text x).mpr denotes⟩
  · intro text
    have outcome : ∀ negative digits radix, (∃ x, parsed negative digits radix = .ok x) ∨
        parsed negative digits radix = .error (.syntaxError "invalid BigInt literal") := fun negative digits radix => by
      unfold parsed
      cases parseDigits digits radix with
      | none => exact .inr rfl
      | some limbs => exact .inl ⟨_,rfl⟩
    unfold parseString
    dsimp only
    split
    · exact .inl ⟨_,rfl⟩
    · split
      · exact outcome _ _ _
      · exact outcome _ _ _

end Bamts.BigInt
