import Bamts.CheckedWord
import Bamts.DecimalText
import Bamts.RadixLiteral

/-! Big integer literals to decimal text: the checks of the digits and of the work, and the limbs in base `10^9`. -/
set_option linter.all false
namespace Bamts.BigIntLiteral
open ByteText CheckedWord Numeral RadixLiteral

inductive BigIntTextError
  | invalid | bytes | work
  deriving DecidableEq

def limbBase : Nat := 1000000000
def decimalLimbDigits : Nat := 9

def stripSuffix (last : Char) (text : Text) : Option Text := if text.getLast? = some last then some text.dropLast else none

def radixDigits : Text → Text × Nat
  | '0' :: 'x' :: digits => (digits,16)
  | '0' :: 'X' :: digits => (digits,16)
  | '0' :: 'o' :: digits => (digits,8)
  | '0' :: 'O' :: digits => (digits,8)
  | '0' :: 'b' :: digits => (digits,2)
  | '0' :: 'B' :: digits => (digits,2)
  | literal => (literal,10)

structure Scan where
  previousWasDigit : Bool
  significantDigits : Nat
  firstSignificantBits : Nat

-- `u32::BITS - digit.leading_zeros()`
def digitBits (digit : Nat) : Nat := if digit = 0 then 0 else digit.log2+1

def scanDigit (scan : Scan) (digit : Nat) : Except BigIntTextError Scan :=
  if scan.firstSignificantBits = 0 ∧ digit = 0 then .ok ⟨true,scan.significantDigits,scan.firstSignificantBits⟩
  else match add scan.significantDigits 1 with
    | none => .error .work
    | some count => .ok ⟨true,count,if scan.firstSignificantBits = 0 then digitBits digit else scan.firstSignificantBits⟩

def scanCharacter (radix : Nat) (scan : Scan) (character : Char) : Except BigIntTextError Scan :=
  if character = '_' then
    if scan.previousWasDigit then .ok ⟨false,scan.significantDigits,scan.firstSignificantBits⟩ else .error .invalid
  else match toDigit radix character with
    | none => .error .invalid
    | some digit => scanDigit scan digit

def scanDigits (radix : Nat) (digits : Text) : Except BigIntTextError Scan := digits.foldlM (scanCharacter radix) ⟨false,0,0⟩

def pushSignificant (state : Bool × Text) (character : Char) : Bool × Text :=
  if character ≠ '0' ∨ state.1 then (true,state.2 ++ [character]) else state

def decimalOutput (digits : Text) : Text :=
  let output := ((digits.filter (· != '_')).foldl pushSignificant (false,[])).2
  if output.isEmpty then ['0'] else output

def literalBits (radix : Nat) (scan : Scan) : Option Nat := do
  let remaining ← multiply (scan.significantDigits-1) (trailingZeros radix)
  add remaining scan.firstSignificantBits

def decimalBytes (bitLength : Nat) : Option Nat :=
  if bitLength = 0 then some 1
  else do
    let scaled ← multiply bitLength 30103
    let raised ← add scaled (100000-1)
    divide raised 100000

def limbCount (maxDecimalBytes : Nat) : Nat := (maxDecimalBytes+decimalLimbDigits-1)/decimalLimbDigits

def admission (radix maxBytes maxLimbOps : Nat) (scan : Scan) : Except BigIntTextError Nat :=
  match literalBits radix scan with
  | none => .error .work
  | some bitLength => match decimalBytes bitLength with
    | none => .error .work
    | some maxDecimalBytes =>
      if maxBytes < maxDecimalBytes then .error .bytes
      else match multiply scan.significantDigits (limbCount maxDecimalBytes) with
        | none => .error .work
        | some worstCaseLimbOps => if maxLimbOps < worstCaseLimbOps then .error .work else .ok maxDecimalBytes

def limbStep (radix carry limb : Nat) : Option (Nat × Nat) := do
  let product ← multiply limb radix
  let value ← add product carry
  let rest ← remainder value limbBase
  let above ← divide value limbBase
  some (rest%2^32,above)

def limbPass (radix : Nat) : Nat → List Nat → Option (List Nat × Nat)
  | carry, [] => some ([],carry)
  | carry, limb :: limbs => do
    let (limb,carry) ← limbStep radix carry limb
    let (limbs,carry) ← limbPass radix carry limbs
    some (limb :: limbs,carry)

/-- The limbs, and how many limb steps have run. -/
structure Conversion where
  limbs : List Nat
  significant : Bool
  limbOps : Nat

def pushDigit (radix : Nat) (state : Conversion) (character : Char) : Option Conversion := do
  let digit ← toDigit radix character
  if digit = 0 ∧ !state.significant then some state
  else
    let (limbs,carry) ← limbPass radix digit state.limbs
    some ⟨if carry ≠ 0 then limbs ++ [carry%2^32] else limbs,true,state.limbOps+state.limbs.length⟩

def convert (radix : Nat) (digits : Text) : Option Conversion := (digits.filter (· != '_')).foldlM (pushDigit radix) ⟨[0],false,0⟩

def spellLimbs (limbs : List Nat) : Except BigIntTextError Text :=
  match limbs.getLast? with
  | none => .error .invalid
  | some top => .ok (decimalText top ++ limbs.dropLast.reverse.flatMap fun limb : Nat => padInteger 9 limb)

def finish (maxBytes : Nat) (limbs : List Nat) : Except BigIntTextError Text := do
  let output ← spellLimbs limbs
  if maxBytes < size output then .error .bytes else .ok output

-- The outer option is the panic.
def convertedText (digits : Text) (radix maxBytes maxLimbOps : Nat) (scan : Scan) : Option (Except BigIntTextError Text) :=
  if radix = 10 then
    if maxBytes < max scan.significantDigits 1 then some (.error .bytes) else some (.ok (decimalOutput digits))
  else match admission radix maxBytes maxLimbOps scan with
    | .error error => some (.error error)
    | .ok _ => (convert radix digits).map fun state => finish maxBytes state.limbs

def canonicalDigits (digits : Text) (radix maxBytes maxLimbOps : Nat) : Option (Except BigIntTextError Text) :=
  if digits.isEmpty then some (.error .invalid)
  else match scanDigits radix digits with
    | .error error => some (.error error)
    | .ok scan => if !scan.previousWasDigit then some (.error .invalid) else convertedText digits radix maxBytes maxLimbOps scan

def canonicalBigintText (lexeme : Text) (maxBytes maxLimbOps : Nat) : Option (Except BigIntTextError Text) :=
  match stripSuffix 'n' lexeme with
  | none => some (.error .invalid)
  | some literal => canonicalDigits (radixDigits literal).1 (radixDigits literal).2 maxBytes maxLimbOps

variable {radix : Nat} {front digits : Text} {scan scan' : Scan} {c : Char}

/-- The digits from the first one on that is not zero. -/
def significant (radix : Nat) (digits : Text) : List Nat := (digits.filterMap (toDigit radix)).dropWhile (· == 0)

def EndsInDigit (radix : Nat) (digits : Text) : Prop := ∃ c d, digits.getLast? = some c ∧ toDigit radix c = some d

structure Scanned (radix : Nat) (front : Text) (scan : Scan) : Prop where
  known : ∀ c ∈ front, c = '_' ∨ (toDigit radix c).isSome
  behind : ∀ before after, front = before ++ '_' :: after → EndsInDigit radix before
  last : scan.previousWasDigit = true ↔ EndsInDigit radix front
  count : scan.significantDigits = (significant radix front).length
  first : scan.firstSignificantBits = digitBits ((significant radix front).headD 0)

theorem significantHead {d rest} (split : significant radix digits = d :: rest) : d ≠ 0 := by
  intro zero
  have head := List.head?_dropWhile_not (· == 0) (digits.filterMap (toDigit radix))
  rw [significant] at split
  rw [split,zero] at head
  cases head

theorem firstZero (scanned : Scanned radix front scan) : scan.firstSignificantBits = 0 ↔ significant radix front = [] := by
  rw [scanned.first]
  cases split : significant radix front with
  | nil => exact iff_of_true rfl rfl
  | cons d rest =>
    rw [List.headD_cons,digitBits,if_neg (significantHead split)]
    exact iff_of_false (Nat.succ_ne_zero _) (List.cons_ne_nil _ _)

theorem significantNext {d} (digit : toDigit radix c = some d) : significant radix (front ++ [c]) =
    if significant radix front = [] then if d = 0 then [] else [d] else significant radix front ++ [d] := by
  rw [significant,List.filterMap_append,List.filterMap_cons_some digit,List.filterMap_nil,List.dropWhile_append]
  cases split : (front.filterMap (toDigit radix)).dropWhile (· == 0) with
  | nil =>
    rw [List.isEmpty_nil,if_pos rfl,if_pos (show significant radix front = [] from split)]
    by_cases zero : d = 0
    · rw [if_pos zero,zero]
      rfl
    · rw [if_neg zero,List.dropWhile_cons_of_neg (by rwa [beq_iff_eq])]
  | cons e rest =>
    have some_ : significant radix front ≠ [] := by
      rw [significant,split]
      exact List.cons_ne_nil _ _
    rw [if_neg some_,significant,split]
    rfl

theorem separatorSkipped : significant radix (front ++ ['_']) = significant radix front := by
  rw [significant,List.filterMap_append,List.filterMap_cons_none (separatorNone radix),List.filterMap_nil,List.append_nil,significant]

theorem endsInDigitNext : EndsInDigit radix (front ++ [c]) ↔ (toDigit radix c).isSome = true := by
  rw [EndsInDigit,List.getLast?_concat,Option.isSome_iff_exists]
  constructor
  · rintro ⟨_,d,same,digit⟩
    cases same
    exact ⟨d,digit⟩
  · rintro ⟨d,digit⟩
    exact ⟨c,d,rfl,digit⟩

theorem Scanned.start (radix) : Scanned radix [] ⟨false,0,0⟩ := by
  refine ⟨fun c at_ => absurd at_ List.not_mem_nil,fun before after split => ?_,iff_of_false (by decide) ?_,rfl,rfl⟩
  · exact absurd split.symm (by simp)
  · rintro ⟨c,d,none,-⟩
    cases none

theorem behindNext (behind : ∀ before after, front = before ++ '_' :: after → EndsInDigit radix before) (ends : c = '_' → EndsInDigit radix front) :
    ∀ before after, front ++ [c] = before ++ '_' :: after → EndsInDigit radix before := by
  intro before after split
  rcases List.eq_nil_or_concat after with rfl | ⟨after',last,rfl⟩
  · obtain ⟨same,last⟩ := List.append_inj' split rfl
    rw [← same]
    exact ends (List.singleton_inj.mp last)
  · rw [List.concat_eq_append,← List.cons_append,← List.append_assoc] at split
    exact behind before after' (List.append_inj' split rfl).1

theorem knownNext (known : ∀ c ∈ front, c = '_' ∨ (toDigit radix c).isSome) (last : c = '_' ∨ (toDigit radix c).isSome) :
    ∀ d ∈ front ++ [c], d = '_' ∨ (toDigit radix d).isSome := by
  intro d at_
  rcases List.mem_append.mp at_ with front_ | last_
  · exact known d front_
  · rw [List.mem_singleton.mp last_]
    exact last

theorem Scanned.separator (scanned : Scanned radix front scan) (ends : EndsInDigit radix front) :
    Scanned radix (front ++ ['_']) ⟨false,scan.significantDigits,scan.firstSignificantBits⟩ := by
  refine ⟨knownNext scanned.known (.inl rfl),behindNext scanned.behind fun _ => ends,?_,?_,?_⟩
  · rw [endsInDigitNext,separatorNone]
    exact iff_of_false Bool.false_ne_true Bool.false_ne_true
  · rw [separatorSkipped]
    exact scanned.count
  · rw [separatorSkipped]
    exact scanned.first

theorem Scanned.digit {d} (scanned : Scanned radix front scan) (digit : toDigit radix c = some d) (other : c ≠ '_')
    (found : scanDigit scan d = .ok scan') : Scanned radix (front ++ [c]) scan' := by
  have none := firstZero scanned
  have some_ : (toDigit radix c).isSome = true := by rw [digit]; rfl
  have next := @significantNext radix front c d digit
  rw [scanDigit] at found
  suffices parts : scan'.previousWasDigit = true ∧ scan'.significantDigits = (significant radix (front ++ [c])).length ∧
      scan'.firstSignificantBits = digitBits ((significant radix (front ++ [c])).headD 0) from
    ⟨knownNext scanned.known (.inr some_),behindNext scanned.behind fun same => absurd same other,iff_of_true parts.1 (endsInDigitNext.mpr some_),
      parts.2.1,parts.2.2⟩
  by_cases skip : scan.firstSignificantBits = 0 ∧ d = 0
  · rw [if_pos skip] at found
    cases found
    have empty := none.mp skip.1
    rw [next,if_pos empty,if_pos skip.2]
    refine ⟨rfl,?_,?_⟩
    · rw [← empty]
      exact scanned.count
    · rw [← empty]
      exact scanned.first
  · rw [if_neg skip] at found
    have counted : scan' = ⟨true,scan.significantDigits+1,if scan.firstSignificantBits = 0 then digitBits d else scan.firstSignificantBits⟩ := by
      rw [add] at found
      split at found
      · cases found
      · rename_i sum
        split at sum
        · cases sum
          cases found
          rfl
        · cases sum
    rw [counted,next,scanned.count]
    by_cases zero : scan.firstSignificantBits = 0
    · have empty := none.mp zero
      rw [if_pos empty,if_neg fun d_ => skip ⟨zero,d_⟩,if_pos zero,empty]
      exact ⟨rfl,rfl,rfl⟩
    · have some' : significant radix front ≠ [] := fun empty => zero (none.mpr empty)
      rw [if_neg some',if_neg zero,List.length_append,List.length_singleton,scanned.first]
      refine ⟨rfl,rfl,?_⟩
      obtain ⟨e,rest,split⟩ := List.exists_cons_of_ne_nil some'
      rw [split]
      rfl

theorem Scanned.next (scanned : Scanned radix front scan) (found : scanCharacter radix scan c = .ok scan') : Scanned radix (front ++ [c]) scan' := by
  rw [scanCharacter] at found
  by_cases separator : c = '_'
  · rw [if_pos separator] at found
    split at found
    · rename_i ends
      cases found
      rw [separator]
      exact scanned.separator (scanned.last.mp ends)
    · cases found
  · rw [if_neg separator] at found
    split at found
    · cases found
    · rename_i d digit
      exact scanned.digit digit separator found

theorem Scanned.run (rest) : ∀ {front scan}, Scanned radix front scan → rest.foldlM (scanCharacter radix) scan = .ok scan' →
    Scanned radix (front ++ rest) scan' := by
  induction rest with
  | nil =>
    intro front scan scanned found
    cases found
    rwa [List.append_nil]
  | cons c rest ih =>
    intro front scan scanned found
    rw [List.foldlM_cons] at found
    cases first : scanCharacter radix scan c with
    | error error => rw [first] at found; cases found
    | ok next =>
      rw [first] at found
      have later := ih (scanned.next first) found
      rwa [List.append_assoc] at later

theorem scanDigitsSound (found : scanDigits radix digits = .ok scan) : Scanned radix digits scan := (Scanned.start radix).run digits found

def marks (radix : Nat) : List Text :=
  if radix = 16 then [['0','x'],['0','X']] else if radix = 8 then [['0','o'],['0','O']] else if radix = 2 then [['0','b'],['0','B']] else [[]]

/-- Digits in a radix under its mark, separators only between digits, and `n` behind. -/
structure Literal (lexeme : Text) (radix : Nat) (digits : Text) : Prop where
  kind : radix = 16 ∨ radix = 8 ∨ radix = 2 ∨ radix = 10
  spelled : ∃ mark ∈ marks radix, lexeme = mark ++ digits ++ ['n']
  some_ : digits ≠ []
  known : ∀ c ∈ digits, c = '_' ∨ (toDigit radix c).isSome
  between : ∀ before after, digits = before ++ '_' :: after → EndsInDigit radix before ∧ ∃ c d, after.head? = some c ∧ toDigit radix c = some d

theorem radixSplit {literal} (split : radixDigits literal = (digits,radix)) :
    (radix = 16 ∨ radix = 8 ∨ radix = 2 ∨ radix = 10) ∧ ∃ mark ∈ marks radix, literal = mark ++ digits := by
  unfold radixDigits at split
  split at split <;> cases split
  · exact ⟨.inl rfl,['0','x'],by decide,rfl⟩
  · exact ⟨.inl rfl,['0','X'],by decide,rfl⟩
  · exact ⟨.inr (.inl rfl),['0','o'],by decide,rfl⟩
  · exact ⟨.inr (.inl rfl),['0','O'],by decide,rfl⟩
  · exact ⟨.inr (.inr (.inl rfl)),['0','b'],by decide,rfl⟩
  · exact ⟨.inr (.inr (.inl rfl)),['0','B'],by decide,rfl⟩
  · exact ⟨.inr (.inr (.inr rfl)),[],by decide,rfl⟩

/-- A separator in the last place or in front of another one would leave the text without a digit before the next one. -/
theorem betweenDigits (scanned : Scanned radix digits scan) (ends : scan.previousWasDigit = true) {before after : Text}
    (split : digits = before ++ '_' :: after) : ∃ c d, after.head? = some c ∧ toDigit radix c = some d := by
  have none := separatorNone radix
  cases after with
  | nil =>
    obtain ⟨c,d,last,digit⟩ := scanned.last.mp ends
    rw [split,List.getLast?_concat] at last
    cases last
    rw [none] at digit
    cases digit
  | cons c after =>
    rcases scanned.known c (by rw [split]; simp) with rfl | some_
    · obtain ⟨c,d,last,digit⟩ := scanned.behind (before ++ ['_']) after (by rw [split,List.append_assoc]; rfl)
      rw [List.getLast?_concat] at last
      cases last
      rw [none] at digit
      cases digit
    · obtain ⟨d,digit⟩ := Option.isSome_iff_exists.mp some_
      exact ⟨c,d,rfl,digit⟩

theorem literalScanned {lexeme literal} (suffix_ : stripSuffix 'n' lexeme = some literal) (split : radixDigits literal = (digits,radix))
    (some_ : digits ≠ []) (scanned : Scanned radix digits scan) (ends : scan.previousWasDigit = true) : Literal lexeme radix digits := by
  obtain ⟨kind,mark,at_,spelled⟩ := radixSplit split
  have whole : lexeme = literal ++ ['n'] := by
    rw [stripSuffix] at suffix_
    split at suffix_
    · rename_i last
      cases suffix_
      exact (List.dropLast_append_getLast? _ last).symm
    · cases suffix_
  exact ⟨kind,⟨mark,at_,by rw [whole,spelled]⟩,some_,scanned.known,fun before after split_ =>
    ⟨scanned.behind before after split_,betweenDigits scanned ends split_⟩⟩

/-- What is left without the separators are digits. -/
theorem digitsKnown (known : ∀ c ∈ digits, c = '_' ∨ (toDigit radix c).isSome) : ∀ c ∈ digits.filter (· != '_'), (toDigit radix c).isSome = true := by
  intro c at_
  rw [List.mem_filter,bne_iff_ne] at at_
  exact (known c at_.1).resolve_left at_.2

end Bamts.BigIntLiteral
