import Bamts.ByteText
import Bamts.Numeral

/-! Integers as decimal text: the fixed-width integer parser of the source's standard library and
its padded printer. -/
set_option linter.all false
namespace Bamts.ByteText
open Numeral

def isDecimal (c : Char) : Bool := '0' ≤ c && c ≤ '9'

def digitOf (c : Char) : Option Nat := if isDecimal c then some (c.toNat-48) else none

def digitChar (d : Nat) : Char := Char.ofNat (48+d)

theorem digitCharFacts {d} (small : d < 10) :
    isDecimal (digitChar d) = true ∧ digitOf (digitChar d) = some d ∧ (digitChar d).utf8Size = 1 := by
  have table : ∀ d : Fin 10, isDecimal (digitChar d) = true ∧ digitOf (digitChar d) = some d.val ∧
      (digitChar d).utf8Size = 1 := by decide
  exact table ⟨d,small⟩

theorem decimalIsDigit {c} (h : isDecimal c = true) : ∃ d, d < 10 ∧ c = digitChar d ∧ digitOf c = some d := by
  have range : 48 ≤ c.toNat ∧ c.toNat ≤ 57 := by
    simp only [isDecimal,Bool.and_eq_true,decide_eq_true_eq,Char.le_def,UInt32.le_iff_toNat_le] at h
    exact h
  have back : digitChar (c.toNat-48) = c := by
    rw [digitChar,Nat.add_sub_of_le range.1,Char.ofNat_toNat]
  exact ⟨c.toNat-48,by omega,back.symm,by rw [digitOf,if_pos h]⟩

/-- Nothing but digits, at least one of them. -/
def IsDigits (text : Text) : Prop := text ≠ [] ∧ ∀ c ∈ text, isDecimal c = true

instance (text) : Decidable (IsDigits text) := @instDecidableAnd _ _ _ (List.decidableBAll _ text)

def digitsOf (text : Text) : Nat := Numeral.read 10 (text.map fun c => c.toNat-48)

def readDigits (text : Text) : Option Nat := if IsDigits text then some (digitsOf text) else none

/-- An optional sign, then digits. The unsigned types take no minus. -/
def signedInteger (signed : Bool) (text : Text) : Option Int :=
  match text with
  | '+' :: digits => (readDigits digits).map Int.ofNat
  | '-' :: digits => if signed then (readDigits digits).map fun n => -Int.ofNat n else none
  | digits => (readDigits digits).map Int.ofNat

/-- `str::parse` of an integer type with its range. -/
def parseInteger (signed : Bool) (low high : Int) (text : Text) : Option Int :=
  (signedInteger signed text).filter fun n => low ≤ n ∧ n ≤ high

def parseI64 (text : Text) : Option Int := parseInteger true (-2^63) (2^63-1) text
def parseI32 (text : Text) : Option Int := parseInteger true (-2^31) (2^31-1) text

theorem digitsBelow {text} (digits : ∀ c ∈ text, isDecimal c = true) : digitsOf text < 10^text.length := by
  induction text with
  | nil => decide
  | cons c rest ih =>
    have below := ih fun d among => digits d (List.mem_cons_of_mem c among)
    obtain ⟨d,small,_,value⟩ := decimalIsDigit (digits c List.mem_cons_self)
    have first : c.toNat-48 = d := by
      rw [digitOf,if_pos (digits c List.mem_cons_self)] at value
      exact Option.some.inj value
    have top : d*10^rest.length ≤ 9*10^rest.length := Nat.mul_le_mul_right _ (by omega)
    rw [digitsOf] at below ⊢
    rw [List.map_cons,readCons,first,List.length_map,List.length_cons,Nat.pow_succ]
    omega

theorem lengthSize (text) : text.length ≤ size text := by
  induction text with
  | nil => exact Nat.le_refl _
  | cons c rest ih =>
    have := c.utf8Size_pos
    rw [List.length_cons,sizeCons]
    omega

theorem readDigitsBelow {text n} (read : readDigits text = some n) : n < 10^text.length := by
  rw [readDigits] at read
  split at read
  · rename_i digits
    cases read
    exact digitsBelow digits.2
  · cases read

theorem signedBelow {signed text n} (read : signedInteger signed text = some n) :
    n.natAbs < 10^size text := by
  have shorter : ∀ {k : Nat}, k ≤ text.length → 10^k ≤ 10^size text := fun short =>
    Nat.pow_le_pow_right (by decide) (Nat.le_trans short (lengthSize text))
  unfold signedInteger at read
  split at read
  · obtain ⟨m,found,rfl⟩ := Option.map_eq_some_iff.mp read
    exact Nat.lt_of_lt_of_le (readDigitsBelow found) (shorter (Nat.le_succ _))
  · split at read
    · obtain ⟨m,found,rfl⟩ := Option.map_eq_some_iff.mp read
      rw [Int.natAbs_neg]
      exact Nat.lt_of_lt_of_le (readDigitsBelow found) (shorter (Nat.le_succ _))
    · cases read
  · obtain ⟨m,found,rfl⟩ := Option.map_eq_some_iff.mp read
    exact Nat.lt_of_lt_of_le (readDigitsBelow found) (shorter (Nat.le_refl _))

/-- A short text never leaves the range of a wide type. -/
theorem parseShort {signed low high text} (fits : low ≤ -10^size text ∧ 10^size text ≤ high) :
    parseInteger signed low high text = signedInteger signed text := by
  rw [parseInteger]
  cases read : signedInteger signed text with
  | none => rfl
  | some n =>
    have below := signedBelow read
    have cast_ : ((10^size text : Nat) : Int) = 10^size text := Nat.cast_pow 10 (size text)
    have inside : low ≤ n ∧ n ≤ high := by omega
    simp [Option.filter,inside]

/-- Digits alone are read as the number they spell. -/
theorem signedDigits {signed text} (digits : IsDigits text) :
    signedInteger signed text = some (digitsOf text : Int) := by
  have plain : readDigits text = some (digitsOf text) := if_pos digits
  have minus : isDecimal '-' = false := by decide
  have plus : isDecimal '+' = false := by decide
  unfold signedInteger
  split
  · have := digits.2 '+' List.mem_cons_self
    simp [plus] at this
  · have := digits.2 '-' List.mem_cons_self
    simp [minus] at this
  · rw [plain]
    rfl

theorem parseDigits {signed} {low high : Int} {text} (digits : IsDigits text) (fits : low ≤ digitsOf text ∧ (digitsOf text : Int) ≤ high) :
    parseInteger signed low high text = some (digitsOf text : Int) := by
  rw [parseInteger,signedDigits digits]
  simp [Option.filter,fits]

def decimalText (n : Nat) : Text := (numeral 10 n).map digitChar

/-- `{:0width}` -/
def padInteger (width : Nat) (value : Int) : Text :=
  let sign := if value < 0 then ['-'] else []
  let body := decimalText value.natAbs
  sign ++ List.replicate (width-sign.length-body.length) '0' ++ body

def fixedText (width n : Nat) : Text := (places 10 width n).map digitChar

theorem padFixed {width n : Nat} (positive : 0 < width) (small : n < 10^width) :
    padInteger width n = fixedText width n := by
  have natural : ¬ (n : Int) < 0 := by omega
  have zero : '0' = digitChar 0 := rfl
  rw [fixedText,numeralPlaces (by decide) positive small,List.map_append,List.map_replicate,← zero]
  simp [padInteger,natural,decimalText]

theorem placesBelow (width n) : ∀ d ∈ places 10 width n, d < 10 := by
  induction width generalizing n with
  | zero => simp [places]
  | succ width ih =>
    intro d among
    rw [places,List.mem_append,List.mem_singleton] at among
    rcases among with front | last
    · exact ih _ d front
    · omega

theorem digitCharsDigits {digits} (some_ : digits ≠ []) (below : ∀ d ∈ digits, d < 10) :
    IsDigits (digits.map digitChar) ∧ digitsOf (digits.map digitChar) = Numeral.read 10 digits := by
  constructor
  · constructor
    · simpa using some_
    · intro c among
      obtain ⟨d,inside,rfl⟩ := List.mem_map.mp among
      exact (digitCharFacts (below d inside)).1
  · rw [digitsOf,List.map_map]
    have same : ∀ d ∈ digits, ((fun c : Char => c.toNat-48) ∘ digitChar) d = id d := by
      intro d inside
      obtain ⟨digit,value,_⟩ := digitCharFacts (below d inside)
      rw [digitOf,if_pos digit] at value
      exact Option.some.inj value
    rw [List.map_congr_left same,List.map_id]

theorem fixedDigits {width n} (positive : 0 < width) :
    IsDigits (fixedText width n) ∧ digitsOf (fixedText width n) = n % 10^width := by
  have some_ : places 10 width n ≠ [] := by
    intro none_
    have : (places 10 width n).length = width := placesLength 10 width n
    rw [none_] at this
    exact absurd this positive.ne
  obtain ⟨digits,value⟩ := digitCharsDigits some_ (placesBelow width n)
  exact ⟨digits,value.trans (readPlaces width n)⟩

theorem decimalDigits (n) : IsDigits (decimalText n) ∧ digitsOf (decimalText n) = n := by
  have some_ : numeral 10 n ≠ [] := List.ne_nil_of_length_pos (numeralPositive n)
  obtain ⟨digits,value⟩ := digitCharsDigits some_ (numeralBelow (by decide) n)
  exact ⟨digits,value.trans (readNumeral n)⟩

theorem digitsSize {text} (digits : ∀ c ∈ text, isDecimal c = true) : size text = text.length := by
  induction text with
  | nil => rfl
  | cons c rest ih =>
    obtain ⟨d,small,rfl,_⟩ := decimalIsDigit (digits c List.mem_cons_self)
    rw [sizeCons,(digitCharFacts small).2.2,ih fun e among => digits e (List.mem_cons_of_mem _ among),List.length_cons]
    omega

end Bamts.ByteText
