import Mathlib.Data.Nat.Digits.Lemmas
import Mathlib.Tactic.Ring

/-! Numerals: the digits of a number in a radix from the top, its lowest digits in a fixed number of
places, and reading a row of digits back. -/
set_option linter.all false
namespace Bamts.Numeral

variable {radix : Nat}

def numeral (radix n : Nat) : List Nat := if n = 0 then [0] else (Nat.digits radix n).reverse

-- The lowest `k` digits, with zeros in front.
def places (radix : Nat) : Nat → Nat → List Nat
  | 0, _ => []
  | k+1, n => places radix k (n/radix) ++ [n%radix]

def read (radix : Nat) (digits : List Nat) : Nat := digits.foldl (fun n d => n*radix+d) 0

theorem placesLength (radix k n) : (places radix k n).length = k := by
  induction k generalizing n with
  | zero => rfl
  | succ k ih => rw [places,List.length_append,ih,List.length_singleton]

theorem placesZero (radix k) : places radix k 0 = List.replicate k 0 := by
  induction k with
  | zero => rfl
  | succ k ih => rw [places,Nat.zero_div,Nat.zero_mod,ih,List.replicate_succ']

theorem placesMod (k n) : places radix k (n%radix^k) = places radix k n := by
  induction k generalizing n with
  | zero => rfl
  | succ k ih =>
    rw [places,places,← ih (n/radix),Nat.pow_succ',Nat.mod_mul_right_div_self,Nat.mod_mul_right_mod]

theorem numeralZero : numeral radix 0 = [0] := rfl

theorem numeralSmall {n} (small : n < radix) : numeral radix n = [n] := by
  unfold numeral
  split
  · rename_i zero
    rw [zero]
  · rename_i some_
    rw [Nat.digits_of_lt _ _ some_ small]
    rfl

theorem numeralLarge {n} (base : 1 < radix) (large : radix ≤ n) : numeral radix n = numeral radix (n/radix) ++ [n%radix] := by
  have positive : 0 < n := by omega
  have above : n/radix ≠ 0 := Nat.div_ne_zero_iff.mpr ⟨by omega,large⟩
  rw [numeral,numeral,if_neg positive.ne',if_neg above,Nat.digits_def' base positive,List.reverse_cons]

theorem numeralSplit {n} (base : 1 < radix) (k) (large : radix^k ≤ n) :
    numeral radix n = numeral radix (n/radix^k) ++ places radix k n := by
  induction k generalizing n with
  | zero => rw [Nat.pow_zero,Nat.div_one,places,List.append_nil]
  | succ k ih =>
    have once : radix ≤ n := Nat.le_trans (Nat.le_self_pow (Nat.succ_ne_zero k) radix) large
    have rest : radix^k ≤ n/radix := (Nat.le_div_iff_mul_le (by omega)).mpr large
    rw [numeralLarge base once,ih rest,places,Nat.div_div_eq_div_mul,← Nat.pow_succ',List.append_assoc]

theorem numeralPlaces {n} (base : 1 < radix) {k} (positive : 0 < k) (small : n < radix^k) :
    places radix k n = List.replicate (k-(numeral radix n).length) 0 ++ numeral radix n := by
  induction k generalizing n with
  | zero => exact absurd positive (Nat.lt_irrefl 0)
  | succ k ih =>
    rcases Nat.lt_or_ge n radix with single | large
    · rw [numeralSmall single,List.length_singleton,Nat.add_sub_cancel,places,Nat.div_eq_of_lt single,Nat.mod_eq_of_lt single,placesZero]
    · have more : 0 < k := Nat.pos_of_ne_zero fun zero => by
        rw [zero,Nat.pow_one] at small
        omega
      have rest : n/radix < radix^k := Nat.div_lt_of_lt_mul (by rwa [← Nat.pow_succ'])
      rw [places,ih more rest,numeralLarge base large,List.length_append,List.length_singleton,Nat.add_sub_add_right,List.append_assoc]

theorem numeralLength {n k} (base : 1 < radix) (positive : 0 < k) : (numeral radix n).length ≤ k ↔ n < radix^k := by
  unfold numeral
  split
  · rename_i zero
    exact ⟨fun _ => by rw [zero]; exact Nat.pow_pos (by omega),fun _ => positive⟩
  · rw [List.length_reverse]
    exact Nat.digits_length_le_iff base n

theorem numeralPositive (n) : 0 < (numeral radix n).length := by
  unfold numeral
  split
  · exact Nat.one_pos
  · rename_i some_
    rw [List.length_reverse]
    exact List.length_pos_of_ne_nil (Nat.digits_ne_nil_iff_ne_zero.mpr some_)

theorem numeralBelow (base : 1 < radix) (n) : ∀ d ∈ numeral radix n, d < radix := by
  unfold numeral
  split
  · intro d among
    rw [List.mem_singleton.mp among]
    omega
  · intro d among
    exact Nat.digits_lt_base base (List.mem_reverse.mp among)

theorem readFrom (start digits) : digits.foldl (fun n d => n*radix+d) start = start*radix^digits.length + read radix digits := by
  induction digits generalizing start with
  | nil => rw [List.foldl_nil,List.length_nil,Nat.pow_zero,Nat.mul_one]; rfl
  | cons d rest ih =>
    rw [read,List.foldl_cons,List.foldl_cons,ih,ih (0*radix+d),List.length_cons,Nat.pow_succ]
    ring

theorem readCons (d rest) : read radix (d :: rest) = d*radix^rest.length + read radix rest := by
  rw [read,List.foldl_cons,readFrom,Nat.zero_mul,Nat.zero_add]

theorem readAppend (a b) : read radix (a ++ b) = read radix a*radix^b.length + read radix b := by
  rw [read,List.foldl_append,readFrom]
  rfl

theorem readPlaces (k n) : read radix (places radix k n) = n%radix^k := by
  induction k generalizing n with
  | zero => rw [Nat.pow_zero,Nat.mod_one]; rfl
  | succ k ih =>
    rw [places,readAppend,ih,readCons,List.length_singleton,List.length_nil,Nat.pow_one,Nat.pow_zero,Nat.mul_one,Nat.pow_succ',Nat.mod_mul]
    have nothing : read radix [] = 0 := rfl
    rw [nothing]
    ring

theorem readReverse (digits) : read radix digits.reverse = Nat.ofDigits radix digits := by
  induction digits with
  | nil => rfl
  | cons d rest ih =>
    rw [List.reverse_cons,read,List.foldl_append,Nat.ofDigits_cons]
    have above : List.foldl (fun n d => n*radix+d) 0 rest.reverse = Nat.ofDigits radix rest := ih
    rw [above,List.foldl_cons,List.foldl_nil]
    ring

theorem readNumeral (n) : read radix (numeral radix n) = n := by
  unfold numeral
  split
  · rename_i zero
    rw [zero,read,List.foldl_cons,List.foldl_nil,Nat.zero_mul]
  · rw [readReverse,Nat.ofDigits_digits]

theorem numeralInjective {m n} (same : numeral radix m = numeral radix n) : m = n := by
  calc m = read radix (numeral radix m) := (readNumeral m).symm
    _ = read radix (numeral radix n) := by rw [same]
    _ = n := readNumeral n

def Canonical (digits : List Nat) : Prop := digits = [0] ∨ digits ≠ [] ∧ digits.head? ≠ some 0

theorem numeralCanonical (n) : Canonical (numeral radix n) := by
  unfold numeral
  split
  · exact .inl rfl
  · rename_i some_
    refine .inr ⟨fun none_ => Nat.digits_ne_nil_iff_ne_zero.mpr some_ (List.reverse_eq_nil_iff.mp none_),fun zero => ?_⟩
    rw [List.head?_reverse,List.getLast?_eq_some_getLast (Nat.digits_ne_nil_iff_ne_zero.mpr some_)] at zero
    exact Nat.getLast_digit_ne_zero radix some_ (Option.some.inj zero)

theorem canonicalUnique (base : 1 < radix) {digits} (below : ∀ d ∈ digits, d < radix) (canonical : Canonical digits) :
    digits = numeral radix (read radix digits) := by
  rcases canonical with zero | ⟨some_,head⟩
  · have nothing : read radix [0] = 0 := readNumeral 0
    rw [zero,nothing,numeralZero]
  · have back : read radix digits.reverse.reverse = Nat.ofDigits radix digits.reverse := readReverse digits.reverse
    rw [List.reverse_reverse] at back
    have spelled : Nat.digits radix (read radix digits) = digits.reverse := by
      rw [back]
      refine Nat.digits_ofDigits _ base _ (fun d among => below d (List.mem_reverse.mp among)) fun real zero => head ?_
      rw [← List.getLast?_reverse,List.getLast?_eq_some_getLast real,zero]
    unfold numeral
    split
    · rename_i zero
      rw [zero,Nat.digits_zero] at spelled
      exact absurd (List.reverse_eq_nil_iff.mp spelled.symm) some_
    · rw [spelled,List.reverse_reverse]

end Bamts.Numeral
