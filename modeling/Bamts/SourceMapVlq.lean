import Mathlib.Data.Nat.Bitwise
import Mathlib.Tactic.Ring

/-! Base64 VLQ: signed numbers in digits of five bits, the lowest first and the sign in the low bit. -/
set_option linter.all false
namespace Bamts.SourceMaps

def base64 (digit : Nat) : Char := "ABCDEFGHIJKLMNOPQRSTUVWXYZabcdefghijklmnopqrstuvwxyz0123456789+/".toList.getD digit 'A'

def base64Value (c : Char) : Option Nat :=
  if 65 ≤ c.toNat ∧ c.toNat ≤ 90 then some (c.toNat-65)
  else if 97 ≤ c.toNat ∧ c.toNat ≤ 122 then some (c.toNat-97+26)
  else if 48 ≤ c.toNat ∧ c.toNat ≤ 57 then some (c.toNat-48+52)
  else if c = '+' then some 62
  else if c = '/' then some 63
  else none

def vlqLoop (remaining : Nat) : List Char :=
  if remaining/32 = 0 then [base64 (remaining%32)] else base64 (remaining%32 ||| 32) :: vlqLoop (remaining/32)
termination_by remaining
decreasing_by omega

def encodeVlq (value : Int) : List Char := vlqLoop (if value < 0 then value.natAbs <<< 1 ||| 1 else value.natAbs <<< 1)

-- `none` where the text ends early, has another character, or the shift leaves 128 bits.
def decodeLoop (result shift consumed : Nat) : List Char → Option (Int × Nat)
  | [] => none
  | c :: rest =>
    match base64Value c with
    | none => none
    | some digit =>
      if 128 ≤ shift then none
      else
        let result := result ||| ((digit &&& 31) <<< shift)%2^128
        if digit &&& 32 = 0 then
          if 2^63 ≤ result >>> 1 then none else some (if result &&& 1 = 1 then -(result >>> 1 : Nat) else (result >>> 1 : Nat),consumed+1)
        else decodeLoop result (shift+5) (consumed+1) rest

def decodeVlq (input : List Char) : Option (Int × Nat) := decodeLoop 0 0 0 input

-- `toList_ofList` reads the characters of the literal, so that the kernel does not decode its bytes.
theorem base64Table : ∃ table : List Char, (∀ digit, base64 digit = table.getD digit 'A') ∧
    table.map base64Value = (List.range 64).map some :=
  ⟨_,fun digit => congrArg (·.getD digit 'A') String.toList_ofList,by decide +kernel⟩

theorem digitValue {d} (small : d < 64) : base64Value (base64 d) = some d := by
  obtain ⟨table,spelled,values⟩ := base64Table
  have long : table.length = 64 := by simpa using congrArg List.length values
  have inside : d < table.length := long ▸ small
  have row := congrArg (·[d]?) values
  simp only [List.getElem?_map,List.getElem?_eq_getElem inside,List.getElem?_range small,Option.map_some,Option.some.injEq] at row
  rwa [spelled,List.getD_eq_getElem _ _ inside]

theorem digitMask : ∀ d : Fin 32, d.val ||| 32 < 64 ∧ d.val &&& 31 = d.val ∧ (d.val ||| 32) &&& 31 = d.val ∧ d.val &&& 32 = 0 ∧
    (d.val ||| 32) &&& 32 ≠ 0 := by decide +kernel

theorem digitFields (d : Fin 32) : base64Value (base64 d.val) = some d.val ∧ base64Value (base64 (d.val ||| 32)) = some (d.val ||| 32) ∧
    d.val &&& 31 = d.val ∧ (d.val ||| 32) &&& 31 = d.val ∧ d.val &&& 32 = 0 ∧ (d.val ||| 32) &&& 32 ≠ 0 := by
  obtain ⟨small,masks⟩ := digitMask d
  exact ⟨digitValue (d.isLt.trans (by decide)),digitValue small,masks⟩

theorem digitPlain {d} (small : d < 64) : base64 d ≠ ';' ∧ base64 d ≠ ',' := by
  have value := digitValue small
  constructor
  · intro semicolon
    rw [semicolon] at value
    cases value
  · intro comma
    rw [comma] at value
    cases value

theorem vlqPlain (remaining) : ∀ c ∈ vlqLoop remaining, c ≠ ';' ∧ c ≠ ',' := by
  induction remaining using vlqLoop.induct with
  | case1 remaining last =>
    rw [vlqLoop,if_pos last]
    intro c among
    rw [List.mem_singleton.mp among]
    exact digitPlain ((Nat.mod_lt _ (by decide)).trans (show 32 < 64 by decide))
  | case2 remaining more ih =>
    rw [vlqLoop,if_neg more]
    exact List.forall_mem_cons.mpr ⟨digitPlain (digitMask ⟨remaining%32,Nat.mod_lt _ (by decide)⟩).1,ih⟩

theorem vlqSome (remaining) : vlqLoop remaining ≠ [] := by
  rw [vlqLoop]
  split <;> exact List.cons_ne_nil _ _

def vlqValue (whole : Nat) : Int := if whole%2 = 1 then -(whole/2 : Nat) else (whole/2 : Nat)

theorem digitLands {d result shift} (digit : d < 32) (low : result < 2^shift) (fits : d*2^shift < 2^128) :
    result ||| (d <<< shift)%2^128 = result+d*2^shift ∧ result+d*2^shift < 2^(shift+5) := by
  refine ⟨?_,?_⟩
  · rw [Nat.shiftLeft_eq,Nat.mod_eq_of_lt fits,Nat.or_comm,← Nat.shiftLeft_eq,← Nat.shiftLeft_add_eq_or_of_lt low,Nat.add_comm]
  · calc result+d*2^shift < (d+1)*2^shift := by rw [Nat.succ_mul]; omega
      _ ≤ 2^5*2^shift := Nat.mul_le_mul_right _ digit
      _ = 2^(shift+5) := by rw [← Nat.pow_add,Nat.add_comm]

theorem decodeDigits {remaining result shift} (low : result < 2^shift) (fits : remaining*2^shift < 2^128) (short : shift < 128)
    (small : (result+remaining*2^shift)/2 < 2^63) (consumed rest) :
    decodeLoop result shift consumed (vlqLoop remaining ++ rest) =
    some (vlqValue (result+remaining*2^shift),consumed+(vlqLoop remaining).length) := by
  induction remaining using vlqLoop.induct generalizing result shift consumed with
  | case1 remaining last =>
    have single : remaining < 32 := by omega
    obtain ⟨found,-,kept,-,ends,-⟩ := digitFields ⟨remaining,single⟩
    obtain ⟨lands,-⟩ := digitLands single low fits
    rw [vlqLoop,if_pos last,Nat.mod_eq_of_lt single,List.singleton_append,decodeLoop,found]
    dsimp only at kept ends ⊢
    rw [if_neg (Nat.not_le.mpr short),kept,lands,if_pos ends,Nat.shiftRight_eq_div_pow,Nat.pow_one,if_neg (Nat.not_le.mpr small),
      Nat.and_one_is_mod]
    rfl
  | case2 remaining more ih =>
    have digit := Nat.mod_lt remaining (show 0 < 32 by decide)
    have parts := Nat.div_add_mod remaining 32
    obtain ⟨-,found,-,kept,-,goes⟩ := digitFields ⟨remaining%32,digit⟩
    have inside : remaining%32*2^shift < 2^128 := Nat.lt_of_le_of_lt (Nat.mul_le_mul_right _ (Nat.mod_le _ _)) fits
    obtain ⟨lands,low'⟩ := digitLands digit low inside
    have power : 2^(shift+5) = 32*2^shift := by rw [Nat.pow_add,Nat.mul_comm]
    have weigh : result+remaining%32*2^shift+remaining/32*2^(shift+5) = result+remaining*2^shift := by
      calc result+remaining%32*2^shift+remaining/32*2^(shift+5) = result+(32*(remaining/32)+remaining%32)*2^shift := by rw [power]; ring
        _ = result+remaining*2^shift := by rw [parts]
    have fits' : remaining/32*2^(shift+5) < 2^128 := by omega
    have short' : shift+5 < 128 := by
      have reach : 2^(shift+5) ≤ remaining/32*2^(shift+5) := Nat.le_mul_of_pos_left _ (Nat.pos_of_ne_zero more)
      exact (Nat.pow_lt_pow_iff_right (by decide)).mp (Nat.lt_of_le_of_lt reach fits')
    have next := ih low' fits' short' (by rwa [weigh]) (consumed+1)
    rw [vlqLoop,if_neg more,List.cons_append,decodeLoop,found]
    dsimp only at kept goes ⊢
    rw [if_neg (Nat.not_le.mpr short),kept,lands,if_neg goes,next,weigh,List.length_cons,Nat.add_assoc,Nat.add_comm 1]

theorem decodeEncode {value} (small : value.natAbs < 2^63) (rest) :
    decodeVlq (encodeVlq value ++ rest) = some (value,(encodeVlq value).length) := by
  have whole : (if value < 0 then value.natAbs <<< 1 ||| 1 else value.natAbs <<< 1) = if value < 0 then 2*value.natAbs+1 else 2*value.natAbs := by
    have twice : value.natAbs <<< 1 = 2*value.natAbs := by rw [Nat.shiftLeft_eq,Nat.pow_one,Nat.mul_comm]
    have sign : value.natAbs <<< 1 ||| 1 = 2*value.natAbs+1 := by
      rw [← Nat.shiftLeft_add_eq_or_of_lt (show 1 < 2^1 by decide),twice]
    rw [sign,twice]
  unfold decodeVlq encodeVlq
  rw [whole]
  generalize found : (if value < 0 then 2*value.natAbs+1 else 2*value.natAbs) = number
  have most : number/2 = value.natAbs := by
    rw [← found]
    split <;> omega
  have back : vlqValue (0+number*2^0) = value := by
    rw [Nat.pow_zero,Nat.mul_one,Nat.zero_add,vlqValue,most]
    split at found <;> split <;> omega
  have read := @decodeDigits number 0 0 (by decide) (by omega) (by decide) (by omega) 0 rest
  rw [back,Nat.zero_add] at read
  exact read

end Bamts.SourceMaps
