import Bamts.NumberBig

/-! What the division by shifting and subtracting computes: the remainder always, the quotient as far
as one limb goes. -/
set_option linter.all false
namespace Bamts.NumberFormat
open Limbs Numeral

def OneLimb (n : Nat) : Prop := ∃ w, (2^32)^w ∣ n ∧ n < (2^32)^(w+1)

theorem oneLimbSmall {n} (small : n < 2^32) : OneLimb n := ⟨0,⟨n,by rw [Nat.pow_zero,Nat.one_mul]⟩,by rwa [Nat.zero_add,Nat.pow_one]⟩

theorem oneLimbOdd {n} (odd : n%2 = 1) : OneLimb n ↔ n < 2^32 := by
  refine ⟨?_,oneLimbSmall⟩
  rintro ⟨w,⟨t,multiple⟩,below⟩
  cases w with
  | zero => rwa [Nat.zero_add,Nat.pow_one] at below
  | succ w =>
    have even : 2 ∣ (2^32)^(w+1) := Nat.dvd_trans (by decide : 2 ∣ 2^32) (Dvd.intro_left _ (Nat.pow_succ _ _).symm)
    have whole := Nat.mod_eq_zero_of_dvd (Nat.dvd_trans even ⟨t,multiple⟩)
    omega

def Kept (n v : Nat) : Prop := n = 0 ∧ v = 0 ∨ ∃ w, (2^32)^w ∣ n ∧ v = n%(2^32)^(w+1) ∧ v ≠ 0

theorem Kept.exact {n v} (kept : Kept n v) : v = n ↔ OneLimb n := by
  rcases kept with ⟨none_,nothing⟩ | ⟨w,whole,low,some_⟩
  · rw [none_,nothing]
    exact ⟨fun _ => oneLimbSmall (by decide),fun _ => rfl⟩
  · constructor
    · intro same
      refine ⟨w,whole,?_⟩
      calc n = n%(2^32)^(w+1) := same.symm.trans low
        _ < (2^32)^(w+1) := Nat.mod_lt _ (Nat.pow_pos (by decide))
    · rintro ⟨w',whole',below⟩
      rcases Nat.lt_or_ge w w' with above | within
      · have more : (2^32)^(w+1) ∣ n := Nat.dvd_trans (Nat.pow_dvd_pow _ above) whole'
        exact absurd (low.trans (Nat.mod_eq_zero_of_dvd more)) some_
      · rw [low,Nat.mod_eq_of_lt]
        exact Nat.lt_of_lt_of_le below (Nat.pow_le_pow_right (by decide) (Nat.succ_le_succ within))

theorem Kept.low {n v} (kept : Kept n v) (real : n%2^32 ≠ 0) : v = n%2^32 := by
  rcases kept with ⟨none_,nothing⟩ | ⟨w,whole,low,some_⟩
  · rw [none_,nothing,Nat.zero_mod]
  · cases w with
    | zero => rwa [Nat.zero_add,Nat.pow_one] at low
    | succ w =>
      have more : 2^32 ∣ n := Nat.dvd_trans (Dvd.intro_left _ (Nat.pow_succ _ _).symm) whole
      exact absurd (Nat.mod_eq_zero_of_dvd more) real

theorem Kept.twoLimbs {n v} (kept : Kept n v) (even : n%2^32 = 0) : n%2^64 ≤ v := by
  rcases kept with ⟨none_,nothing⟩ | ⟨w,-,low,some_⟩
  · rw [none_,nothing]
    exact Nat.le_refl 0
  · cases w with
    | zero =>
      rw [Nat.zero_add,Nat.pow_one,even] at low
      exact absurd low some_
    | succ w =>
      have more : 2^64 ∣ (2^32)^(w+2) := ⟨(2^32)^w,by rw [Nat.pow_add,Nat.mul_comm,← Nat.pow_mul]⟩
      rw [low,← Nat.mod_mod_of_dvd n more]
      exact Nat.mod_le _ _

theorem limbPower (w) : (2^32)^w = 2^(32*w) := (Nat.pow_mul _ _ _).symm

theorem Kept.set {n v index} (kept : Kept n v) (above : 2^(index+1) ∣ n) :
    2^(index+1) ∣ v ∧ Kept (n+2^index) (v%(2^32)^(index/32+1)+2^index) := by
  have reach : index+1 ≤ 32*(index/32+1) := by omega
  have inside : 2^(index+1) ∣ (2^32)^(index/32+1) := by
    rw [limbPower]
    exact Nat.pow_dvd_pow _ reach
  have word : (2^32)^(index/32) ∣ 2^index := by
    rw [limbPower]
    exact Nat.pow_dvd_pow _ (by omega)
  have positive : 0 < 2^index := Nat.two_pow_pos index
  have both : 2^(index+1) ∣ v ∧ v%(2^32)^(index/32+1) = n%(2^32)^(index/32+1) := by
    rcases kept with ⟨none_,nothing⟩ | ⟨w,whole,low,some_⟩
    · rw [none_,nothing]
      exact ⟨Nat.dvd_zero _,rfl⟩
    · rcases Nat.lt_or_ge w (index/32) with below | within
      · have more : (2^32)^(w+1) ∣ n := by
          refine Nat.dvd_trans ?_ above
          rw [limbPower]
          exact Nat.pow_dvd_pow _ (by omega)
        exact absurd (low.trans (Nat.mod_eq_zero_of_dvd more)) some_
      · have wider : (2^32)^(index/32+1) ∣ (2^32)^(w+1) := Nat.pow_dvd_pow _ (Nat.succ_le_succ within)
        rw [low]
        exact ⟨(Nat.dvd_mod_iff (Nat.dvd_trans inside wider)).mpr above,Nat.mod_mod_of_dvd _ wider⟩
  refine ⟨both.1,.inr ⟨index/32,?_,?_,(Nat.add_pos_right _ positive).ne'⟩⟩
  · exact Nat.dvd_add (Nat.dvd_trans word (Nat.dvd_trans (Nat.pow_dvd_pow _ (Nat.le_succ _)) above)) word
  · rw [both.2]
    obtain ⟨t,multiple⟩ := (Nat.dvd_mod_iff inside).mpr above
    obtain ⟨m,size⟩ := inside
    have small : n%(2^32)^(index/32+1) < (2^32)^(index/32+1) := Nat.mod_lt _ (Nat.pow_pos (by decide))
    have room : n%(2^32)^(index/32+1)+2^index < (2^32)^(index/32+1) := by
      rw [multiple,size] at small ⊢
      have fewer : t+1 ≤ m := Nat.lt_of_mul_lt_mul_left small
      calc 2^(index+1)*t+2^index < 2^(index+1)*t+2^(index+1) := Nat.add_lt_add_left (Nat.pow_lt_pow_right (by decide) (Nat.lt_succ_self _)) _
        _ = 2^(index+1)*(t+1) := (Nat.mul_succ _ _).symm
        _ ≤ 2^(index+1)*m := Nat.mul_le_mul_left _ fewer
    rw [Nat.add_mod,Nat.mod_eq_of_lt (show 2^index < (2^32)^(index/32+1) from Nat.lt_of_le_of_lt (Nat.le_add_left _ _) room),Nat.mod_eq_of_lt room]

-- The state of the division when `remaining` bits of the dividend are still to come.
structure Divided (a d remaining : Nat) (s : Big × Big) : Prop where
  remainder : s.2.value = a/2^remaining%d
  quotient : Kept (a/2^remaining/d*2^remaining) s.1.value

theorem dividedStart {a d} : Divided a.value d (Big.bitLength a) (Big.zero,Big.zero) := by
  have none_ : a.value/2^Big.bitLength a = 0 := Nat.div_eq_of_lt (bitLengthAbove a.limbs)
  constructor
  · rw [none_,Nat.zero_mod]
    rfl
  · rw [none_,Nat.zero_div,Nat.zero_mul]
    exact .inl ⟨rfl,rfl⟩

theorem nextBit (n index : Nat) : n/2^index = 2*(n/2^(index+1))+(n.testBit index).toNat := by
  have half := Nat.div_add_mod (n/2^index) 2
  rw [Nat.pow_succ,← Nat.div_div_eq_div_mul,Nat.testBit_eq_decide_div_mod_eq]
  rcases Nat.mod_two_eq_zero_or_one (n/2^index) with even | odd
  · rw [even] at half ⊢
    exact half.symm
  · rw [odd] at half ⊢
    exact half.symm

theorem dividedStep {a d index s} (positive : 0 < d.value) (divided : Divided a.value d.value (index+1) s) :
    Divided a.value d.value index (Big.divRemStep a d index s) := by
  obtain ⟨remainder,quotient⟩ := divided
  have next := nextBit a.value index
  have parts := Nat.div_add_mod (a.value/2^(index+1)) d.value
  have below := Nat.mod_lt (a.value/2^(index+1)) positive
  rw [← remainder] at parts below
  generalize down : (if Big.bit a index then Big.addSmall (Big.shlOne s.2) 1 else Big.shlOne s.2) = r
  have r_ : r.value = s.2.value*2+(a.value.testBit index).toNat := by
    rw [← down,Big.bitValue]
    cases a.value.testBit index
    · exact Big.valueShlOne s.2
    · exact (Big.valueAddSmall _ 1).trans (congrArg (·+1) (Big.valueShlOne s.2))
  have bit := Bool.toNat_le (a.value.testBit index)
  have whole : a.value/2^index = d.value*(2*(a.value/2^(index+1)/d.value))+r.value := by
    rw [next,r_,← parts,Nat.mul_add_div positive,Nat.div_eq_of_lt below]
    ring
  have step : Big.divRemStep a d index s = if Big.cmp r d ≠ .lt then (Big.setBit s.1 index,Big.subAssign r d) else (s.1,r) := by
    rw [← down]
    rfl
  rw [step]
  split
  · rename_i fits
    rw [Big.cmpLess] at fits
    have rest : r.value-d.value < d.value := by omega
    have whole' : a.value/2^index = d.value*(2*(a.value/2^(index+1)/d.value)+1)+(r.value-d.value) := by
      rw [whole,Nat.mul_succ]
      omega
    have one : a.value/2^index/d.value = 2*(a.value/2^(index+1)/d.value)+1 := by
      rw [whole',Nat.mul_add_div positive,Nat.div_eq_of_lt rest,Nat.add_zero]
    have above : 2^(index+1) ∣ a.value/2^(index+1)/d.value*2^(index+1) := Nat.dvd_mul_left _ _
    obtain ⟨divides,kept⟩ := quotient.set above
    constructor
    · rw [Big.valueSubAssign fits,whole',Nat.mul_add_mod,Nat.mod_eq_of_lt rest]
    · have sum : a.value/2^(index+1)/d.value*2^(index+1)+2^index = a.value/2^index/d.value*2^index := by
        rw [one,Nat.pow_succ]
        ring
      rw [Big.valueSetBit _ divides,← sum]
      exact kept
  · rename_i small
    rw [Big.cmpLess,Nat.not_le] at small
    have none_ : a.value/2^index/d.value = 2*(a.value/2^(index+1)/d.value) := by
      rw [whole,Nat.mul_add_div positive,Nat.div_eq_of_lt small,Nat.add_zero]
    constructor
    · rw [whole,Nat.mul_add_mod,Nat.mod_eq_of_lt small]
    · have same : a.value/2^index/d.value*2^index = a.value/2^(index+1)/d.value*2^(index+1) := by
        rw [none_,Nat.pow_succ]
        ring
      rw [same]
      exact quotient

theorem dividedRun {a d remaining s} (positive : 0 < d.value) (divided : Divided a.value d.value remaining s) :
    Divided a.value d.value 0 (Big.divRemFrom a d remaining s) := by
  induction remaining generalizing s with
  | zero => exact divided
  | succ index ih => exact ih (dividedStep positive divided)

theorem divRemValue (a) {d} (positive : 0 < d.value) :
    Kept (a.value/d.value) (Big.divRem a d).1.value ∧ (Big.divRem a d).2.value = a.value%d.value := by
  have divided := dividedRun positive (dividedStart : Divided a.value d.value _ _)
  have remainder := divided.remainder
  have quotient := divided.quotient
  rw [Nat.pow_zero,Nat.div_one] at remainder quotient
  rw [Nat.mul_one] at quotient
  exact ⟨quotient,remainder⟩

theorem divRemExact (a) {d} (positive : 0 < d.value) :
    (a.value = (Big.divRem a d).1.value*d.value+(Big.divRem a d).2.value ∧ (Big.divRem a d).2.value < d.value) ↔ OneLimb (a.value/d.value) := by
  obtain ⟨kept,remainder⟩ := divRemValue a positive
  have parts := Nat.div_add_mod a.value d.value
  rw [remainder,← kept.exact]
  constructor
  · rintro ⟨whole,-⟩
    have same : (Big.divRem a d).1.value*d.value = a.value/d.value*d.value := by
      rw [Nat.mul_comm (a.value/d.value)]
      omega
    exact Nat.eq_of_mul_eq_mul_right positive same
  · intro same
    rw [same,Nat.mul_comm]
    exact ⟨parts.symm,Nat.mod_lt _ positive⟩

end Bamts.NumberFormat
