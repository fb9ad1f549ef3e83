import Bamts.NearestPoint
import Mathlib.Algebra.Order.Ring.Rat
import Mathlib.Tactic.FieldSimp
import Mathlib.Tactic.Linarith
import Mathlib.Tactic.LinearCombination
import Mathlib.Tactic.Positivity

/-! Binary interchange formats: the numbers that bit patterns stand for, and rounding to the nearest of them. -/
set_option linter.all false
namespace Bamts.BinaryFormat
open NearestPoint

/-- The widths of the fraction and of the exponent. -/
structure Format where
  fraction : Nat
  exponent : Nat
  some_ : 0 < fraction
  wide : 2 ≤ exponent

/-- The magnitudes in order, in units of the least one: the exponent goes on past those of the format. -/
def units (p code : Nat) : Nat := if code/2^p = 0 then code%2^p else (2^p+code%2^p)*2^(code/2^p-1)

theorem unitsPack {p s m} (normal : s = 0 ∨ 2^p ≤ m) (fits : m ≤ 2^(p+1)) : units p (s*2^p+m) = m*2^s := by
  have P_ : 0 < 2^p := Nat.two_pow_pos p
  have place : ∀ t f, f < 2^p → units p (t*2^p+f) = if t = 0 then f else (2^p+f)*2^(t-1) := by
    intro t f less
    rw [units,Nat.mul_comm t,Nat.mul_add_div P_,Nat.div_eq_of_lt less,Nat.mul_add_mod,Nat.mod_eq_of_lt less,Nat.add_zero]
  rcases Nat.lt_or_ge m (2^p) with small | large
  · rcases normal with zero | large
    · rw [zero,place 0 m small,if_pos rfl,pow_zero,Nat.mul_one]
    · exact absurd small (Nat.not_lt.mpr large)
  rcases Nat.lt_or_ge m (2^p*2) with one | two
  · have split : s*2^p+m = (s+1)*2^p+(m-2^p) := by
      rw [Nat.succ_mul]
      omega
    rw [split,place (s+1) (m-2^p) (by omega),if_neg (Nat.succ_ne_zero s),Nat.add_sub_cancel' large,Nat.add_sub_cancel]
  · have full : m = 2^p*2 := Nat.le_antisymm fits two
    have split : s*2^p+m = (s+2)*2^p+0 := by
      rw [full]
      ring
    rw [split,place (s+2) 0 P_,if_neg (Nat.succ_ne_zero _),full]
    change (2^p+0)*2^(s+1) = _
    ring

/-- Every code is a shift and a significand. -/
theorem codeSplit (p code) : ∃ s m, code = s*2^p+m ∧ (s = 0 ∨ 2^p ≤ m) ∧ m < 2^(p+1) := by
  have parts := Nat.div_add_mod' code (2^p)
  rcases Nat.eq_zero_or_pos (code/2^p) with zero | positive
  · rw [zero,Nat.zero_mul,Nat.zero_add] at parts
    exact ⟨0,code,by rw [Nat.zero_mul,Nat.zero_add],.inl rfl,by omega⟩
  · obtain ⟨s,s_⟩ := Nat.exists_eq_succ_of_ne_zero positive.ne'
    rw [s_,Nat.succ_mul] at parts
    exact ⟨s,2^p+code%2^p,by omega,.inr (Nat.le_add_right _ _),by omega⟩

theorem unitsStep (p code) : units p code < units p (code+1) := by
  obtain ⟨s,m,rfl,normal,less⟩ := codeSplit p code
  rw [unitsPack normal less.le,Nat.add_assoc,unitsPack (normal.imp_right Nat.le_succ_of_le) less,Nat.succ_mul]
  exact Nat.lt_add_of_pos_right (Nat.two_pow_pos s)

theorem unitsRising (p) : StrictMono (units p) := strictMono_nat_of_lt_succ (unitsStep p)

theorem unitsReach {p m} (s) (short : m < 2^(p+1)) : ∃ code, units p code = m*2^s := by
  induction s generalizing m with
  | zero => exact ⟨0*2^p+m,unitsPack (.inl rfl) short.le⟩
  | succ s ih =>
    rcases Nat.lt_or_ge m (2^p) with small | normal
    · obtain ⟨code,same⟩ := @ih (m*2) (by rw [pow_succ]; omega)
      exact ⟨code,by rw [same,pow_succ,Nat.mul_assoc,Nat.mul_comm 2]⟩
    · exact ⟨(s+1)*2^p+m,unitsPack (.inr normal) short.le⟩

def grid (p code : Nat) : ℚ := units p code

theorem gridRising (p) : StrictMono (grid p) := fun _ _ less => Nat.cast_lt.mpr (unitsRising p less)

/-- A quotient rounded to even in the middle, by what the division leaves over. -/
def roundEven (q r divisor : Nat) : Nat := if divisor < 2*r ∨ 2*r = divisor ∧ q%2 = 1 then q+1 else q

/-- Rounding the significand rounds the number. -/
theorem roundsPacked {p s q r divisor : Nat} {x : ℚ} (positive : 0 < p) (normal : s = 0 ∨ 2^p ≤ q) (fits : q < 2^(p+1)) (less : r < divisor)
    (same : x*divisor = (q*divisor+r)*2^s) : Nearest (grid p) x (s*2^p+roundEven q r divisor) := by
  have low : grid p (s*2^p+q) = q*2^s := by
    rw [grid,unitsPack normal fits.le]
    push_cast
    rfl
  have high : grid p (s*2^p+q+1) = (q+1)*2^s := by
    rw [Nat.add_assoc,grid,unitsPack (normal.imp_right Nat.le_succ_of_le) fits]
    push_cast
    rfl
  have D_ : (0 : ℚ) < divisor := Nat.cast_pos.mpr (Nat.zero_lt_of_lt less)
  have S_ : (0 : ℚ) < 2^s := by positivity
  have r_ : (r : ℚ) < divisor := by exact_mod_cast less
  have even : Even (s*2^p+q) ↔ q%2 = 0 := by
    rw [Nat.even_add,Nat.even_iff,Nat.even_iff]
    have even_ : s*2^p%2 = 0 := by
      obtain ⟨t,rfl⟩ := Nat.exists_eq_succ_of_ne_zero positive.ne'
      rw [pow_succ,← Nat.mul_assoc,Nat.mul_mod_left]
    simp [even_]
  have middle : (2*x-(grid p (s*2^p+q)+grid p (s*2^p+q+1)))*divisor = (2*r-divisor)*2^s := by
    rw [low,high]
    linear_combination 2*same
  have order : ∀ z : ℚ, (z*divisor = (2*r-divisor)*2^s) → (0 < z ↔ divisor < 2*r) ∧ (z = 0 ↔ 2*r = divisor) := by
    intro z is
    constructor
    · rw [← mul_pos_iff_of_pos_right D_,is,mul_pos_iff_of_pos_right S_,sub_pos]
      exact_mod_cast Iff.rfl
    · rw [← mul_eq_zero_iff_right D_.ne',is,mul_eq_zero_iff_right S_.ne',sub_eq_zero]
      exact_mod_cast Iff.rfl
  obtain ⟨above,tie⟩ := order _ middle
  rw [sub_pos] at above
  rw [sub_eq_zero] at tie
  have least : grid p (s*2^p+q) ≤ x := by
    rw [low]
    refine le_of_mul_le_mul_right ?_ D_
    have part : (0 : ℚ) ≤ r*2^s := by positivity
    linear_combination part-same
  have most : x ≤ grid p (s*2^p+q+1) := by
    rw [high]
    refine le_of_mul_le_mul_right ?_ D_
    have part : (r : ℚ)*2^s ≤ divisor*2^s := mul_le_mul_of_nonneg_right r_.le S_.le
    linear_combination part+same
  rw [roundEven]
  split
  · rename_i up
    refine nearestUp (gridRising p) most ?_
    rcases up with more | ⟨half,odd⟩
    · exact .inl (above.mpr more)
    · exact .inr ⟨tie.mpr half,fun even_ => by rw [even.mp even_] at odd; cases odd⟩
  · rename_i down
    obtain ⟨few,even_⟩ := not_or.mp down
    refine nearestDown (gridRising p) least ?_
    rcases Nat.lt_or_eq_of_le (Nat.not_lt.mp few) with less' | half
    · exact .inl (lt_of_le_of_ne (not_lt.mp fun more => few (above.mp more)) fun same_ => less'.ne (tie.mp same_))
    · exact .inr ⟨tie.mpr half,even.mpr (Nat.mod_two_ne_one.mp fun odd => even_ ⟨half,odd⟩)⟩

namespace Format
variable (f : Format) {x y : ℚ} {c d pattern : Nat} {minus : Bool}

/-- How many patterns have the sign bit clear. -/
def codes : Nat := 2^(f.fraction+f.exponent)
def infinity : Nat := (2^f.exponent-1)*2^f.fraction

def negative (pattern : Nat) : Bool := pattern/f.codes%2 == 1
def code (pattern : Nat) : Nat := pattern%f.codes
def IsFinite (pattern : Nat) : Prop := f.code pattern < f.infinity
def IsInfinite (pattern : Nat) : Prop := f.code pattern = f.infinity
def IsNaN (pattern : Nat) : Prop := f.infinity < f.code pattern

def least : ℚ := 1/2^(2^(f.exponent-1)-2+f.fraction)
def magnitude (code : Nat) : ℚ := grid f.fraction code*f.least
def signed (minus : Bool) (x : ℚ) : ℚ := if minus then -x else x
def value (pattern : Nat) : ℚ := signed (f.negative pattern) (f.magnitude (f.code pattern))

/-- Half a step past the largest finite number. -/
def overflow : ℚ := (f.magnitude (f.infinity-1)+f.magnitude f.infinity)/2

/-- The number of the format that a number is rounded to: the nearest one, of two the one with the even
pattern, and an infinity from the overflow on. -/
structure Rounds (x : ℚ) (pattern : Nat) : Prop where
  finite : f.IsFinite pattern ↔ |x| < f.overflow
  infinite : f.IsInfinite pattern ↔ f.overflow ≤ |x|
  sign : (x < 0 → f.negative pattern = true) ∧ (0 < x → f.negative pattern = false)
  closest : f.IsFinite pattern → ∀ other, f.IsFinite other → |f.value pattern-x| ≤ |f.value other-x|
  even : f.IsFinite pattern → ∀ other, f.IsFinite other → f.value other ≠ f.value pattern → |f.value pattern-x| = |f.value other-x| → Even pattern

def join (minus : Bool) (code : Nat) : Nat := minus.toNat*f.codes+code

theorem codesPositive : 0 < f.codes := Nat.two_pow_pos _

theorem codesEven : Even f.codes := (Nat.even_pow.mpr ⟨even_two,by have := f.some_; omega⟩)

theorem infinityLess : f.infinity < f.codes := by
  have E_ := Nat.two_pow_pos f.exponent
  rw [infinity,codes,pow_add,Nat.mul_comm]
  exact Nat.mul_lt_mul_of_pos_left (Nat.sub_lt E_ Nat.one_pos) (Nat.two_pow_pos _)

theorem infinityPositive : 0 < f.infinity := by
  have wide := f.wide
  have four : 2^2 ≤ 2^f.exponent := Nat.pow_le_pow_right (by decide) wide
  exact Nat.mul_pos (by omega) (Nat.two_pow_pos _)

theorem infinityEven : Even f.infinity := (Nat.even_pow.mpr ⟨even_two,f.some_.ne'⟩).mul_left _

theorem leastPositive : 0 < f.least := by
  rw [least]
  positivity

theorem magnitudeRising : StrictMono f.magnitude := fun _ _ less => mul_lt_mul_of_pos_right (gridRising _ less) f.leastPositive

theorem magnitudeZero : f.magnitude 0 = 0 := by
  have zero : units f.fraction 0 = 0 := by rw [units,Nat.zero_div,if_pos rfl,Nat.zero_mod]
  rw [magnitude,grid,zero,Nat.cast_zero,zero_mul]

theorem magnitudeNonneg (code) : 0 ≤ f.magnitude code := by
  rw [← f.magnitudeZero]
  exact f.magnitudeRising.monotone (Nat.zero_le code)

variable {f}

theorem joinParts (less : c < f.codes) : f.negative (f.join minus c) = minus ∧ f.code (f.join minus c) = c := by
  rw [Format.negative,code,join,Nat.mul_comm,Nat.mul_add_div f.codesPositive,Nat.div_eq_of_lt less,Nat.mul_add_mod,Nat.mod_eq_of_lt less]
  cases minus <;> exact ⟨rfl,rfl⟩

theorem joinEven (even : Even c) : Even (f.join minus c) := (f.codesEven.mul_left _).add even

theorem signedDistance : |signed minus x-signed minus y| = |x-y| := by
  cases minus
  · rfl
  · rw [signed,signed,if_pos rfl,if_pos rfl,neg_sub_neg,abs_sub_comm]

theorem signedAbs (minus x) : |signed minus x| = |x| := by
  cases minus
  · rfl
  · exact abs_neg x

theorem signedZero (minus) : signed minus 0 = 0 := by
  cases minus
  · rfl
  · exact neg_zero

theorem overflowNearest : Nearest f.magnitude f.overflow f.infinity := by
  obtain ⟨last,last_⟩ := Nat.exists_eq_succ_of_ne_zero f.infinityPositive.ne'
  have middle : 2*f.overflow = f.magnitude last+f.magnitude (last+1) := by
    rw [overflow,last_,Nat.succ_sub_one]
    ring
  have odd : ¬Even last := by
    have even := f.infinityEven
    rw [last_] at even
    exact Nat.even_add_one.mp even
  rw [last_]
  refine nearestUp f.magnitudeRising ?_ (.inr ⟨middle,odd⟩)
  linarith [f.magnitudeRising (Nat.lt_succ_self last)]

theorem infinityUnits : units f.fraction f.infinity = 2^f.fraction*2^(2^f.exponent-2) := by
  have some_ : 2 ≤ 2^f.exponent := Nat.le_self_pow (by have := f.wide; omega) 2
  have top : f.infinity = (2^f.exponent-2)*2^f.fraction+2^f.fraction := by
    rw [infinity,← Nat.succ_mul]
    congr 1
    omega
  rw [top]
  exact unitsPack (.inr le_rfl) (Nat.pow_le_pow_right two_pos (Nat.le_succ _))

/-- What a significand of the format and a power in its range make is a number of it. -/
theorem reach {m s : Nat} (short : m < 2^(f.fraction+1)) (room : s+2 < 2^f.exponent) : ∃ code, code < f.infinity ∧ f.magnitude code = m*2^s*f.least := by
  obtain ⟨code,same⟩ := @unitsReach f.fraction m s short
  refine ⟨code,(unitsRising f.fraction).lt_iff_lt.mp ?_,?_⟩
  · rw [same,infinityUnits]
    calc m*2^s < 2^(f.fraction+1)*2^s := Nat.mul_lt_mul_of_pos_right short (Nat.two_pow_pos s)
      _ = 2^f.fraction*2^(s+1) := by ring
      _ ≤ 2^f.fraction*2^(2^f.exponent-2) := Nat.mul_le_mul_left _ (Nat.pow_le_pow_right two_pos (by omega))
  · rw [magnitude,grid,same]
    push_cast
    rfl

theorem overflowEq : f.overflow = (2^(f.fraction+2)-1)*2^(2^(f.exponent-1)-2)/2^f.fraction := by
  obtain ⟨w,w_⟩ := Nat.exists_eq_add_of_le f.wide
  obtain ⟨t,t_⟩ := Nat.exists_eq_add_of_le (show 2 ≤ 2^(w+1) from Nat.le_self_pow (Nat.succ_ne_zero w) 2)
  have P_ := Nat.two_pow_pos f.fraction
  have range : 2^f.exponent = 2*t+4 := by
    rw [w_,Nat.add_comm 2 w,pow_succ 2 (w+1),t_]
    ring
  have half : 2^(f.exponent-1)-2 = t := by
    rw [w_,show 2+w-1 = w+1 by omega,t_,Nat.add_sub_cancel_left]
  have top : f.infinity = (2*t+2)*2^f.fraction+2^f.fraction := by
    rw [infinity,range]
    change (2*t+3)*2^f.fraction = _
    ring
  have last : f.infinity-1 = (2*t+1)*2^f.fraction+(2^(f.fraction+1)-1) := by
    rw [top,pow_succ,add_mul _ 2,add_mul _ 1]
    omega
  have most : units f.fraction (f.infinity-1) = (2^(f.fraction+1)-1)*2^(2*t+1) := by
    rw [last]
    refine unitsPack (.inr ?_) (Nat.sub_le _ _)
    omega
  have next : units f.fraction f.infinity = 2^f.fraction*2^(2*t+2) := by
    rw [infinityUnits,range]
    rfl
  have one : ((2^(f.fraction+1)-1 : Nat) : ℚ) = 2^(f.fraction+1)-1 := by
    rw [Nat.cast_sub Nat.one_le_two_pow]
    push_cast
    rfl
  rw [overflow,magnitude,magnitude,grid,grid,most,next,least,half,Nat.cast_mul,Nat.cast_mul,one]
  push_cast
  field_simp
  ring

/-- A number is past the overflow when the nearest magnitude is not of the format. -/
theorem overflowIff (nearest : Nearest f.magnitude x c) : f.overflow ≤ x ↔ f.infinity ≤ c := by
  constructor
  · exact fun past => nearestMono f.magnitudeRising past f.overflowNearest nearest
  · intro past
    by_contra before
    have same := nearestMono f.magnitudeRising (not_le.mp before).le nearest f.overflowNearest
    obtain rfl := Nat.le_antisymm past same
    have below := ((nearestIff f.magnitudeRising).mp nearest).1 (f.infinity-1) (Nat.sub_lt f.infinityPositive Nat.one_pos)
    rw [overflow] at before
    linarith

theorem nearestPacked {s q r divisor : Nat} (normal : s = 0 ∨ 2^f.fraction ≤ q) (fits : q < 2^(f.fraction+1)) (less : r < divisor)
    (same : x*divisor = (q*divisor+r)*2^s*f.least) : Nearest f.magnitude x (s*2^f.fraction+roundEven q r divisor) := by
  have unit := f.leastPositive
  have nearest := @roundsPacked f.fraction s q r divisor (x/f.least) f.some_ normal fits less ?_
  · have scaled := nearestScaled unit nearest
    rwa [div_mul_cancel₀ _ unit.ne'] at scaled
  · rw [div_mul_eq_mul_div,same,mul_div_cancel_right₀ _ unit.ne']

/-- No number of the other sign is nearer than zero. -/
theorem otherSide (positive : 0 ≤ x) (other) : ∃ k, (f.negative other = minus → k = f.code other) ∧
    |f.magnitude k-x| ≤ |f.value other-signed minus x| ∧ (|f.magnitude k-x| = |f.value other-signed minus x| → f.value other = signed minus (f.magnitude k)) := by
  by_cases same : f.negative other = minus
  · refine ⟨f.code other,fun _ => rfl,?_,fun _ => ?_⟩
    · rw [value,same,signedDistance]
    · rw [value,same]
  refine ⟨0,fun same_ => absurd same_ same,?_⟩
  have apart : |f.value other-signed minus x| = f.magnitude (f.code other)+x := by
    have order := f.magnitudeNonneg (f.code other)
    rw [value]
    cases minus
    · rw [Bool.not_eq_false] at same
      rw [same,signed,signed,if_pos rfl,if_neg Bool.false_ne_true,← neg_add',abs_neg,abs_of_nonneg (add_nonneg order positive)]
    · rw [Bool.not_eq_true] at same
      rw [same,signed,signed,if_neg Bool.false_ne_true,if_pos rfl,sub_neg_eq_add,abs_of_nonneg (add_nonneg order positive)]
  rw [apart,f.magnitudeZero,zero_sub,abs_neg,abs_of_nonneg positive,signedZero]
  refine ⟨le_add_of_nonneg_left (f.magnitudeNonneg _),fun tie => ?_⟩
  have none : f.magnitude (f.code other) = 0 := by linarith
  rw [value,none,signedZero]

/-- The nearest magnitude under the sign, and the infinity in place of a magnitude that is too large. -/
theorem roundsNearest (positive : 0 ≤ x) (nearest : Nearest f.magnitude x c) : f.Rounds (signed minus x) (f.join minus (min c f.infinity)) := by
  obtain ⟨sign,code_⟩ := @joinParts f (min c f.infinity) minus (lt_of_le_of_lt (Nat.min_le_right _ _) f.infinityLess)
  have size : |signed minus x| = x := by rw [signedAbs,abs_of_nonneg positive]
  have finite_ : f.IsFinite (f.join minus (min c f.infinity)) ↔ c < f.infinity := by
    rw [IsFinite,code_]
    omega
  have value_ : c < f.infinity → f.value (f.join minus (min c f.infinity)) = signed minus (f.magnitude c) := by
    intro less
    rw [value,sign,code_,Nat.min_eq_left less.le]
  constructor
  · rw [finite_,size,← not_le,← not_le,overflowIff nearest]
  · rw [size,overflowIff nearest,IsInfinite,code_]
    omega
  · rw [sign,signed]
    cases minus
    · exact ⟨fun less => absurd less (not_lt.mpr positive),fun _ => rfl⟩
    · exact ⟨fun _ => rfl,fun more => absurd (neg_pos.mp more) (not_lt.mpr positive)⟩
  · intro finite other _
    obtain ⟨k,-,near,-⟩ := @otherSide f x minus positive other
    rw [value_ (finite_.mp finite),signedDistance]
    exact le_trans (nearest.closest k) near
  · intro finite other _ apart tie
    obtain ⟨k,-,near,same⟩ := @otherSide f x minus positive other
    rw [value_ (finite_.mp finite)] at apart tie
    rw [signedDistance] at tie
    have tie' := le_antisymm (nearest.closest k) (tie ▸ near)
    have even : Even c := by
      refine nearest.even k ?_ tie'
      rintro rfl
      exact apart (same tie)
    rw [Nat.min_eq_left (finite_.mp finite).le]
    exact joinEven even

/-- The order of the numbers with the two infinities. -/
def side (f : Format) (minus : Bool) (code : Nat) : WithBot (WithTop ℚ) :=
  if code < f.infinity then ((signed minus (f.magnitude code) : ℚ) : WithTop ℚ) else if minus then ⊥ else ((⊤ : WithTop ℚ) : WithBot (WithTop ℚ))
def extended (f : Format) (pattern : Nat) : WithBot (WithTop ℚ) := f.side (f.negative pattern) (f.code pattern)

theorem sidePast (past : f.infinity ≤ c) : f.side minus c = if minus then ⊥ else ((⊤ : WithTop ℚ) : WithBot (WithTop ℚ)) := if_neg (Nat.not_lt.mpr past)

theorem sideRising (order : c ≤ d) : f.side false c ≤ f.side false d := by
  rw [side,side]
  split
  · split
    · exact WithBot.coe_le_coe.mpr (WithTop.coe_le_coe.mpr (f.magnitudeRising.monotone order))
    · exact WithBot.coe_le_coe.mpr le_top
  · rename_i past
    rw [if_neg fun less => past (lt_of_le_of_lt order less)]

theorem sideFalling (order : c ≤ d) : f.side true d ≤ f.side true c := by
  rw [side,side]
  split
  · rename_i less
    rw [if_pos (lt_of_le_of_lt order less)]
    exact WithBot.coe_le_coe.mpr (WithTop.coe_le_coe.mpr (neg_le_neg (f.magnitudeRising.monotone order)))
  · exact bot_le

theorem sideLess (less : c < d) (most : d ≤ f.infinity) : f.side false c < f.side false d := by
  rw [side,side,if_pos (lt_of_lt_of_le less most)]
  split
  · exact WithBot.coe_lt_coe.mpr (WithTop.coe_lt_coe.mpr (f.magnitudeRising less))
  · exact WithBot.coe_lt_coe.mpr (WithTop.coe_lt_top _)

theorem sideMore (less : c < d) (most : d ≤ f.infinity) : f.side true d < f.side true c := by
  rw [side,side,if_pos (lt_of_lt_of_le less most)]
  split
  · exact WithBot.coe_lt_coe.mpr (WithTop.coe_lt_coe.mpr (neg_lt_neg (f.magnitudeRising less)))
  · exact WithBot.bot_lt_coe _

theorem sideZero : f.side false 0 = f.side true 0 := by
  rw [side,side,if_pos f.infinityPositive,if_pos f.infinityPositive,f.magnitudeZero,signedZero,signedZero]

/-- Only the two zeros are equal under different signs. -/
theorem sideMeet (c d) (order : f.side false c ≤ f.side true d) : c = 0 ∧ d = 0 := by
  have zero := @sideZero f
  constructor
  · by_contra some_
    have order' := calc f.side false 1
      _ ≤ f.side false c := sideRising (Nat.one_le_iff_ne_zero.mpr some_)
      _ ≤ f.side true d := order
      _ ≤ f.side true 0 := sideFalling (Nat.zero_le d)
      _ = f.side false 0 := zero.symm
    exact not_lt.mpr order' (sideLess Nat.one_pos f.infinityPositive)
  · by_contra some_
    have order' := calc f.side true 0
      _ = f.side false 0 := zero.symm
      _ ≤ f.side false c := sideRising (Nat.zero_le c)
      _ ≤ f.side true d := order
      _ ≤ f.side true 1 := sideFalling (Nat.one_le_iff_ne_zero.mpr some_)
    exact not_lt.mpr order' (sideMore Nat.one_pos f.infinityPositive)

theorem sideApart (c d) : f.side true c ≤ f.side false d := by
  rw [side,side]
  split
  · split
    · exact WithBot.coe_le_coe.mpr (WithTop.coe_le_coe.mpr (le_trans (neg_nonpos.mpr (f.magnitudeNonneg c)) (f.magnitudeNonneg d)))
    · exact WithBot.coe_le_coe.mpr le_top
  · exact bot_le

/-- Patterns of two formats that stand for the same. -/
theorem sideSame {g : Format} (most : c ≤ f.infinity) (most' : d ≤ g.infinity) (same : f.side minus c = g.side minus d) :
    c = f.infinity ∧ d = g.infinity ∨ c < f.infinity ∧ d < g.infinity ∧ f.magnitude c = g.magnitude d := by
  have apart : ∀ x, ((signed minus x : ℚ) : WithTop ℚ) ≠ if minus then (⊥ : WithBot (WithTop ℚ)) else ((⊤ : WithTop ℚ) : WithBot (WithTop ℚ)) := by
    intro x
    cases minus
    · exact fun equal => WithTop.coe_ne_top (WithBot.coe_injective equal)
    · exact WithBot.coe_ne_bot
  rw [side,side] at same
  rcases Nat.lt_or_ge c f.infinity with less | past
  · rw [if_pos less] at same
    rcases Nat.lt_or_ge d g.infinity with less' | past'
    · rw [if_pos less'] at same
      have signed_ := WithTop.coe_injective (WithBot.coe_injective same)
      refine .inr ⟨less,less',?_⟩
      cases minus
      · exact signed_
      · exact neg_injective signed_
    · rw [if_neg (Nat.not_lt.mpr past')] at same
      exact absurd same (apart _)
  · rw [if_neg (Nat.not_lt.mpr past)] at same
    rcases Nat.lt_or_ge d g.infinity with less' | past'
    · rw [if_pos less'] at same
      exact absurd same.symm (apart _)
    · exact .inl ⟨Nat.le_antisymm most past,Nat.le_antisymm most' past'⟩

end Format

def binary64 : Format := ⟨52,11,by decide,by decide⟩
def binary16 : Format := ⟨10,5,by decide,by decide⟩

theorem overflow64 : binary64.overflow = 2^1024-2^970 := by
  have split : (2 : ℚ)^1022 = 2^970*2^52 := by rw [← pow_add]
  have value : binary64.overflow = (2^54-1)*2^1022/2^52 := Format.overflowEq
  rw [value,split,← mul_assoc,mul_div_cancel_right₀ _ (by positivity),sub_mul,← pow_add,one_mul]

theorem overflow16 : binary16.overflow = 65520 := by
  have value : binary16.overflow = (2^12-1)*2^14/2^10 := Format.overflowEq
  rw [value]
  norm_num

end Bamts.BinaryFormat
