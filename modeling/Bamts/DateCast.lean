import Bamts.DateNumber
import Bamts.RuntimeLiteral
import Bamts.DateZone

/-! `day(time) as i64` on the `f64` quotient, and the `i64` arithmetic of the year search. Below
`2^53` both agree with the exact calendar. -/
set_option linter.all false
namespace Bamts.Date
open Binary64 Bamts.Runtime

/-- `(time / MS_PER_DAY).floor() as i64`: the quotient is rounded, the cast saturates. -/
def dayCast (time : Int) : Int :=
  let quotient := Double.nearest time.natAbs 86400000
  let floor : Int :=
    if time = 0 then 0
    else if time < 0 then -((numerator quotient + denominator quotient - 1) / denominator quotient : Nat)
    else (numerator quotient / denominator quotient : Nat)
  max (-2^63) (min floor (2^63-1))

theorem packPlace {q s} (low : 2^52 ≤ q) (high : q < 2^53) (one : 1 ≤ s) (small : s ≤ 1075) :
    numerator (Double.pack q s) = q ∧ denominator (Double.pack q s) = 2^(1075-s) := by
  obtain ⟨_,exponent,fraction⟩ := Double.packFields low high one (by omega)
  have digits : (Double.pack q s).significand = q := by
    rw [Double.significand,exponent,if_neg (by omega),fraction]
    omega
  have place : (Double.pack q s).scale = s := by
    rw [Double.scale,exponent]
    omega
  have none_ : s-1075 = 0 := by omega
  rw [numerator,denominator,digits,place,none_,Nat.pow_zero,Nat.mul_one]
  exact ⟨rfl,rfl⟩

theorem packCarries {s} (small : s ≤ 1075) : Double.pack (2^53) s = Double.pack (2^52) (s+1) := by
  have carry : ¬ 2047 ≤ s + 2^53/2^53 := by omega
  have plain : ¬ 2047 ≤ s+1 + 2^52/2^53 := by omega
  rw [Double.pack,Double.pack,if_neg (by omega),if_neg carry,if_neg (by omega),if_neg plain]
  have same : s*2^52 + (2^53-2^52) = (s+1)*2^52 + (2^52-2^52) := by omega
  rw [same]

theorem packValue {q s} (low : 2^52 ≤ q) (high : q ≤ 2^53) (one : 1 ≤ s) (small : s ≤ 1074) :
    0 < denominator (Double.pack q s) ∧
    numerator (Double.pack q s) * 2^(1075-s) = q * denominator (Double.pack q s) := by
  rcases Nat.lt_or_eq_of_le high with short | carry
  · obtain ⟨top,bottom⟩ := packPlace low short one (by omega)
    rw [top,bottom]
    exact ⟨Nat.two_pow_pos _,rfl⟩
  · obtain ⟨top,bottom⟩ := packPlace (q := 2^52) (s := s+1) (Nat.le_refl _) (by decide) (by omega) (by omega)
    have place : 1075-s = 1075-(s+1)+1 := by omega
    rw [carry,packCarries (by omega),top,bottom,place,Nat.pow_succ]
    exact ⟨Nat.two_pow_pos _,by omega⟩

section
variable {n s p : Nat}

theorem quotientPlace (scale : p + s = 1075) (fine : 26 ≤ p) :
    n/86400000*2^p ≤ Double.quotient n 86400000 s ∧
    Double.quotient n 86400000 s < (n/86400000+1)*2^p ∧
    (n % 86400000 ≠ 0 → n/86400000*2^p < Double.quotient n 86400000 s) ∧
    (n % 86400000 = 0 → Double.quotient n 86400000 s = n/86400000*2^p) := by
  have bits : 2^26 ≤ 2^p := Nat.pow_le_pow_right (by decide) fine
  have split_ : n*2^1075 = n*2^p*2^s := by rw [Nat.mul_assoc,← Nat.pow_add,scale]
  have room := Nat.two_pow_pos s
  simp only [Double.quotient,split_,Nat.mul_div_mul_right _ _ room,Nat.mul_mod_mul_right]
  generalize 2^p = unit at bits
  have days := Nat.div_add_mod n 86400000
  have short := Nat.mod_lt n (show 86400000 > 0 by decide)
  generalize n/86400000 = k at days
  generalize n%86400000 = r at days short
  have rest := Nat.div_add_mod (n*unit) 86400000
  have under := Nat.mod_lt (n*unit) (show 86400000 > 0 by decide)
  generalize residue : n*unit%86400000 = b at rest under
  have whole : n*unit = 86400000*(k*unit) + r*unit := by rw [← days]; ring
  have rounds : 86400000*2^s < 2*(b*2^s) ↔ 86400000 < 2*b := by
    rw [← Nat.mul_assoc]
    exact Nat.mul_lt_mul_right room
  have ties : 2*(b*2^s) = 86400000*2^s ↔ 2*b = 86400000 := by
    rw [← Nat.mul_assoc]
    exact Nat.mul_left_inj room.ne'
  have next : (k+1)*unit = k*unit + unit := by ring
  have most : r*unit ≤ 86399999*unit := Nat.mul_le_mul_right _ (by omega)
  refine ⟨?_,?_,?_,?_⟩
  · split <;> omega
  · split <;> omega
  · intro some_
    have least : unit ≤ r*unit := Nat.le_mul_of_pos_left _ (by omega)
    split <;> omega
  · intro none_
    rw [none_,Nat.zero_mul] at whole
    split <;> omega

end

theorem fitDay {n} (positive : n ≠ 0) :
    1 ≤ Double.fitScale n 86400000 ∧ Double.fitScale n 86400000 ≤ 997+Nat.log2 n ∧
    2^52 ≤ n*2^1075/(86400000*2^Double.fitScale n 86400000) := by
  have below := Nat.log2_self_le positive
  have unit : Nat.log2 86400000 = 26 := by decide
  have guess : max (1075+Nat.log2 n-Nat.log2 86400000-53) 1 = 996+Nat.log2 n := by omega
  have fits : ∀ place, place ≤ 996+Nat.log2 n → 2^52 ≤ n*2^1075/(86400000*2^place) := by
    intro place inside
    rw [Nat.le_div_iff_mul_le (Nat.mul_pos (by decide) (Nat.two_pow_pos _))]
    calc 2^52*(86400000*2^place) ≤ 2^52*(2^27*2^(996+Nat.log2 n)) :=
          Nat.mul_le_mul_left _ (Nat.mul_le_mul (by decide) (Nat.pow_le_pow_right (by decide) inside))
      _ = 2^Nat.log2 n*2^1075 := by rw [← Nat.pow_add,← Nat.pow_add,← Nat.pow_add]; congr 1; omega
      _ ≤ n*2^1075 := Nat.mul_le_mul_right _ below
  simp only [Double.fitScale,guess]
  split
  · exact ⟨by omega,by omega,fits _ (Nat.le_refl _)⟩
  · rename_i large
    have half : n*2^1075/(86400000*2^(996+Nat.log2 n+1)) = n*2^1075/(86400000*2^(996+Nat.log2 n))/2 := by
      rw [Nat.div_div_eq_div_mul,Nat.pow_succ 2 (996+Nat.log2 n),Nat.mul_assoc]
    omega

/-- The quotient as a significand over a power of two. -/
theorem nearestPlace {n} (positive : n ≠ 0) (small : n < 2^60) :
    ∃ p, p + Double.fitScale n 86400000 = 1075 ∧ 78 ≤ p + Nat.log2 n ∧
      0 < denominator (Double.nearest n 86400000) ∧
      numerator (Double.nearest n 86400000) * 2^p =
        Double.quotient n 86400000 (Double.fitScale n 86400000) * denominator (Double.nearest n 86400000) := by
  obtain ⟨one,fine,low⟩ := fitDay positive
  have short : Nat.log2 n < 60 := (Nat.log2_lt positive).mpr small
  have fits := Double.fitScaleFits n (show 86400000 ≠ 0 by decide)
  have up := Double.quotientRounds n 86400000 (Double.fitScale n 86400000)
  have least : 2^52 ≤ Double.quotient n 86400000 (Double.fitScale n 86400000) := by
    simp only [Double.quotient]
    split <;> omega
  obtain ⟨positive_,value⟩ := packValue least (by omega) one (by omega)
  exact ⟨1075-Double.fitScale n 86400000,by omega,by omega,positive_,value⟩

theorem nearestDay {n} (positive : n ≠ 0) (small : n < 2^53) :
    numerator (Double.nearest n 86400000) / denominator (Double.nearest n 86400000) = n/86400000 ∧
    (numerator (Double.nearest n 86400000) + denominator (Double.nearest n 86400000) - 1) /
      denominator (Double.nearest n 86400000) = (n+86399999)/86400000 := by
  obtain ⟨place,scale,fine,positive_,value⟩ := nearestPlace positive (by omega)
  have short : Nat.log2 n < 53 := (Nat.log2_lt positive).mpr small
  obtain ⟨above,under,apart,exact_⟩ := quotientPlace (n := n) scale (by omega)
  have room := Nat.two_pow_pos place
  generalize numerator (Double.nearest n 86400000) = top at value
  generalize denominator (Double.nearest n 86400000) = bottom at value positive_
  generalize Double.quotient n 86400000 _ = q at value above under apart exact_
  generalize 2^place = unit at value above under apart exact_ room
  have days := Nat.div_add_mod n 86400000
  have short := Nat.mod_lt n (show 86400000 > 0 by decide)
  generalize n/86400000 = k at above under apart exact_ days
  generalize n%86400000 = r at apart exact_ days short
  have floorLow : k*bottom ≤ top := by
    refine Nat.le_of_mul_le_mul_right ?_ room
    calc k*bottom*unit = k*unit*bottom := by ring
      _ ≤ q*bottom := Nat.mul_le_mul_right _ above
      _ = top*unit := value.symm
  have floorHigh : top < (k+1)*bottom := by
    refine Nat.lt_of_mul_lt_mul_right (a := unit) ?_
    calc top*unit = q*bottom := value
      _ < (k+1)*unit*bottom := Nat.mul_lt_mul_of_pos_right under positive_
      _ = (k+1)*bottom*unit := by ring
  constructor
  · exact Nat.div_eq_of_lt_le floorLow floorHigh
  · by_cases whole : r = 0
    · have same : top = k*bottom := by
        refine Nat.eq_of_mul_eq_mul_right room ?_
        rw [value,exact_ whole]
        ring
      have days_ : (n+86399999)/86400000 = k := by omega
      rw [days_]
      exact Nat.div_eq_of_lt_le (by omega) (by rw [Nat.succ_mul]; omega)
    · have more : k*bottom < top := by
        refine Nat.lt_of_mul_lt_mul_right (a := unit) ?_
        calc k*bottom*unit = k*unit*bottom := by ring
          _ < q*bottom := Nat.mul_lt_mul_of_pos_right (apart whole) positive_
          _ = top*unit := value.symm
      have days_ : (n+86399999)/86400000 = k+1 := by omega
      rw [days_]
      rw [Nat.succ_mul] at floorHigh
      refine Nat.div_eq_of_lt_le ?_ ?_
      · rw [Nat.succ_mul]; omega
      · rw [Nat.succ_mul,Nat.succ_mul]; omega

theorem nearestAbove {n} (positive : n ≠ 0) (small : n < 2^60) :
    (numerator (Double.nearest n 86400000) + denominator (Double.nearest n 86400000) - 1) /
      denominator (Double.nearest n 86400000) ≤ n/86400000+3 := by
  obtain ⟨place,scale,fine,positive_,value⟩ := nearestPlace positive small
  have up := Double.quotientRounds n 86400000 (Double.fitScale n 86400000)
  have split_ : n*2^1075 = n*2^place*2^Double.fitScale n 86400000 := by rw [Nat.mul_assoc,← Nat.pow_add,scale]
  rw [split_,Nat.mul_div_mul_right _ _ (Nat.two_pow_pos _)] at up
  have room := Nat.two_pow_pos place
  generalize numerator (Double.nearest n 86400000) = top at value
  generalize denominator (Double.nearest n 86400000) = bottom at value positive_
  generalize Double.quotient n 86400000 _ = q at value up
  generalize 2^place = unit at value up room
  have days := Nat.div_add_mod n 86400000
  generalize n/86400000 = k at days
  have whole : n*unit/86400000 < (k+1)*unit := by
    refine Nat.div_lt_of_lt_mul ?_
    calc n*unit < 86400000*(k+1)*unit := Nat.mul_lt_mul_of_pos_right (by omega) room
      _ = 86400000*((k+1)*unit) := Nat.mul_assoc _ _ _
  have bounded : top ≤ (k+2)*bottom := by
    refine Nat.le_of_mul_le_mul_right ?_ room
    calc top*unit = q*bottom := value
      _ ≤ (k+2)*unit*bottom := Nat.mul_le_mul_right _ (by rw [show (k+2)*unit = (k+1)*unit+unit by ring]; omega)
      _ = (k+2)*bottom*unit := by ring
  refine Nat.le_of_lt_succ (Nat.div_lt_of_lt_mul ?_)
  have more : bottom*(k+3+1) = (k+2)*bottom + 2*bottom := by ring
  rw [Nat.succ_eq_add_one,more]
  omega

theorem clampInside {x} (low : -14000000000 ≤ x) (high : x ≤ 14000000000) : max (-2^63) (min x (2^63-1)) = x := by
  omega

theorem dayCastBounded {time} (small : time.natAbs < 2^60) :
    -14000000000 ≤ dayCast time ∧ dayCast time ≤ 14000000000 := by
  by_cases zero : time = 0
  · subst zero
    decide
  · have up := nearestAbove (Int.natAbs_ne_zero.mpr zero) small
    have down : numerator (Double.nearest time.natAbs 86400000) / denominator (Double.nearest time.natAbs 86400000) ≤
        (numerator (Double.nearest time.natAbs 86400000) + denominator (Double.nearest time.natAbs 86400000) - 1) /
          denominator (Double.nearest time.natAbs 86400000) := Nat.div_le_div_right (by
      obtain ⟨_,_,_,positive_,_⟩ := nearestPlace (Int.natAbs_ne_zero.mpr zero) small
      omega)
    by_cases negative : time < 0
    · simp only [dayCast,if_neg zero,if_pos negative]
      generalize (numerator (Double.nearest time.natAbs 86400000) + denominator (Double.nearest time.natAbs 86400000) - 1) /
        denominator (Double.nearest time.natAbs 86400000) = ceiling at up
      omega
    · simp only [dayCast,if_neg zero,if_neg negative]
      have least := Nat.le_trans down up
      generalize numerator (Double.nearest time.natAbs 86400000) / denominator (Double.nearest time.natAbs 86400000) = floor at least
      omega

theorem dayCastExact {time} (small : time.natAbs < 2^53) : dayCast time = day time := by
  by_cases zero : time = 0
  · subst zero
    decide
  · obtain ⟨down,up⟩ := nearestDay (Int.natAbs_ne_zero.mpr zero) small
    simp only [dayCast,if_neg zero,down,up,day,msPerDay]
    split
    · rename_i negative
      omega
    · obtain ⟨n,rfl⟩ := Int.eq_ofNat_of_zero_le (by omega : 0 ≤ time)
      omega

/-- `i64` arithmetic; a missing value is an overflow. -/
def i64 (value : Int) : Option Int := if -2^63 ≤ value ∧ value < 2^63 then some value else none

theorem i64Some {value result} (h : i64 value = some result) : result = value ∧ -2^63 ≤ value ∧ value < 2^63 := by
  unfold i64 at h
  split at h
  · rename_i range
    exact ⟨(Option.some.inj h).symm,range⟩
  · cases h

theorem i64Fits {value} (range : -2^63 ≤ value ∧ value < 2^63) : i64 value = some value := if_pos range

def checkedDayFromYear (year : Int) : Option Int := do
  let shifted ← i64 (year-1970)
  let scaled ← i64 (365*shifted)
  let prior ← i64 (year-1)
  let four ← i64 (prior/4 - prior/100)
  let leaps ← i64 (four + prior/400)
  let sum ← i64 (scaled + leaps)
  i64 (sum - leapYearsBefore 1970)

theorem checkedDayValue {year begins} (h : checkedDayFromYear year = some begins) : begins = dayFromYear year := by
  simp only [checkedDayFromYear,Option.bind_eq_bind,Option.bind_eq_some_iff] at h
  obtain ⟨shifted,h1,scaled,h2,prior,h3,four,h4,leaps,h5,sum,h6,h7⟩ := h
  have v1 := (i64Some h1).1
  have v2 := (i64Some h2).1
  have v3 := (i64Some h3).1
  have v4 := (i64Some h4).1
  have v5 := (i64Some h5).1
  have v6 := (i64Some h6).1
  have v7 := (i64Some h7).1
  subst v1 v2 v3 v4 v5 v6 v7
  rfl

/-- The years whose day count stays in `i64`. -/
theorem checkedDayFits {year} (low : -25252734927764584 ≤ year) (high : year ≤ 25252734927768523) :
    checkedDayFromYear year = some (dayFromYear year) := by
  have begins : leapYearsBefore 1970 = 477 := by decide
  simp only [checkedDayFromYear,Option.bind_eq_bind]
  rw [i64Fits (by omega),Option.bind_some,i64Fits (by omega),Option.bind_some,i64Fits (by omega),Option.bind_some,
    i64Fits (by omega),Option.bind_some,i64Fits (by omega),Option.bind_some,i64Fits (by omega),Option.bind_some,
    i64Fits (by omega)]
  rfl

theorem checkedDayOverflows {year} (far : year < -25252734927764584 ∨ 25252734927768523 < year) :
    checkedDayFromYear year = none := by
  cases found : checkedDayFromYear year with
  | none => rfl
  | some begins =>
    have offset : leapYearsBefore 1970 = 477 := by decide
    simp only [checkedDayFromYear,Option.bind_eq_bind,Option.bind_eq_some_iff] at found
    obtain ⟨shifted,h1,scaled,h2,prior,h3,four,h4,leaps,h5,sum,h6,h7⟩ := found
    obtain ⟨v1,_⟩ := i64Some h1
    obtain ⟨v2,_⟩ := i64Some h2
    obtain ⟨v3,_⟩ := i64Some h3
    obtain ⟨v4,_⟩ := i64Some h4
    obtain ⟨v5,_⟩ := i64Some h5
    obtain ⟨v6,r6⟩ := i64Some h6
    obtain ⟨_,r7⟩ := i64Some h7
    omega

/-- First loop of `year_from_time` in `i64`. -/
def checkedYearDown (days year : Int) : Option Int :=
  match checked : checkedDayFromYear year with
  | none => none
  | some begins => if days < begins then checkedYearDown days (year-1) else some year
termination_by (dayFromYear year - days).toNat
decreasing_by
  have step := dayFromYearGrows (year-1)
  have value := checkedDayValue checked
  simp only [Int.sub_add_cancel] at step
  omega

def checkedYearUp (days year : Int) : Option Int :=
  match checked : checkedDayFromYear (year+1) with
  | none => none
  | some begins => if begins ≤ days then checkedYearUp days (year+1) else some year
termination_by (days + 1 - dayFromYear year).toNat
decreasing_by
  have step := dayFromYearGrows year
  have value := checkedDayValue checked
  omega

def checkedYearFromTime (time : Int) : Option Int := do
  let year ← i64 (1970 + dayCast time / 365)
  let year ← checkedYearDown (dayCast time) year
  checkedYearUp (dayCast time) year

theorem checkedDownStep {days year begins} (value : checkedDayFromYear year = some begins) :
    checkedYearDown days year = if days < begins then checkedYearDown days (year-1) else some year := by
  rw [checkedYearDown]
  split
  · rename_i none_
    rw [value] at none_
    cases none_
  · rename_i other same
    rw [value] at same
    cases same
    rfl

theorem checkedUpStep {days year begins} (value : checkedDayFromYear (year+1) = some begins) :
    checkedYearUp days year = if begins ≤ days then checkedYearUp days (year+1) else some year := by
  rw [checkedYearUp]
  split
  · rename_i none_
    rw [value] at none_
    cases none_
  · rename_i other same
    rw [value] at same
    cases same
    rfl

theorem yearDownLe (days year) : yearDown days year ≤ year := by
  induction year using yearDown.induct days with
  | case1 year later ih =>
    rw [yearDown,if_pos later]
    omega
  | case2 year begun => rw [yearDown,if_neg begun]

theorem yearUpGe (days year) : year ≤ yearUp days year := by
  induction year using yearUp.induct days with
  | case1 year next ih =>
    rw [yearUp,if_pos next]
    omega
  | case2 year last => rw [yearUp,if_neg last]

theorem yearDownNear (days year) :
    yearDown days year = year ∨ days < dayFromYear (yearDown days year + 1) := by
  induction year using yearDown.induct days with
  | case1 year later ih =>
    rw [yearDown,if_pos later]
    rcases ih with same | near
    · rw [same,Int.sub_add_cancel]
      exact .inr later
    · exact .inr near
  | case2 year begun => rw [yearDown,if_neg begun]; exact .inl rfl

/-- The loop goes as the exact one while every day count it asks for fits. -/
theorem checkedDownRuns {days year} (fits : ∀ y, yearDown days year ≤ y → y ≤ year →
    checkedDayFromYear y = some (dayFromYear y)) : checkedYearDown days year = some (yearDown days year) := by
  induction year using yearDown.induct days with
  | case1 year later ih =>
    have next : yearDown days year = yearDown days (year-1) := by rw [yearDown,if_pos later]
    rw [checkedDownStep (fits year (yearDownLe days year) (Int.le_refl _)),if_pos later,next]
    refine ih fun y low high => fits y ?_ (by omega)
    rw [next]
    exact low
  | case2 year begun =>
    rw [checkedDownStep (fits year (yearDownLe days year) (Int.le_refl _)),if_neg begun,yearDown,if_neg begun]

theorem checkedUpRuns {days year} (fits : ∀ y, year < y → y ≤ yearUp days year + 1 →
    checkedDayFromYear y = some (dayFromYear y)) : checkedYearUp days year = some (yearUp days year) := by
  have above := yearUpGe days year
  have first := fits (year+1) (by omega) (by omega)
  induction year using yearUp.induct days with
  | case1 year next ih =>
    have same : yearUp days year = yearUp days (year+1) := by rw [yearUp,if_pos next]
    have higher := yearUpGe days (year+1)
    rw [checkedUpStep first,if_pos next,same]
    refine ih ?_ higher ?_
    · intro y low high
      exact fits y (by omega) (by rw [same]; exact high)
    · exact fits (year+1+1) (by omega) (by omega)
  | case2 year last => rw [checkedUpStep first,if_neg last,yearUp,if_neg last]

/-- Days so far from the epoch that the first guess of their year overflows. -/
def FarDays (days : Int) : Prop := days < -9217248248634792210 ∨ 9217248248634792209 < days

instance (days) : Decidable (FarDays days) := by unfold FarDays; infer_instance

theorem dayCastRange (time) : -2^63 ≤ dayCast time ∧ dayCast time < 2^63 := by
  simp only [dayCast]
  omega

/-- No day count overflows while the days themselves are near enough. -/
theorem checkedYearRuns {time} (near : ¬FarDays (dayCast time)) :
    checkedYearFromTime time =
      some (yearUp (dayCast time) (yearDown (dayCast time) (1970 + dayCast time/365))) := by
  obtain ⟨low,high⟩ := not_or.mp near
  obtain ⟨begun,ends⟩ := yearUpInYear (yearDownBegun (dayCast time) (1970 + dayCast time/365))
  have top : yearUp (dayCast time) (yearDown (dayCast time) (1970 + dayCast time/365)) ≤ 25240000000000000 := by
    rw [dayFromYearValue] at begun
    omega
  have bottom : -25252734927764584 ≤ yearDown (dayCast time) (1970 + dayCast time/365) := by
    rcases yearDownNear (dayCast time) (1970 + dayCast time/365) with same | near
    · omega
    · rw [dayFromYearValue] at near
      omega
  simp only [checkedYearFromTime,Option.bind_eq_bind]
  rw [i64Fits (by omega),Option.bind_some,checkedDownRuns fun y _ _ => checkedDayFits (by omega) (by omega),
    Option.bind_some,checkedUpRuns fun y _ _ => checkedDayFits (by omega) (by omega)]

theorem checkedYearOverflows {time} (far : FarDays (dayCast time)) : checkedYearFromTime time = none := by
  have range := dayCastRange time
  have guess : checkedDayFromYear (1970 + dayCast time/365) = none := checkedDayOverflows (by
    rcases far with low | high
    · left; omega
    · right; omega)
  have down : checkedYearDown (dayCast time) (1970 + dayCast time/365) = none := by
    unfold checkedYearDown
    split
    · rfl
    · rename_i begins value
      rw [guess] at value
      cases value
  simp only [checkedYearFromTime,Option.bind_eq_bind]
  rw [i64Fits (by omega),Option.bind_some,down]
  rfl

theorem nearDays {time} (small : time.natAbs < 2^60) : ¬FarDays (dayCast time) := by
  have bounds := dayCastBounded small
  exact not_or.mpr ⟨by omega,by omega⟩

theorem checkedYearExact {time} (small : time.natAbs < 2^53) :
    checkedYearFromTime time = some (yearFromTime time) := by
  rw [checkedYearRuns (nearDays (by omega)),dayCastExact small]
  rfl

namespace TimeZoneRule

/-- `offset_at_utc` with the year search in `i64`. -/
def checkedOffsetAtUtc (zone : TimeZoneRule) (time : Int) : Option Int :=
  match zone with
  | .fixed offset _ => some offset.val
  | .dst standard daylight _ _ start end_ =>
    (checkedYearFromTime time).map fun year => offsetInYear standard.val daylight.val start end_ year time

-- The instants are infinite only past the range of the day cast, whose year search overflows.
def checkedChoice (zone : TimeZoneRule) (standardOffset daylightOffset : Int) (standard daylight : Option Int) :
    Option (Option Int) := do
  let standard ← standard
  let daylight ← daylight
  let first ← zone.checkedOffsetAtUtc standard
  let second ← zone.checkedOffsetAtUtc daylight
  pure (some (disambiguate standard daylight (first == standardOffset) (second == daylightOffset)))

-- Each difference is one `f64` operation; `NaN` takes the branches of an invalid time and stays `NaN`.
def checkedUtcTime (zone : TimeZoneRule) (local_ : Option Int) : Option (Option Int) :=
  match local_ with
  | none => some none
  | some ms =>
    match zone with
    | .fixed offset _ => some (rounded (ms - offset.val*msPerSecond))
    | .dst standardOffset daylightOffset _ _ _ _ =>
      zone.checkedChoice standardOffset.val daylightOffset.val (rounded (ms - standardOffset.val*msPerSecond))
        (rounded (ms - daylightOffset.val*msPerSecond))

theorem checkedOffsetExact (zone : TimeZoneRule) {time} (small : time.natAbs < 2^53) :
    zone.checkedOffsetAtUtc time = some (zone.offsetAtUtc time) := by
  cases zone with
  | fixed offset name => rfl
  | dst standard daylight standardName daylightName start end_ =>
    rw [checkedOffsetAtUtc,checkedYearExact small]
    rfl

theorem offsetBounded {zone : TimeZoneRule} {offset} (inside : zone.Offset offset) : -2^31 ≤ offset ∧ offset < 2^31 := by
  cases zone with
  | fixed only name =>
    rw [show offset = only.val from inside]
    exact only.property
  | dst standard daylight standardName daylightName start end_ =>
    rcases inside with same | same
    · rw [same]; exact standard.property
    · rw [same]; exact daylight.property

theorem checkedUtcExact (zone : TimeZoneRule) {local_} (small : local_.natAbs < 2^53-2^42) :
    zone.checkedUtcTime (some local_) = some (some (zone.utcTime local_)) := by
  have fits : ∀ offset, zone.Offset offset → (local_ - offset*msPerSecond).natAbs < 2^53 := by
    intro offset inside
    have := offsetBounded inside
    simp only [msPerSecond]
    omega
  cases zone with
  | fixed offset name =>
    have inside : (TimeZoneRule.fixed offset name).Offset offset.val := rfl
    rw [checkedUtcTime,roundedSmall (fits offset.val inside),utcTime]
  | dst standardOffset daylightOffset standardName daylightName start end_ =>
    have first := fits standardOffset.val (.inl rfl)
    have second := fits daylightOffset.val (.inr rfl)
    rw [checkedUtcTime,checkedChoice,roundedSmall first,roundedSmall second]
    simp only [checkedOffsetExact _ first,checkedOffsetExact _ second,Option.bind_eq_bind,Option.bind_some,
      Option.pure_def,utcTime]

theorem roundedPast {value} (past : 2^53-2^43 ≤ value.natAbs) (finite : value.natAbs < 2^59) :
    ∃ result, rounded value = some result ∧ maxTimeValue < |result| ∧ result.natAbs < 2^60 := by
  have far : ∀ {n : Int}, 2^53-2^43 ≤ n.natAbs → maxTimeValue < |n| := by
    intro n large
    rw [Int.abs_eq_natAbs,maxTimeValue]
    omega
  by_cases small : value.natAbs < 2^53
  · exact ⟨value,roundedSmall small,far past,by omega⟩
  · obtain ⟨result,run,low,high⟩ := roundedLarge (by omega : 2^53 ≤ value.natAbs) (by omega)
    exact ⟨result,run,far (by omega),by omega⟩

theorem disambiguateEither (standard daylight a b) :
    disambiguate standard daylight a b = standard ∨ disambiguate standard daylight a b = daylight := by
  cases a <;> cases b <;> simp only [disambiguate]
  · exact max_choice _ _
  · exact .inr trivial
  · exact .inl trivial
  · exact min_choice _ _

theorem checkedOffsetRuns (zone : TimeZoneRule) {time} (small : time.natAbs < 2^60) :
    ∃ offset, zone.checkedOffsetAtUtc time = some offset := by
  cases zone with
  | fixed offset name => exact ⟨_,rfl⟩
  | dst standard daylight standardName daylightName start end_ =>
    rw [checkedOffsetAtUtc,checkedYearRuns (nearDays small)]
    exact ⟨_,rfl⟩

theorem clipFar {value} (far : maxTimeValue < |value|) : timeClip (some value) = none := by
  simp [timeClip,Option.filter,far]

theorem utcTimeEither (zone : TimeZoneRule) (local_) :
    ∃ offset, zone.Offset offset ∧ zone.utcTime local_ = local_ - offset*msPerSecond := by
  cases zone with
  | fixed offset name => exact ⟨_,rfl,rfl⟩
  | dst standard daylight standardName daylightName start end_ =>
    rcases disambiguateEither (local_ - standard.val*msPerSecond) (local_ - daylight.val*msPerSecond) _ _ with same | same
    · exact ⟨_,.inl rfl,same⟩
    · exact ⟨_,.inr rfl,same⟩

/-- Rounding and casts do not show in a clipped time. -/
theorem checkedUtcClip (zone : TimeZoneRule) {local_} (finite : local_.natAbs < 2^58) :
    ∃ utc, zone.checkedUtcTime (some local_) = some utc ∧ timeClip utc = timeClip (some (zone.utcTime local_)) := by
  by_cases small : local_.natAbs < 2^53-2^42
  · exact ⟨_,checkedUtcExact zone small,rfl⟩
  · have past : ∀ offset, zone.Offset offset → 2^53-2^43 ≤ (local_ - offset*msPerSecond).natAbs ∧
        (local_ - offset*msPerSecond).natAbs < 2^59 := by
      intro offset inside
      have := offsetBounded inside
      simp only [msPerSecond]
      omega
    obtain ⟨offset,inside,either⟩ := utcTimeEither zone local_
    have exactFar : timeClip (some (zone.utcTime local_)) = none := by
      obtain ⟨low,high⟩ := past offset inside
      refine clipFar ?_
      rw [Int.abs_eq_natAbs,maxTimeValue]
      omega
    rw [exactFar]
    cases zone with
    | fixed only name =>
      obtain ⟨low,high⟩ := past only.val rfl
      obtain ⟨result,run,far,_⟩ := roundedPast low high
      refine ⟨_,rfl,?_⟩
      rw [run,clipFar far]
    | dst standard daylight standardName daylightName start end_ =>
      obtain ⟨low,high⟩ := past standard.val (.inl rfl)
      obtain ⟨low',high'⟩ := past daylight.val (.inr rfl)
      obtain ⟨first,run,far,bounded⟩ := roundedPast low high
      obtain ⟨second,run',far',bounded'⟩ := roundedPast low' high'
      obtain ⟨a,offset1⟩ := checkedOffsetRuns (.dst standard daylight standardName daylightName start end_) bounded
      obtain ⟨b,offset2⟩ := checkedOffsetRuns (.dst standard daylight standardName daylightName start end_) bounded'
      refine ⟨some (disambiguate first second (a == standard.val) (b == daylight.val)),?_,?_⟩
      · rw [checkedUtcTime,checkedChoice,run,run']
        simp only [offset1,offset2,Option.bind_eq_bind,Option.bind_some,Option.pure_def]
      · rcases disambiguateEither first second (a == standard.val) (b == daylight.val) with same | same
        · rw [same,clipFar far]
        · rw [same,clipFar far']

/-- An instant whose year search overflows. -/
def FarInstant : Option Int → Prop
  | none => True
  | some time => FarDays (dayCast time)

instance (instant) : Decidable (FarInstant instant) := by
  cases instant <;> unfold FarInstant <;> infer_instance

/-- A local time that daylight rules cannot be applied to. -/
def Far (zone : TimeZoneRule) (local_ : Int) : Prop :=
  match zone with
  | .fixed _ _ => False
  | .dst standard daylight _ _ _ _ =>
    FarInstant (rounded (local_ - standard.val*msPerSecond)) ∨ FarInstant (rounded (local_ - daylight.val*msPerSecond))

theorem checkedUtcIff (zone : TimeZoneRule) (local_) : zone.checkedUtcTime (some local_) = none ↔ zone.Far local_ := by
  cases zone with
  | fixed offset name => simp [checkedUtcTime,Far]
  | dst standard daylight standardName daylightName start end_ =>
    have offset : ∀ time, (TimeZoneRule.dst standard daylight standardName daylightName start end_).checkedOffsetAtUtc time =
        none ↔ FarDays (dayCast time) := by
      intro time
      rw [checkedOffsetAtUtc]
      by_cases far : FarDays (dayCast time)
      · rw [checkedYearOverflows far]
        exact iff_of_true rfl far
      · rw [checkedYearRuns far]
        exact iff_of_false (by simp) far
    rw [checkedUtcTime,checkedChoice,Far]
    generalize rounded (local_ - standard.val*msPerSecond) = first
    generalize rounded (local_ - daylight.val*msPerSecond) = second
    cases first with
    | none => simp [FarInstant]
    | some first =>
      cases second with
      | none => simp [FarInstant]
      | some second =>
        simp only [FarInstant,← offset,Option.bind_eq_bind,Option.bind_some]
        cases TimeZoneRule.checkedOffsetAtUtc _ first with
        | none => simp
        | some a => cases TimeZoneRule.checkedOffsetAtUtc _ second <;> simp

end TimeZoneRule

end Bamts.Date
