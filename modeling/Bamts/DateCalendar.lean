import Mathlib.Algebra.Order.Ring.Int
import Mathlib.Data.Int.DivMod
import Mathlib.Tactic.Linarith

/-! Proleptic Gregorian calendar of the `Date` builtin over exact integer milliseconds.
A missing value stands for `NaN`. -/
set_option linter.all false
namespace Bamts.Date

def msPerSecond : Int := 1000
def msPerMinute : Int := 60000
def msPerHour : Int := 3600000
def msPerDay : Int := 86400000
def maxTimeValue : Int := 8640000000000000

def day (time : Int) : Int := time / msPerDay
def timeWithinDay (time : Int) : Int := time % msPerDay

def isLeapYear (year : Int) : Bool :=
  year % 4 == 0 && (year % 100 != 0 || year % 400 == 0)

def leapYearsBefore (year : Int) : Int :=
  (year-1) / 4 - (year-1) / 100 + (year-1) / 400

def dayFromYear (year : Int) : Int :=
  365 * (year-1970) + leapYearsBefore year - leapYearsBefore 1970

theorem dayFromYearValue (year) :
    dayFromYear year = 365*(year-1970) + (year-1)/4 - (year-1)/100 + (year-1)/400 - 477 := by
  simp only [dayFromYear,leapYearsBefore]
  omega

theorem dayFromYearGrows (year) :
    dayFromYear year + 365 ≤ dayFromYear (year+1) := by
  simp only [dayFromYearValue]
  omega

theorem yearLength (year) :
    dayFromYear (year+1) = dayFromYear year + if isLeapYear year then 366 else 365 := by
  simp only [dayFromYearValue,isLeapYear,Bool.and_eq_true,Bool.or_eq_true,beq_iff_eq,bne_iff_ne]
  split <;> omega

theorem dayFromYearStrict {y z} (h : y < z) : dayFromYear y < dayFromYear z := by
  simp only [dayFromYearValue]
  omega

/-- First loop of `year_from_time`: the guess goes down to a year that has begun. -/
def yearDown (days year : Int) : Int :=
  if days < dayFromYear year then yearDown days (year-1) else year
termination_by (dayFromYear year - days).toNat
decreasing_by
  have step := dayFromYearGrows (year-1)
  simp only [Int.sub_add_cancel] at step
  omega

/-- Second loop: it goes up while the next year has begun too. -/
def yearUp (days year : Int) : Int :=
  if dayFromYear (year+1) ≤ days then yearUp days (year+1) else year
termination_by (days + 1 - dayFromYear year).toNat
decreasing_by
  have step := dayFromYearGrows year
  omega

def yearFromTime (time : Int) : Int :=
  yearUp (day time) (yearDown (day time) (1970 + day time / 365))

/-- The days of `year`, counted from the epoch. -/
def InYear (days year : Int) : Prop :=
  dayFromYear year ≤ days ∧ days < dayFromYear (year+1)

instance (days year) : Decidable (InYear days year) := by unfold InYear; infer_instance

theorem yearDownBegun (days year) : dayFromYear (yearDown days year) ≤ days := by
  induction year using yearDown.induct days with
  | case1 year later ih =>
    rw [yearDown,if_pos later]
    exact ih
  | case2 year begun =>
    rw [yearDown,if_neg begun]
    omega

theorem yearUpInYear {days year} (begun : dayFromYear year ≤ days) :
    InYear days (yearUp days year) := by
  induction year using yearUp.induct days with
  | case1 year next ih =>
    rw [yearUp,if_pos next]
    exact ih next
  | case2 year last =>
    rw [yearUp,if_neg last]
    exact ⟨begun,by omega⟩

theorem yearFromTimeIn (time) : InYear (day time) (yearFromTime time) :=
  yearUpInYear (yearDownBegun _ _)

theorem inYearUnique {days y z} (hy : InYear days y) (hz : InYear days z) : y = z := by
  obtain ⟨beganY,endsY⟩ := hy
  obtain ⟨beganZ,endsZ⟩ := hz
  rcases Int.lt_trichotomy y z with before | same | after
  · rcases Int.lt_or_eq_of_le (Int.add_one_le_iff.mpr before) with gap | next
    · have := dayFromYearStrict gap; omega
    · subst next; omega
  · exact same
  · rcases Int.lt_or_eq_of_le (Int.add_one_le_iff.mpr after) with gap | next
    · have := dayFromYearStrict gap; omega
    · subst next; omega

def dayWithinYear (time : Int) : Int := day time - dayFromYear (yearFromTime time)

def daysInMonth (year month : Int) : Int :=
  if month = 2 then if isLeapYear year then 29 else 28
  else if month = 4 ∨ month = 6 ∨ month = 9 ∨ month = 11 then 30 else 31

/-- `(1..=month).map(days_in_month).sum()`. -/
def daysBefore (year month : Int) : Int :=
  ((List.range month.toNat).map fun index : Nat => daysInMonth year (index+1)).sum

@[simp] theorem daysBeforeZero (year) : daysBefore year 0 = 0 := rfl

theorem daysBeforeSucc (year) (month : Nat) :
    daysBefore year (month+1) = daysBefore year month + daysInMonth year (month+1) := by
  have next : ((month : Int)+1).toNat = month+1 := by omega
  simp [daysBefore,next,List.range_succ]

theorem daysInMonthPositive (year month) :
    28 ≤ daysInMonth year month ∧ daysInMonth year month ≤ 31 := by
  simp only [daysInMonth]
  split_ifs <;> omega

theorem daysBeforeYear (year) : daysBefore year 12 = dayFromYear (year+1) - dayFromYear year := by
  rw [yearLength]
  have value : daysBefore year 12 = if isLeapYear year then 366 else 365 := by
    cases leap : isLeapYear year <;> simp [daysBefore,List.range_succ,daysInMonth,leap]
  omega

theorem daysBeforeMono (year) {m n : Nat} (h : m ≤ n) :
    daysBefore year m ≤ daysBefore year n := by
  induction n, h using Nat.le_induction with
  | base => exact Int.le_refl _
  | succ n _ ih =>
    have step := daysBeforeSucc year n
    have positive := (daysInMonthPositive year (n+1)).1
    push_cast
    omega

/-- Loop of `month_from_time`; a missing value is the `unreachable!` after it. -/
def monthLoop (year : Int) : Nat → Nat → Int → Option Int
  | 0, _, _ => none
  | left+1, month, remaining =>
      if remaining < daysInMonth year month then some ((month : Int)-1)
      else monthLoop year left (month+1) (remaining-daysInMonth year month)

/-- `days` of `year` fall into the month after `month` whole ones. -/
def InMonth (year days month : Int) : Prop :=
  0 ≤ month ∧ month ≤ 11 ∧ daysBefore year month ≤ days ∧ days < daysBefore year (month+1)

instance (year days month) : Decidable (InMonth year days month) := by unfold InMonth; infer_instance

theorem monthLoopFound (year days) (left month : Nat) (begun : daysBefore year month ≤ days) (ends : days < daysBefore year (month+left : Nat)) :
    ∃ found : Nat, monthLoop year left (month+1) (days-daysBefore year month) = some (found : Int) ∧
      month ≤ found ∧ found < month+left ∧
      daysBefore year found ≤ days ∧ days < daysBefore year (found+1) := by
  induction left generalizing month with
  | zero => simp only [Nat.add_zero] at ends; omega
  | succ left ih =>
    have step := daysBeforeSucc year month
    by_cases here : days-daysBefore year month < daysInMonth year (month+1)
    · refine ⟨month,?_,by omega,by omega,begun,by omega⟩
      simp only [monthLoop,Nat.cast_add,Nat.cast_one,here,if_true,Int.add_sub_cancel]
    · have begunNext : daysBefore year (month+1 : Nat) ≤ days := by push_cast; omega
      have endsNext : days < daysBefore year (month+1+left : Nat) := by
        rw [show month+1+left = month+(left+1) by omega]
        exact ends
      obtain ⟨found,run,low,high,inside⟩ := ih (month+1) begunNext endsNext
      refine ⟨found,?_,by omega,by omega,inside⟩
      have rest : days - daysBefore year (month+1 : Nat) =
          days - daysBefore year month - daysInMonth year (month+1) := by push_cast; omega
      simp only [monthLoop,Nat.cast_add,Nat.cast_one,here,if_false]
      rw [← rest]
      exact run

theorem monthLoopYear {year days} (begun : 0 ≤ days) (ends : days < dayFromYear (year+1) - dayFromYear year) :
    ∃ month, monthLoop year 12 1 days = some month ∧ InMonth year days month := by
  have found := monthLoopFound year days 12 0 (by simpa using begun) (by
    rw [← daysBeforeYear] at ends
    simpa using ends)
  obtain ⟨month,run,_,high,inside⟩ := found
  refine ⟨month,?_,by omega,by omega,inside⟩
  simpa using run

theorem dayWithinYearBounds (time) :
    0 ≤ dayWithinYear time ∧
    dayWithinYear time < dayFromYear (yearFromTime time + 1) - dayFromYear (yearFromTime time) := by
  obtain ⟨begun,ends⟩ := yearFromTimeIn time
  simp only [dayWithinYear]
  omega

theorem monthLoopReached (time) :
    (monthLoop (yearFromTime time) 12 1 (dayWithinYear time)).isSome := by
  obtain ⟨begun,ends⟩ := dayWithinYearBounds time
  obtain ⟨month,run,_⟩ := monthLoopYear begun ends
  simp [run]

/-- The loop always returns before its `unreachable!`. -/
def monthFromTime (time : Int) : Int :=
  (monthLoop (yearFromTime time) 12 1 (dayWithinYear time)).get (monthLoopReached time)

theorem monthFromTimeIn (time) :
    InMonth (yearFromTime time) (dayWithinYear time) (monthFromTime time) := by
  obtain ⟨begun,ends⟩ := dayWithinYearBounds time
  obtain ⟨month,run,inside⟩ := monthLoopYear begun ends
  simpa [monthFromTime,run] using inside

def dateFromTime (time : Int) : Int :=
  dayWithinYear time - daysBefore (yearFromTime time) (monthFromTime time) + 1

def weekDay (time : Int) : Int := (day time + 4) % 7
def hourFromTime (time : Int) : Int := timeWithinDay time / msPerHour
def minFromTime (time : Int) : Int := timeWithinDay time / msPerMinute % 60
def secFromTime (time : Int) : Int := timeWithinDay time / msPerSecond % 60
def msFromTime (time : Int) : Int := timeWithinDay time % 1000

def makeTime (hour minute second millisecond : Int) : Int :=
  hour*msPerHour + minute*msPerMinute + second*msPerSecond + millisecond

/-- The guard of `make_day` on its truncated arguments. -/
def DayBounds (year month date : Int) : Prop :=
  |year| ≤ 1000000 ∧ |month| ≤ 12000000 ∧ |date| ≤ 100000000

instance (year month date) : Decidable (DayBounds year month date) := by unfold DayBounds; infer_instance

def makeDay (year month date : Int) : Option Int :=
  if DayBounds year month date then
    some (dayFromYear (year + month/12) + daysBefore (year + month/12) (month%12) + date - 1)
  else none

def makeDate (dayValue : Option Int) (time : Int) : Option Int :=
  dayValue.map fun value => value*msPerDay + time

def timeClip (time : Option Int) : Option Int :=
  time.filter fun value => |value| ≤ maxTimeValue

end Bamts.Date
