import Bamts.DateCalendar

/-! The fields of a time value lie in their ranges and rebuild it. -/
set_option linter.all false
namespace Bamts.Date

theorem dateFromTimeBounds (time) :
    1 ≤ dateFromTime time ∧
    dateFromTime time ≤ daysInMonth (yearFromTime time) (monthFromTime time + 1) := by
  obtain ⟨low,_,begun,ends⟩ := monthFromTimeIn time
  obtain ⟨month,same⟩ := Int.eq_ofNat_of_zero_le low
  have step := daysBeforeSucc (yearFromTime time) month
  simp only [dateFromTime,same] at begun ends ⊢
  omega

theorem clockBounds (time) :
    (0 ≤ hourFromTime time ∧ hourFromTime time ≤ 23) ∧
    (0 ≤ minFromTime time ∧ minFromTime time ≤ 59) ∧
    (0 ≤ secFromTime time ∧ secFromTime time ≤ 59) ∧
    (0 ≤ msFromTime time ∧ msFromTime time ≤ 999) := by
  simp only [hourFromTime,minFromTime,secFromTime,msFromTime,timeWithinDay,msPerDay,msPerHour,
    msPerMinute,msPerSecond]
  omega

theorem makeTimeFields (time) :
    makeTime (hourFromTime time) (minFromTime time) (secFromTime time) (msFromTime time) =
      timeWithinDay time := by
  simp only [makeTime,hourFromTime,minFromTime,secFromTime,msFromTime,timeWithinDay,msPerDay,
    msPerHour,msPerMinute,msPerSecond]
  omega

theorem dayAndWithin (time) : day time * msPerDay + timeWithinDay time = time := by
  simp only [day,timeWithinDay,msPerDay]
  omega

theorem yearBounded {time} (h : |time| ≤ maxTimeValue) :
    -271821 ≤ yearFromTime time ∧ yearFromTime time ≤ 275760 := by
  obtain ⟨begun,ends⟩ := yearFromTimeIn time
  obtain ⟨low,high⟩ := abs_le.mp h
  simp only [dayFromYearValue,day,msPerDay,maxTimeValue] at *
  constructor
  · omega
  · omega

theorem yearNear {time} (h : time.natAbs ≤ 8640000100000000) :
    -300000 ≤ yearFromTime time ∧ yearFromTime time ≤ 300000 := by
  obtain ⟨begun,ends⟩ := yearFromTimeIn time
  simp only [dayFromYearValue,day,msPerDay] at *
  constructor
  · omega
  · omega

theorem makeDayFields {time} (h : |yearFromTime time| ≤ 1000000) :
    makeDay (yearFromTime time) (monthFromTime time) (dateFromTime time) = some (day time) := by
  obtain ⟨low,high,_,_⟩ := monthFromTimeIn time
  obtain ⟨dateLow,dateHigh⟩ := dateFromTimeBounds time
  have long := (daysInMonthPositive (yearFromTime time) (monthFromTime time + 1)).2
  have bounds : DayBounds (yearFromTime time) (monthFromTime time) (dateFromTime time) :=
    ⟨h,abs_le.mpr ⟨by omega,by omega⟩,abs_le.mpr ⟨by omega,by omega⟩⟩
  have whole : monthFromTime time / 12 = 0 := by omega
  have part : monthFromTime time % 12 = monthFromTime time := by omega
  rw [makeDay,if_pos bounds,whole,part,Int.add_zero]
  simp only [dateFromTime,dayWithinYear,Option.some.injEq]
  omega

theorem makeDateFields {time} (h : |time| ≤ maxTimeValue) :
    makeDate (makeDay (yearFromTime time) (monthFromTime time) (dateFromTime time))
      (makeTime (hourFromTime time) (minFromTime time) (secFromTime time) (msFromTime time)) = some time := by
  have years := yearBounded h
  rw [makeDayFields (abs_le.mpr ⟨by omega,by omega⟩),makeTimeFields]
  simp [makeDate,dayAndWithin]

theorem makeDayAdditive {year month date} (h : DayBounds year month date) (normal : |year + month/12| ≤ 1000000) :
    makeDay year month date =
      (makeDay (year + month/12) (month%12) 1).map fun first => first + date - 1 := by
  have first : DayBounds (year + month/12) (month%12) 1 :=
    ⟨normal,abs_le.mpr ⟨by omega,by omega⟩,by decide⟩
  have whole : month % 12 / 12 = 0 := by omega
  have part : month % 12 % 12 = month % 12 := by omega
  rw [makeDay,if_pos h,makeDay,if_pos first,whole,part,Int.add_zero]
  simp only [Option.map_some,Option.some.injEq]
  omega

/-- The calendar splits every time value and puts it together again. -/
theorem calendarRoundTrip :
    (∀ time : Int, |time| ≤ maxTimeValue →
      makeDate (makeDay (yearFromTime time) (monthFromTime time) (dateFromTime time))
        (makeTime (hourFromTime time) (minFromTime time) (secFromTime time) (msFromTime time)) = some time ∧
      (0 ≤ monthFromTime time ∧ monthFromTime time ≤ 11) ∧
      (1 ≤ dateFromTime time ∧
        dateFromTime time ≤ daysInMonth (yearFromTime time) (monthFromTime time + 1)) ∧
      (0 ≤ hourFromTime time ∧ hourFromTime time ≤ 23) ∧
      (0 ≤ minFromTime time ∧ minFromTime time ≤ 59) ∧
      (0 ≤ secFromTime time ∧ secFromTime time ≤ 59) ∧
      (0 ≤ msFromTime time ∧ msFromTime time ≤ 999) ∧
      ∀ year, dayFromYear year ≤ time/86400000 ∧ time/86400000 < dayFromYear (year+1) ↔
        year = yearFromTime time) ∧
    (∀ year month date : Int, DayBounds year month date → |year + month/12| ≤ 1000000 →
      makeDay year month date =
        (makeDay (year + month/12) (month%12) 1).map fun first => first + date - 1) := by
  constructor
  · intro time h
    obtain ⟨low,high,_,_⟩ := monthFromTimeIn time
    obtain ⟨hours,minutes,seconds,milliseconds⟩ := clockBounds time
    refine ⟨makeDateFields h,⟨low,high⟩,dateFromTimeBounds time,hours,minutes,seconds,milliseconds,?_⟩
    intro year
    constructor
    · intro inside
      exact inYearUnique inside (yearFromTimeIn time)
    · intro same
      rw [same]
      exact yearFromTimeIn time
  · intro year month date h normal
    exact makeDayAdditive h normal

theorem calendarRoundTripBeforeEpoch :
    |(-1 : Int)| ≤ maxTimeValue ∧
    makeDate (makeDay (yearFromTime (-1)) (monthFromTime (-1)) (dateFromTime (-1)))
      (makeTime (hourFromTime (-1)) (minFromTime (-1)) (secFromTime (-1)) (msFromTime (-1))) = some (-1) ∧
    DayBounds 2024 13 1 ∧
    makeDay 2024 13 1 = (makeDay (2024 + 13/12) (13%12) 1).map fun first => first + 1 - 1 :=
  ⟨by decide,(calendarRoundTrip.1 (-1) (by decide)).1,by decide,
    calendarRoundTrip.2 2024 13 1 (by decide) (by decide)⟩

/-- A month past the end of the last admitted year leaves `make_day`'s bounds. -/
theorem makeDayNotAdditive :
    ¬ ∀ year month date : Int, DayBounds year month date →
      makeDay year month date =
        (makeDay (year + month/12) (month%12) 1).map fun first => first + date - 1 := by
  intro h
  have last := h 1000000 12 1 (by decide)
  revert last
  decide

end Bamts.Date
