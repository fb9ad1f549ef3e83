import Bamts.DateFormat

/-! The three printed forms of a time value are parsed back. -/
set_option linter.all false
namespace Bamts.Date
open ByteText Outcome

theorem fixedFormed {width low high : Nat} {value : Int} (positive : 0 < width) (below : value < 10^width) (range : low ≤ value ∧ value ≤ high) :
    Digits width low high (fixedText width value.toNat) ∧ (digitsOf (fixedText width value.toNat) : Int) = value := by
  have small : value.toNat < 10^width := by
    have : ((10^width : Nat) : Int) = 10^width := Nat.cast_pow 10 width
    omega
  obtain ⟨digits,read⟩ : IsDigits (fixedText width value.toNat) ∧ _ := fixedDigits positive
  rw [Nat.mod_eq_of_lt small] at read
  have long : (fixedText width value.toNat).length = width := by rw [fixedText,List.length_map,Numeral.placesLength]
  exact ⟨⟨long,digits,by omega,by omega⟩,by omega⟩

theorem padField {width value} (positive : 0 < width) (low : 0 ≤ value) (high : value < 10^width) :
    padInteger width value = fixedText width value.toNat := by
  have same : (value.toNat : Int) = value := Int.toNat_of_nonneg low
  have below : value.toNat < 10^width := by
    have : ((10^width : Nat) : Int) = 10^width := Nat.cast_pow 10 width
    omega
  rw [← padFixed positive below,same]

def isoClockPieces (time : Int) : ClockText where
  hours := fixedText 2 (hourFromTime time).toNat
  minutes := fixedText 2 (minFromTime time).toNat
  seconds := some (fixedText 2 (secFromTime time).toNat)
  fraction := some (fixedText 3 (msFromTime time).toNat)
  zone := .utc

def isoPieces (time : Int) : IsoText where
  sign := if 0 ≤ yearFromTime time ∧ yearFromTime time ≤ 9999 then none
    else some (if yearFromTime time < 0 then '-' else '+')
  year := if 0 ≤ yearFromTime time ∧ yearFromTime time ≤ 9999 then fixedText 4 (yearFromTime time).natAbs
    else fixedText 6 (yearFromTime time).natAbs
  day := .date (fixedText 2 (monthFromTime time + 1).toNat) (fixedText 2 (dateFromTime time).toNat)
  clock := some (isoClockPieces time)

section
variable {time : Int}

theorem dateBelow (time) : 1 ≤ dateFromTime time ∧ dateFromTime time ≤ 31 := by
  obtain ⟨low,high⟩ := dateFromTimeBounds time
  have := (daysInMonthPositive (yearFromTime time) (monthFromTime time + 1)).2
  omega

theorem clockPrinted (time) :
    clockText time = fixedText 2 (hourFromTime time).toNat ++ ':' :: (fixedText 2 (minFromTime time).toNat ++
      ':' :: fixedText 2 (secFromTime time).toNat) := by
  obtain ⟨hour,minute,second,_⟩ := clockBounds time
  rw [clockText,padField (by decide) hour.1 (by omega),padField (by decide) minute.1 (by omega),
    padField (by decide) second.1 (by omega),List.append_assoc]
  rfl

theorem isoYearPieces (bounded : (yearFromTime time).natAbs ≤ 999999) :
    isoYear (yearFromTime time) = (isoPieces time).sign.toList ++ (isoPieces time).year := by
  simp only [isoYear,isoPieces]
  split
  · rename_i plain
    rw [padField (by decide) plain.1 (by omega)]
    congr 1
    omega
  · split
    · rename_i negative
      have printed : padInteger 6 ((yearFromTime time).natAbs : Int) = fixedText 6 (yearFromTime time).natAbs :=
        padFixed (by decide) (by omega)
      rw [printed]
      rfl
    · rename_i positive
      rw [padField (by decide) (by omega) (by omega)]
      congr 2
      omega

theorem isoStringPieces (bounded : |time| ≤ maxTimeValue) : isoString time = some (isoPieces time).text := by
  have years := yearBounded bounded
  obtain ⟨monthLow,monthHigh,_,_⟩ := monthFromTimeIn time
  obtain ⟨dateLow,dateHigh⟩ := dateBelow time
  obtain ⟨_,_,_,milliseconds⟩ := clockBounds time
  rw [isoString,if_neg (by omega),isoYearPieces (by omega),clockPrinted,padField (by decide) (by omega) (by omega),
    padField (by decide) (by omega) (by omega),padField (by decide) milliseconds.1 (by omega)]
  simp only [IsoText.text,isoPieces,isoClockPieces,DayText.text,ClockText.text,part,ZoneText.text,Option.map_some,
    List.append_assoc,List.cons_append]

theorem isoClockFormed (time) : (isoClockPieces time).Formed := by
  obtain ⟨hour,minute,second,millisecond⟩ := clockBounds time
  obtain ⟨hours,value⟩ : Digits 2 0 24 (fixedText 2 (hourFromTime time).toNat) ∧ _ := fixedFormed (by decide) (by omega) (by omega)
  have minutes : Digits 2 0 59 (fixedText 2 (minFromTime time).toNat) := (fixedFormed (by decide) (by omega) (by omega)).1
  have seconds : Digits 2 0 59 (fixedText 2 (secFromTime time).toNat) := (fixedFormed (by decide) (by omega) (by omega)).1
  have fraction : Digits 3 0 999 (fixedText 3 (msFromTime time).toNat) := (fixedFormed (by decide) (by omega) (by omega)).1
  exact {
    hours := hours
    minutes := minutes
    seconds := fun piece found => by cases found; exact seconds
    fraction := fun piece found => by
      cases found
      exact ⟨fraction.2.1,Option.some_ne_none _⟩
    last := fun midnight => by
      simp only [isoClockPieces] at midnight
      omega
    zone := trivial }

theorem isoClockTime (time) : (isoClockPieces time).time = timeWithinDay time := by
  obtain ⟨hour,minute,second,millisecond⟩ := clockBounds time
  have read : ∀ {value : Int}, 0 ≤ value → value ≤ 99 → fieldValue (fixedText 2 value.toNat) = value := by
    intro value low high
    have formed : Digits 2 0 99 (fixedText 2 value.toNat) ∧ _ := fixedFormed (by decide) (by omega) (by omega)
    rw [(formedField formed.1).2.1,formed.2]
  have fraction : millisecondsOf (fixedText 3 (msFromTime time).toNat) = msFromTime time := by
    obtain ⟨formed,value⟩ : Digits 3 0 999 (fixedText 3 (msFromTime time).toNat) ∧ _ :=
      fixedFormed (by decide) (by omega) (by omega)
    rw [millisecondsOf,List.take_of_length_le formed.1.le,formed.1,value]
    omega
  rw [ClockText.time,← makeTimeFields time]
  simp only [ClockText.hour,ClockText.minute,ClockText.second,ClockText.millisecond,isoClockPieces,Option.elim_some,
    fraction,read hour.1 (by omega),read minute.1 (by omega),read second.1 (by omega)]

theorem isoYearFormed (bounded : (yearFromTime time).natAbs ≤ 999999) :
    YearFormed (isoPieces time).sign (isoPieces time).year ∧
    (isoPieces time).sign.elim 1 signValue * (digitsOf (isoPieces time).year : Int) = yearFromTime time := by
  have whole : (((yearFromTime time).natAbs : Int)).toNat = (yearFromTime time).natAbs := Int.toNat_natCast _
  simp only [isoPieces]
  split
  · rename_i plain
    obtain ⟨formed,value⟩ : Digits 4 0 9999 (fixedText 4 ((yearFromTime time).natAbs : Int).toNat) ∧ _ :=
      fixedFormed (by decide) (by omega) (by omega)
    rw [whole] at formed value
    exact ⟨formed,by rw [value]; simp only [Option.elim_none]; omega⟩
  · obtain ⟨formed,value⟩ : Digits 6 0 999999 (fixedText 6 ((yearFromTime time).natAbs : Int).toNat) ∧ _ :=
      fixedFormed (by decide) (by omega) (by omega)
    rw [whole] at formed value
    split
    · refine ⟨⟨.inr rfl,formed,by omega⟩,?_⟩
      rw [value,Option.elim_some,signValue,if_pos rfl]
      omega
    · refine ⟨⟨.inl rfl,formed,(by intro both; exact absurd both.1 (by decide))⟩,?_⟩
      rw [value,Option.elim_some,signValue,if_neg (by decide)]
      omega

theorem isoPiecesFormed (bounded : |time| ≤ maxTimeValue) :
    (isoPieces time).Formed ∧ (isoPieces time).yearValue = yearFromTime time ∧
    (isoPieces time).day.monthValue = monthFromTime time + 1 ∧ (isoPieces time).day.dateValue = dateFromTime time := by
  have years := yearBounded bounded
  obtain ⟨yearFormed,yearValue⟩ := isoYearFormed (show (yearFromTime time).natAbs ≤ 999999 by omega)
  obtain ⟨monthLow,monthHigh,_,_⟩ := monthFromTimeIn time
  obtain ⟨dateLow,dateHigh⟩ := dateFromTimeBounds time
  have dates := dateBelow time
  obtain ⟨month,monthValue⟩ : Digits 2 1 12 (fixedText 2 (monthFromTime time + 1).toNat) ∧ _ :=
    fixedFormed (by decide) (by omega) (by omega)
  obtain ⟨date,dateValue⟩ : Digits 2 1 (daysInMonth (yearFromTime time) (monthFromTime time + 1)).toNat
      (fixedText 2 (dateFromTime time).toNat) ∧ _ := fixedFormed (by decide) (by omega) (by omega)
  have formed : (isoPieces time).Formed := by
    refine ⟨yearFormed,?_,?_⟩
    · rw [yearValue]
      refine ⟨month,?_⟩
      rw [monthValue]
      exact date
    · intro clock found
      cases found
      exact isoClockFormed time
  refine ⟨formed,formed.yearValue_.2.1.trans yearValue,?_,?_⟩
  · exact (formedField month).2.1.trans monthValue
  · exact (formedField date).2.1.trans dateValue

theorem isoRoundTrip (bounded : |time| ≤ maxTimeValue) (zone) :
    parseIso (isoPieces time).text zone = .ok (some time) := by
  obtain ⟨formed,year,month,date⟩ := isoPiecesFormed bounded
  have years := yearBounded bounded
  have dated : ¬(isoPieces time).Undated := by
    intro undated
    cases undated.1
  have midnight : (isoPieces time).midnight = some (day time * msPerDay) := by
    rw [IsoText.midnight,year,month,date,Int.add_sub_cancel,makeDayFields (abs_le.mpr ⟨by omega,by omega⟩)]
    simp [makeDate]
  rw [isoReads (formed.accepted dated) zone,IsoText.instantClock rfl midnight,isoClockTime]
  simp only [isoClockPieces,ZoneText.utcTime,dayAndWithin,timeClip,Option.filter,bounded,decide_true,if_true]

end

/-- No ISO text begins with a letter. -/
theorem isoLetter {c} {rest : Text} (plus : c ≠ '+') (minus : c ≠ '-') (letter : isDecimal c = false) (zone) :
    parseIso (c :: rest) zone = .error .absent := by
  have head : charAt (c :: rest) 0 = some c := (At.start _).char
  have unsigned : ¬(charAt (c :: rest) 0 = some '+' ∨ charAt (c :: rest) 0 = some '-') := by
    rw [head,Option.some.injEq,Option.some.injEq]
    exact not_or.mpr ⟨plus,minus⟩
  have year : isoYearField (c :: rest) = .error .absent := by
    rw [isoYearField,if_neg unsigned]
    cases found : slice (c :: rest) 0 4 with
    | none => rfl
    | some piece =>
      obtain ⟨tail,same,long⟩ := sliceStartIff.mp found
      cases piece with
      | nil => cases long
      | cons d piece =>
        cases (List.cons.inj same).1
        have none_ : parseI64 (c :: piece) = none := by
          have digits : ¬IsDigits (c :: piece) := by
            intro all
            have := all.2 c List.mem_cons_self
            rw [letter] at this
            cases this
          have read : signedInteger true (c :: piece) = none := by
            unfold signedInteger
            split
            · rename_i same
              exact absurd (List.cons.inj same).1 plus
            · rename_i same
              exact absurd (List.cons.inj same).1 minus
            · rw [readDigits,if_neg digits]
              rfl
          rw [parseI64,parseInteger,read]
          rfl
        simp only [bind,Except.bind,orAbsent,none_]
  rw [parseIso,year]
  rfl

theorem weekdayName (time) :
    weekdays.getD (weekDay time).toNat [] ≠ [] ∧ ∀ c ∈ weekdays.getD (weekDay time).toNat [],
      isWhitespace c = false ∧ c ≠ ',' ∧ c ≠ '+' ∧ c ≠ '-' ∧ isDecimal c = false := by
  have table : ∀ d : Fin 7, weekdays.getD d [] ≠ [] ∧ (weekdays.getD d []).Forall fun c =>
      isWhitespace c = false ∧ c ≠ ',' ∧ c ≠ '+' ∧ c ≠ '-' ∧ isDecimal c = false := by decide
  have small : (weekDay time).toNat < 7 := by
    rw [weekDay]
    omega
  exact (table ⟨_,small⟩).imp_right List.forall_iff_forall_mem.mp

theorem monthName {month} (low : 0 ≤ month) (high : month ≤ 11) :
    months.getD month.toNat [] ≠ [] ∧ (∀ d ∈ months.getD month.toNat [], isWhitespace d = false) ∧
    position (months.getD month.toNat []) = some month := by
  have table : ∀ m : Fin 12, months.getD m [] ≠ [] ∧ (months.getD m []).Forall (fun d => isWhitespace d = false) ∧
      position (months.getD m []) = some (m : Int) := by decide
  have small : month.toNat < 12 := by omega
  obtain ⟨some_,plain,found⟩ := table ⟨_,small⟩
  refine ⟨some_,List.forall_iff_forall_mem.mp plain,found.trans ?_⟩
  rw [Option.some.injEq]
  simp only
  omega

theorem digitPlain {c} (digit : isDecimal c = true) : isWhitespace c = false ∧ c ≠ ':' := by
  obtain ⟨d,small,rfl,_⟩ := decimalIsDigit digit
  have table : ∀ d : Fin 10, isWhitespace (digitChar d) = false ∧ digitChar d ≠ ':' := by decide
  exact table ⟨d,small⟩

/-- An integer printed without padding, and what the two parsers read from it. -/
theorem printedInteger {value} (small : value.natAbs < 2^53) :
    padInteger 0 value ≠ [] ∧ (∀ c ∈ padInteger 0 value, isWhitespace c = false) ∧
    parseI64 (padInteger 0 value) = some value ∧
    ∃ x, parseNumber (padInteger 0 value) = some x ∧ toInteger x = some value := by
  obtain ⟨digits,read⟩ := decimalDigits value.natAbs
  have whole : padInteger 0 value = (if value < 0 then ['-'] else []) ++ decimalText value.natAbs := by
    simp [padInteger]
  obtain ⟨x,parsed,number⟩ := parseNumberDigits (decide (value < 0)) digits (by rw [read]; exact small)
  rw [whole]
  refine ⟨?_,?_,?_,x,?_,?_⟩
  · exact List.append_ne_nil_of_right_ne_nil _ digits.1
  · intro c among
    rcases List.mem_append.mp among with sign | digit
    · split at sign
      · rw [List.mem_singleton.mp sign]; decide
      · cases sign
    · exact (digitPlain (digits.2 c digit)).1
  · have parsed : signedInteger true ((if value < 0 then ['-'] else []) ++ decimalText value.natAbs) = some value := by
      split
      · rw [List.singleton_append,signedInteger,if_pos rfl,readDigits,if_pos digits,read]
        simp only [Option.map_some,Option.some.injEq,Int.ofNat_eq_natCast]
        omega
      · rw [List.nil_append,signedDigits digits,read]
        simp only [Option.some.injEq]
        omega
    rw [parseI64,parseInteger,parsed]
    simp only [Option.filter]
    rw [if_pos (by simp only [decide_eq_true_eq]; omega)]
  · simpa using parsed
  · rw [number,read]
    congr 1
    by_cases negative : value < 0
    · simp only [negative,decide_true,if_true]; omega
    · simp only [negative,decide_false,Bool.false_eq_true,if_false]; omega

theorem fixedPlain (width n) : ∀ c ∈ fixedText width n, isWhitespace c = false ∧ c ≠ ':' := by
  intro c among
  obtain ⟨d,inside,rfl⟩ := List.mem_map.mp among
  exact digitPlain (digitCharFacts (placesBelow width n d inside)).1

/-- A padded field, and what the two parsers read from it. -/
theorem printedField {value} (low : 0 ≤ value) (high : value ≤ 99) :
    fixedText 2 value.toNat ≠ [] ∧ parseI64 (fixedText 2 value.toNat) = some value ∧
    ∃ x, parseNumber (fixedText 2 value.toNat) = some x ∧ toInteger x = some value := by
  obtain ⟨formed,read⟩ : Digits 2 0 99 (fixedText 2 value.toNat) ∧ _ := fixedFormed (by decide) (by omega) (by omega)
  obtain ⟨field,value_,_⟩ := formedField formed
  obtain ⟨x,parsed,number⟩ := parseNumberDigits false formed.2.1 (by omega)
  refine ⟨formed.2.1.1,?_,x,parsed,?_⟩
  · rw [fieldRead field.2,value_,read]
  · rw [number]
    simp only [Bool.false_eq_true,if_false,read]

section
variable (time : Int)

theorem clockWord : clockText time ≠ [] ∧ ∀ c ∈ clockText time, isWhitespace c = false := by
  rw [clockPrinted]
  refine ⟨List.append_ne_nil_of_right_ne_nil _ (List.cons_ne_nil _ _),?_⟩
  intro c among
  have colon : isWhitespace ':' = false := by decide
  rcases List.mem_append.mp among with hour | among
  · exact (fixedPlain _ _ c hour).1
  rcases List.mem_cons.mp among with rfl | among
  · exact colon
  rcases List.mem_append.mp among with minute | among
  · exact (fixedPlain _ _ c minute).1
  rcases List.mem_cons.mp among with rfl | second
  · exact colon
  · exact (fixedPlain _ _ c second).1

theorem clockSum : hourFromTime time * msPerHour + minFromTime time * msPerMinute + secFromTime time * msPerSecond =
    timeWithinDay time - msFromTime time := by
  have whole := makeTimeFields time
  rw [makeTime] at whole
  omega

theorem printedClockReads : printedClock (clockText time) = .ok (some (timeWithinDay time - msFromTime time)) := by
  obtain ⟨hour,minute,second,millisecond⟩ := clockBounds time
  obtain ⟨_,_,h,hours,hourValue⟩ := printedField hour.1 (show hourFromTime time ≤ 99 by omega)
  obtain ⟨_,_,m,minutes,minuteValue⟩ := printedField minute.1 (show minFromTime time ≤ 99 by omega)
  obtain ⟨_,_,s,seconds,secondValue⟩ := printedField second.1 (show secFromTime time ≤ 99 by omega)
  have colonless : ∀ value : Int, ∀ c ∈ fixedText 2 value.toNat, (c == ':') = false := fun value c among => by
    simpa using (fixedPlain _ _ c among).2
  have pieces : (clockText time).splitOn ':' = [fixedText 2 (hourFromTime time).toNat,
      fixedText 2 (minFromTime time).toNat,fixedText 2 (secFromTime time).toNat] := by
    rw [clockPrinted,List.splitOn,List.splitOnP_append_cons_of_forall_mem (colonless _) ':' (by decide),
      List.splitOnP_append_cons_of_forall_mem (colonless _) ':' (by decide),List.splitOnP_eq_singleton (colonless _)]
  have sum : makeTimeOf h m s = some (timeWithinDay time - msFromTime time) := by
    have total := clockSum time
    simp only [msPerHour,msPerMinute,msPerSecond] at total
    simp only [makeTimeOf,hourValue,minuteValue,secondValue,Option.bind_eq_bind,Option.bind_some,msPerHour,msPerMinute,
      msPerSecond]
    rw [roundedSmall (by omega),Option.bind_some,roundedSmall (by omega),Option.bind_some,roundedSmall (by omega),
      Option.bind_some,roundedSmall (by omega),Option.bind_some,roundedSmall (by omega),total]
  rw [printedClock,pieces]
  simp only [hours,minutes,seconds,orAbsent,bind,Except.bind,sum]

end

theorem makeDateOfFields {time} (near : time.natAbs ≤ 8640000100000000) :
    makeDateOf (makeDay (yearFromTime time) (monthFromTime time) (dateFromTime time))
      (some (timeWithinDay time - msFromTime time)) = some (time - msFromTime time) := by
  have years := yearNear near
  have whole := dayAndWithin time
  have within_ : 0 ≤ timeWithinDay time ∧ timeWithinDay time < 86400000 := by
    simp only [timeWithinDay,msPerDay]
    omega
  obtain ⟨_,_,_,millisecond⟩ := clockBounds time
  rw [makeDayFields (abs_le.mpr ⟨by omega,by omega⟩),makeDateOf]
  simp only [Option.bind_eq_bind,Option.bind_some]
  rw [roundedSmall (by omega),Option.bind_some,roundedSmall (by omega)]
  congr 1
  omega

theorem clipSecond {time} (bounded : |time| ≤ maxTimeValue) :
    timeClip (some (time - msFromTime time)) = some (time - msFromTime time) := by
  have inside : |time - msFromTime time| ≤ maxTimeValue := by
    obtain ⟨low,high⟩ := abs_le.mp bounded
    simp only [msFromTime,timeWithinDay,msPerDay,maxTimeValue] at *
    exact abs_le.mpr ⟨by omega,by omega⟩
  simp only [timeClip,Option.filter,inside,decide_true,if_true]

theorem lettersBegin {name rest : Text} (some_ : name ≠ [])
    (letters : ∀ c ∈ name, isWhitespace c = false ∧ c ≠ ',' ∧ c ≠ '+' ∧ c ≠ '-' ∧ isDecimal c = false) (zone) :
    parseIso (name ++ rest) zone = .error .absent := by
  cases name with
  | nil => exact absurd rfl some_
  | cons c name =>
    obtain ⟨_,_,plus,minus,digit⟩ := letters c List.mem_cons_self
    exact isoLetter plus minus digit zone

section
variable {time : Int}

theorem utcRoundTrip (bounded : |time| ≤ maxTimeValue) (zone) :
    parseIso (utcString time) zone = .error .absent ∧
    parseUtcOutput (utcString time) = .ok (some (time - msFromTime time)) := by
  have years := yearBounded bounded
  have dates := dateBelow time
  obtain ⟨low,high,_,_⟩ := monthFromTimeIn time
  obtain ⟨weekday,letters⟩ := weekdayName time
  obtain ⟨monthSome,monthPlain,monthFound⟩ := monthName low high
  obtain ⟨dateSome,dateParsed,_⟩ := printedField (show 0 ≤ dateFromTime time by omega) (by omega)
  obtain ⟨yearSome,yearPlain,yearParsed,_⟩ := printedInteger (show (yearFromTime time).natAbs < 2^53 by omega)
  obtain ⟨clockSome,clockPlain⟩ := clockWord time
  have printed : utcString time = weekdays.getD (weekDay time).toNat [] ++ (", ".toList ++
      (fixedText 2 (dateFromTime time).toNat ++ ' ' :: (months.getD (monthFromTime time).toNat [] ++
        ' ' :: (padInteger 0 (yearFromTime time) ++ ' ' :: (clockText time ++ ' ' :: "GMT".toList))))) := by
    rw [utcString,padField (by decide) (by omega) (by omega)]
    simp only [List.append_assoc,List.cons_append]
    rfl
  have comma : ',' ∉ weekdays.getD (weekDay time).toNat [] := fun among => (letters _ among).2.1 rfl
  rw [printed]
  refine ⟨lettersBegin weekday letters zone,?_⟩
  rw [parseUtcOutput,show ", ".toList = [',',' '] by rfl,splitOnceFirst _ comma]
  simp only [orAbsent,bind,Except.bind]
  rw [splitWord dateSome (fun c among => (fixedPlain _ _ c among).1),splitWord monthSome monthPlain,
    splitWord yearSome yearPlain,splitWord clockSome clockPlain,splitLastWord (by decide) (List.forall_iff_forall_mem.mp (by decide))]
  simp only [ne_eq,not_true_eq_false,if_false,dateParsed,monthFound,yearParsed,printedClockReads,
    makeDateOfFields (show time.natAbs ≤ 8640000100000000 by
      rw [Int.abs_eq_natAbs,maxTimeValue] at bounded; omega),clipSecond bounded]

end

/-- The printed local form ends with a parenthesis, no UTC form does. -/
theorem utcClosed (text) : parseUtcOutput (text ++ [')']) = .error .absent := by
  rw [parseUtcOutput]
  cases found : splitOnce ", ".toList (text ++ [')']) with
  | none => rfl
  | some parts =>
    have joined : text ++ [')'] = parts.1 ++ (", ".toList ++ parts.2) := splitOnceJoins found
    have ends : ∃ front, parts.2 = front ++ [')'] := by
      rcases List.eq_nil_or_concat parts.2 with none_ | ⟨front,last,same⟩
      · rw [none_,List.append_nil,show ", ".toList = [','] ++ [' '] by rfl,← List.append_assoc] at joined
        exact absurd (List.append_inj' joined rfl).2 (by decide)
      · rw [same,List.concat_eq_append,← List.append_assoc,← List.append_assoc] at joined
        refine ⟨front,?_⟩
        rw [same,List.concat_eq_append,(List.append_inj' joined rfl).2]
    obtain ⟨front,ends⟩ := ends
    obtain ⟨words,last,split_⟩ := lastWordEnds front (show isWhitespace ')' = false by decide)
    simp only [orAbsent,bind,Except.bind,ends,split_]
    split
    · rename_i date month year clock zone same
      have final : last ++ [')'] = zone := by
        have := congrArg List.getLast? same
        simpa using this
      have other : zone ≠ "GMT".toList := by
        intro gmt
        rw [← final,show "GMT".toList = ['G','M'] ++ ['T'] by rfl] at gmt
        exact absurd (List.append_inj' gmt rfl).2 (by decide)
      rw [if_pos other]
    · rfl

/-- Every offset is a whole number of minutes shorter than a day. -/
def TimeZoneRule.WholeMinutes (zone : TimeZoneRule) : Prop :=
  ∀ offset, zone.Offset offset → offset % 60 = 0 ∧ |offset| < 86400

section
variable {time : Int} {zone : TimeZoneRule}

theorem offsetPieces {offset} (minutes : offset % 60 = 0) (short : |offset| < 86400) :
    ∃ sign hours minutes, offsetText offset = "GMT".toList ++ (sign :: (hours ++ minutes)) ∧
      (∀ c ∈ sign :: (hours ++ minutes), isWhitespace c = false) ∧
      (ZoneText.offset sign hours minutes).Accepted ∧
      signValue sign * (fieldValue hours * 3600 + fieldValue minutes * 60) = offset := by
  rw [Int.abs_eq_natAbs] at short
  have hour : (0 : Int) ≤ (offset.natAbs/3600 : Nat) ∧ ((offset.natAbs/3600 : Nat) : Int) ≤ 23 := by omega
  have minute : (0 : Int) ≤ (offset.natAbs%3600/60 : Nat) ∧ ((offset.natAbs%3600/60 : Nat) : Int) ≤ 59 := by omega
  obtain ⟨hours,hoursValue⟩ : Digits 2 0 23 (fixedText 2 (offset.natAbs/3600 : Nat)) ∧
      (digitsOf (fixedText 2 (offset.natAbs/3600 : Nat)) : Int) = _ := @fixedFormed 2 0 23 (offset.natAbs/3600 : Nat) (by decide) (by omega) hour
  obtain ⟨minutes_,minutesValue⟩ : Digits 2 0 59 (fixedText 2 (offset.natAbs%3600/60 : Nat)) ∧
      (digitsOf (fixedText 2 (offset.natAbs%3600/60 : Nat)) : Int) = _ :=
    @fixedFormed 2 0 59 (offset.natAbs%3600/60 : Nat) (by decide) (by omega) minute
  obtain ⟨hoursField,hoursRead,_⟩ := formedField hours
  obtain ⟨minutesField,minutesRead,_⟩ := formedField minutes_
  refine ⟨if offset < 0 then '-' else '+',fixedText 2 (offset.natAbs/3600 : Nat),fixedText 2 (offset.natAbs%3600/60 : Nat),?_,?_,
    ⟨?_,hoursField,minutesField,by omega,by omega⟩,?_⟩
  · unfold offsetText
    rw [padFixed (by decide) (by omega),padFixed (by decide) (by omega),List.append_assoc]
    rfl
  · intro c among
    rcases List.mem_cons.mp among with rfl | among
    · split <;> decide
    · rcases List.mem_append.mp among with first | second
      · exact (fixedPlain _ _ c first).1
      · exact (fixedPlain _ _ c second).1
  · split
    · exact .inr rfl
    · exact .inl rfl
  · rw [hoursRead,minutesRead,hoursValue,minutesValue,signValue]
    by_cases negative : offset < 0
    · rw [if_pos negative,if_pos rfl]; omega
    · rw [if_neg negative,if_neg (by decide)]; omega

theorem offsetWord {offset} (minutes : offset % 60 = 0) (short : |offset| < 86400) {local_} (small : local_.natAbs < 2^53-2^42) :
    offsetText offset ≠ [] ∧ (∀ c ∈ offsetText offset, isWhitespace c = false) ∧
    "GMT".toList.isPrefixOf (offsetText offset) = true ∧
    localOffset zone (offsetText offset) (some local_) = .ok (timeClip (some (local_ - offset*msPerSecond))) := by
  obtain ⟨sign,hours,minutes,printed,plain,accepted,value⟩ := offsetPieces minutes short
  obtain ⟨signed,hoursField,minutesField,_⟩ := accepted
  have head : size (sign :: hours) = 3 := by rw [sizeCons,(signSize signed).1,hoursField.1]
  have tail : cutFrom (offsetText offset) 3 = .ok (sign :: (hours ++ minutes)) := by
    rw [printed]
    exact orPanicOk.mpr (dropBytesAt "GMT".toList _)
  have whole : size (sign :: (hours ++ minutes)) = 5 := by
    rw [← List.cons_append,sizeAppend,head,minutesField.1]
  have first : cut (sign :: (hours ++ minutes)) 0 3 = .ok (sign :: hours) :=
    orPanicOk.mpr (sliceStartIff.mpr ⟨minutes,rfl,head⟩)
  have second : cutFrom (sign :: (hours ++ minutes)) 3 = .ok minutes := by
    have drop := dropBytesAt (sign :: hours) minutes
    rw [head] at drop
    exact orPanicOk.mpr drop
  have read : parseIsoOffset (sign :: hours ++ ':' :: minutes) = .ok offset := by
    rw [← value]
    exact offsetReads ⟨signed,hoursField,minutesField,by assumption⟩
  refine ⟨?_,?_,?_,?_⟩
  · rw [printed]
    exact List.cons_ne_nil _ _
  · rw [printed]
    intro c among
    rcases List.mem_append.mp among with gmt | rest
    · have letters : ∀ c ∈ "GMT".toList, isWhitespace c = false := List.forall_iff_forall_mem.mp (by decide)
      exact letters c gmt
    · exact plain c rest
  · rw [printed]
    exact List.isPrefixOf_iff_prefix.mpr (List.prefix_append _ _)
  · rw [Int.abs_eq_natAbs] at short
    rw [localOffset,tail]
    simp only [bind,Except.bind]
    rw [if_pos whole,first]
    simp only [second,read,Option.bind_some]
    rw [roundedSmall (by simp only [msPerSecond]; omega)]

theorem localRoundTrip (bounded : |time| ≤ maxTimeValue) (minutes : zone.WholeMinutes) :
    parseIso (dateString time zone .full) zone = .error .absent ∧
    parseUtcOutput (dateString time zone .full) = .error .absent ∧
    parseLocalOutput (dateString time zone .full) zone = .ok (some (time - msFromTime time)) := by
  obtain ⟨whole,short⟩ := minutes _ (zone.offsetAtUtcOffset time)
  have local_ : zone.localTime time = time + zone.offsetAtUtc time * msPerSecond := rfl
  rw [Int.abs_eq_natAbs] at short
  have near : (zone.localTime time).natAbs ≤ 8640000100000000 := by
    rw [Int.abs_eq_natAbs,maxTimeValue] at bounded
    rw [local_,msPerSecond]
    omega
  have same : zone.localTime time - msFromTime (zone.localTime time) - zone.offsetAtUtc time * msPerSecond =
      time - msFromTime time := by
    simp only [local_,msFromTime,timeWithinDay,msPerDay,msPerSecond]
    omega
  have years := yearNear near
  have dates := dateBelow (zone.localTime time)
  obtain ⟨low,high,_,_⟩ := monthFromTimeIn (zone.localTime time)
  obtain ⟨weekday,letters⟩ := weekdayName (zone.localTime time)
  obtain ⟨monthSome,monthPlain,monthFound⟩ := monthName low high
  obtain ⟨dateSome,_,dateNumber,dateParsed,dateValue⟩ :=
    printedField (show 0 ≤ dateFromTime (zone.localTime time) by omega) (by omega)
  obtain ⟨yearSome,yearPlain,_,yearNumber,yearParsed,yearValue⟩ :=
    printedInteger (show (yearFromTime (zone.localTime time)).natAbs < 2^53 by omega)
  obtain ⟨clockSome,clockPlain⟩ := clockWord (zone.localTime time)
  obtain ⟨_,_,_,millisecond⟩ := clockBounds (zone.localTime time)
  have small : (zone.localTime time - msFromTime (zone.localTime time)).natAbs < 2^53-2^42 := by omega
  obtain ⟨wordSome,wordPlain,gmt,applied⟩ : _ ∧ _ ∧ _ ∧ localOffset zone _ _ = _ :=
    offsetWord whole (by rw [Int.abs_eq_natAbs]; exact short) small
  have printed : dateString time zone .full = weekdays.getD (weekDay (zone.localTime time)).toNat [] ++
      ' ' :: (months.getD (monthFromTime (zone.localTime time)).toNat [] ++
      ' ' :: (fixedText 2 (dateFromTime (zone.localTime time)).toNat ++
      ' ' :: (padInteger 0 (yearFromTime (zone.localTime time)) ++ ' ' :: (clockText (zone.localTime time) ++
      ' ' :: (offsetText (zone.offsetAtUtc time) ++ ' ' :: ('(' :: zone.nameAtUtc time ++ [')'])))))) := by
    rw [dateString,padField (by decide) (by omega) (by omega)]
    simp only [List.append_assoc,List.cons_append]
    rfl
  rw [printed]
  refine ⟨lettersBegin weekday letters zone,?_,?_⟩
  · simp only [← List.append_assoc,← List.cons_append]
    exact utcClosed _
  · rw [parseLocalOutput,splitWord weekday (fun c among => (letters c among).1),splitWord monthSome monthPlain,
      splitWord dateSome (fun c among => (fixedPlain _ _ c among).1),splitWord yearSome yearPlain,
      splitWord clockSome clockPlain,splitWord wordSome wordPlain]
    simp only [gmt,Bool.true_eq_false,if_false,orAbsent,bind,Except.bind,monthFound,dateParsed,yearParsed,printedClockReads]
    have fields : (Option.bind (toInteger yearNumber) fun year => Option.bind (toInteger dateNumber) fun date =>
        makeDay year (monthFromTime (zone.localTime time)) date) = makeDay (yearFromTime (zone.localTime time))
          (monthFromTime (zone.localTime time)) (dateFromTime (zone.localTime time)) := by
      rw [yearValue,dateValue]
      rfl
    rw [fields,makeDateOfFields near,applied,same,clipSecond bounded]

/-- Every printed form of a time value is read back. -/
theorem dateTextRoundTrip (time : Int) (zone : TimeZoneRule) (bounded : |time| ≤ maxTimeValue)
    (minutes : zone.WholeMinutes) :
    (∃ text, isoString time = some text ∧ parseDateText text zone = .ok (some time)) ∧
    parseDateText (utcString time) zone = .ok (some (time - msFromTime time)) ∧
    parseDateText (dateString time zone .full) zone = .ok (some (time - msFromTime time)) := by
  refine ⟨⟨(isoPieces time).text,isoStringPieces bounded,?_⟩,?_,?_⟩
  · rw [parseDateText,isoRoundTrip bounded zone]
    rfl
  · obtain ⟨iso,utc⟩ := utcRoundTrip bounded zone
    rw [parseDateText,iso,utc]
    rfl
  · obtain ⟨iso,utc,local_⟩ := localRoundTrip bounded minutes
    rw [parseDateText,iso,utc,local_]
    rfl

theorem dateTextRoundTripWest :
    (∃ text, isoString (-1) = some text ∧
      parseDateText text (.fixed ⟨-18000,by decide⟩ "EST".toList) = .ok (some (-1))) ∧
    parseDateText (utcString (-1)) (.fixed ⟨-18000,by decide⟩ "EST".toList) = .ok (some (-1 - msFromTime (-1))) ∧
    parseDateText (dateString (-1) (.fixed ⟨-18000,by decide⟩ "EST".toList) .full)
      (.fixed ⟨-18000,by decide⟩ "EST".toList) = .ok (some (-1 - msFromTime (-1))) :=
  dateTextRoundTrip (-1) (.fixed ⟨-18000,by decide⟩ "EST".toList) (by decide) (by
    intro offset only
    rw [show offset = -18000 from only]
    decide)

end

end Bamts.Date
