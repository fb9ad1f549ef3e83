import Bamts.DateFormat

/-! Where reading a date text panics: slices that end inside a character, and daylight rules applied
to local times too far out for the year search. -/
set_option linter.all false
namespace Bamts.Date
open ByteText Outcome

/-- A run that does not panic. -/
def Calm {α : Type} (run : Run α) : Prop := run ≠ .error .panic

section
variable {α β : Type}

theorem calmOk (a) : Calm (.ok a : Run α) := by
  intro h
  cases h

theorem calmAbsent : Calm (.error .absent : Run α) := by
  intro h
  cases h

theorem calmBind {run} {next : α → Run β} (first : Calm run) (rest : ∀ a, run = .ok a → Calm (next a)) :
    Calm (run >>= next) := by
  intro h
  rcases bindError.mp h with panic | ⟨a,ran,panic⟩
  · exact first panic
  · exact rest a ran panic

theorem calmOrAbsent (value : Option α) : Calm (orAbsent value) := by
  cases value with
  | none => exact calmAbsent
  | some a => exact calmOk a

theorem calmOrPanic {value : Option α} (some_ : value.isSome) : Calm (orPanic value) := by
  obtain ⟨a,found⟩ := Option.isSome_iff_exists.mp some_
  rw [found]
  exact calmOk a

theorem panicOrPanic {value : Option α} : orPanic value = .error .panic ↔ value = none := by
  cases value <;> simp [orPanic]

end

/-- An offset that falls between characters, or right at the end. -/
def Boundary (text : Text) (offset : Nat) : Prop := ∃ before after, text = before ++ after ∧ size before = offset

theorem boundaryDrop {text offset} : (dropBytes offset text).isSome ↔ Boundary text offset := by
  rw [Option.isSome_iff_exists]
  constructor
  · intro h
    obtain ⟨after,found⟩ := h
    obtain ⟨before,same,long⟩ := dropBytesIff.mp found
    exact ⟨before,after,same,long⟩
  · intro h
    obtain ⟨before,after,same,long⟩ := h
    exact ⟨after,dropBytesIff.mpr ⟨before,same,long⟩⟩

theorem boundarySlice {text offset} : (slice text 0 offset).isSome ↔ Boundary text offset := by
  rw [Option.isSome_iff_exists]
  constructor
  · intro h
    obtain ⟨before,found⟩ := h
    obtain ⟨after,same,long⟩ := sliceStartIff.mp found
    exact ⟨before,after,same,long⟩
  · intro h
    obtain ⟨before,after,same,long⟩ := h
    exact ⟨before,sliceStartIff.mpr ⟨after,same,long⟩⟩

/-- The sign, the colon and the length leave both slices of an offset between characters. -/
theorem offsetCalm (text) : Calm (parseIsoOffset text) := by
  rw [parseIsoOffset]
  split
  · exact calmOk _
  split
  · exact calmAbsent
  rename_i shape
  obtain ⟨long,shape⟩ := not_or.mp shape
  obtain ⟨head,colon⟩ := not_or.mp shape
  rw [not_not] at long head colon
  obtain ⟨sign,inner,rfl,signed⟩ : ∃ sign inner, text = sign :: inner ∧ (sign = '+' ∨ sign = '-') := signedHead head
  obtain ⟨rest,three⟩ : ∃ rest, At (sign :: inner) 3 (':' :: rest) := by
    obtain ⟨tail,found,mark⟩ := Option.bind_eq_some_iff.mp colon
    obtain ⟨rest,rfl⟩ := List.head?_eq_some_iff.mp mark
    exact ⟨rest,found⟩
  obtain ⟨before,same,width⟩ := three.splits
  cases before with
  | nil => cases width
  | cons other hours =>
    have first : sign = other := (List.cons.inj same).1
    have later : inner = hours ++ ':' :: rest := (List.cons.inj same).2
    subst first later
    have colon_ : ':'.utf8Size = 1 := by decide
    have signWidth := (signSize signed).1
    have hoursLong : size hours = 2 := by
      rw [sizeCons,signWidth] at width
      omega
    have minutesLong : size rest = 2 := by
      simp only [sizeCons,sizeAppend,signWidth,colon_,hoursLong] at long
      omega
    obtain ⟨_,_,first,second⟩ := offsetPlaces signed hoursLong minutesLong
    rw [first,second]
    refine calmBind (calmOk _) fun hours _ => calmBind (calmOrAbsent _) fun _ _ => ?_
    refine calmBind (calmOk _) fun minutes _ => calmBind (calmOrAbsent _) fun _ _ => ?_
    split
    · exact calmAbsent
    · exact calmOk _

section
variable {text rest : Text} {cursor : Nat} {zone : TimeZoneRule}

theorem utcTimeCalm {local_} (finite : local_.natAbs < 2^58) : Calm (utcTimeOf zone (some local_)) := by
  obtain ⟨utc,run,_⟩ := zone.checkedUtcClip finite
  exact calmOrPanic (by rw [run]; rfl)

theorem zoneCalm {local_} (at_ : At text cursor rest) (finite : local_.natAbs < 2^58) :
    Calm (isoZone text cursor zone (some local_)) := by
  rw [isoZone]
  split
  · exact utcTimeCalm finite
  · refine calmBind (calmOrPanic (by rw [show dropBytes cursor text = some rest from at_]; rfl)) fun tail _ => ?_
    split
    · exact calmOk _
    · exact calmBind (offsetCalm tail) fun offset _ => calmOk _

theorem twoBytesCalm : Calm (twoBytes text cursor) :=
  calmBind (calmOrAbsent _) fun _ _ => calmOrAbsent _

theorem yearCalm : Calm (isoYearField text) := by
  rw [isoYearField]
  split
  · exact calmBind (calmOrAbsent _) fun _ _ => calmBind (calmOrAbsent _) fun _ _ => calmOk _
  · exact calmBind (calmOrAbsent _) fun _ _ => calmBind (calmOrAbsent _) fun _ _ => calmOk _

theorem dayCalm : Calm (isoDateFields text cursor) := by
  rw [isoDateFields]
  split
  · split
    · exact calmAbsent
    · refine calmBind twoBytesCalm fun month _ => ?_
      split
      · exact calmBind twoBytesCalm fun _ _ => calmOk _
      · exact calmOk _
  · exact calmOk _

theorem isoCalm (text zone) : Calm (parseIso text zone) := by
  refine calmBind yearCalm fun yearRun parsed => ?_
  split
  · exact calmAbsent
  rename_i zero
  obtain ⟨sign,year,rest,rfl,yearAccepted⟩ := yearRead parsed zero
  have same : isoYearField (sign.toList ++ year ++ rest) = _ := yearReads yearAccepted
  rw [parsed] at same
  cases same
  have dayAt : At (sign.toList ++ year ++ rest) (size (sign.toList ++ year)) rest := dropBytesAt _ _
  refine calmBind dayCalm fun fields parsed => ?_
  obtain ⟨day,tail,rfl,dayFields,alone,rfl,tailAt⟩ := dayRead dayAt parsed
  simp only []
  split
  · exact calmAbsent
  rename_i inRange
  have range : (1 ≤ day.monthValue ∧ day.monthValue ≤ 12) ∧
      (1 ≤ day.dateValue ∧ day.dateValue ≤ daysInMonth (sign.elim 1 signValue * fieldValue year) day.monthValue) :=
    ⟨not_not.mp (not_or.mp inRange).1,not_not.mp (not_or.mp inRange).2⟩
  split
  · exact calmOk _
  split
  · exact calmAbsent
  rename_i mark
  rw [tailAt.char,not_not] at mark
  obtain ⟨inner,rfl⟩ := List.head?_eq_some_iff.mp mark
  obtain ⟨midnight,begins,finite,whole⟩ : ∃ midnight, (IsoText.mk sign year day none).midnight = some midnight ∧
      midnight.natAbs < 2^57 ∧ midnight % msPerDay = 0 := midnightWhole yearAccepted range
  have dateMs : makeDate (makeDay (sign.elim 1 signValue * fieldValue year) (day.monthValue-1) day.dateValue) 0 =
      some midnight := begins
  rw [dateMs]
  obtain refused | ⟨hours,minutes,seconds,fraction,tail,_,rfl,_,small,zoneAt,run⟩ : isoClock _ _ zone _ = _ ∨ _ :=
    clockSteps (tailAt.next (by decide)) finite whole
  · rw [refused]
    exact calmAbsent
  · rw [run]
    exact calmBind (zoneCalm zoneAt small) fun _ _ => calmOk _

theorem clockCalm (text) : Calm (printedClock text) := by
  rw [printedClock]
  split
  · exact calmBind (calmOrAbsent _) fun _ _ => calmBind (calmOrAbsent _) fun _ _ =>
      calmBind (calmOrAbsent _) fun _ _ => calmOk _
  · exact calmAbsent

theorem utcCalm (text) : Calm (parseUtcOutput text) := by
  refine calmBind (calmOrAbsent _) fun parts _ => ?_
  split
  · split
    · exact calmAbsent
    · exact calmBind (calmOrAbsent _) fun _ _ => calmBind (calmOrAbsent _) fun _ _ =>
        calmBind (calmOrAbsent _) fun _ _ => calmBind (clockCalm _) fun _ _ => calmOk _
  · exact calmAbsent

theorem makeDayBounded {year month date value} (made : makeDay year month date = some value) : value.natAbs < 2^30 := by
  rw [makeDay] at made
  split at made
  · rename_i bounds
    obtain ⟨years,months,dates⟩ := bounds
    rw [abs_le] at years months dates
    cases made
    have before : 0 ≤ daysBefore (year+month/12) (month%12) ∧ daysBefore (year+month/12) (month%12) ≤ 366 :=
      daysBeforeBounds (year+month/12) (by omega) (by omega)
    have begins := dayFromYearValue (year+month/12)
    omega
  · cases made

theorem slashCalm (text zone) : Calm (parseLegacySlash text zone) := by
  rw [parseLegacySlash]
  split
  · refine calmBind (calmOrAbsent _) fun month _ => calmBind (calmOrAbsent _) fun date _ => calmBind (calmOrAbsent _) fun year _ => ?_
    split
    · exact calmAbsent
    simp only []
    generalize (if 0 ≤ year ∧ year ≤ 99 then if year ≤ 49 then year+2000 else year+1900 else year) = full
    split
    · exact calmAbsent
    refine calmBind ?_ fun _ _ => calmOk _
    cases made : makeDay full (month-1) date with
    | none => exact calmOk _
    | some value =>
      have small := makeDayBounded made
      exact utcTimeCalm (by simp only [msPerDay]; omega)
  · exact calmAbsent

end

section
variable {text offset : Text} {local_ : Option Int} {zone : TimeZoneRule}

/-- The words of a local text; the sixth is `GMT` with an offset after it. -/
structure LocalWords where
  name : Text
  month : Text
  date : Text
  year : Text
  clock : Text
  offset : Text
  rest : List Text

def LocalWords.words (w : LocalWords) : List Text :=
  w.name :: w.month :: w.date :: w.year :: w.clock :: ("GMT".toList ++ w.offset) :: w.rest

/-- What the words before the offset say. -/
def LocalWords.Read (w : LocalWords) (local_ : Option Int) : Prop :=
  ∃ month date year time, position w.month = some month ∧ parseNumber w.date = some date ∧
    parseNumber w.year = some year ∧ printedClock w.clock = .ok time ∧
    local_ = makeDateOf ((toInteger year).bind fun year => (toInteger date).bind fun date => makeDay year month date) time

theorem localPanics : localOffset zone ("GMT".toList ++ offset) local_ = .error .panic ↔
    size offset = 5 ∧ ¬Boundary offset 3 ∨ size offset ≠ 5 ∧ ∃ ms, local_ = some ms ∧ zone.Far ms := by
  have past : cutFrom ("GMT".toList ++ offset) 3 = .ok offset := by
    have dropped : dropBytes 3 ("GMT".toList ++ offset) = some offset := dropBytesAt "GMT".toList offset
    rw [cutFrom,dropped]
    rfl
  rw [localOffset,past]
  change (if size offset = 5 then _ else _) = _ ↔ _
  by_cases five : size offset = 5
  · rw [if_pos five]
    by_cases fits : Boundary offset 3
    · refine iff_of_false ?_ fun h => h.elim (fun cut_ => cut_.2 fits) fun far => far.1 five
      exact calmBind (calmOrPanic (boundarySlice.mpr fits)) fun _ _ => calmBind (calmOrPanic (boundaryDrop.mpr fits)) fun _ _ =>
        calmBind (offsetCalm _) fun _ _ => calmOk _
    · refine iff_of_true ?_ (.inl ⟨five,fits⟩)
      have none_ : cut offset 0 3 = .error .panic := by
        rw [cut,panicOrPanic]
        exact Option.not_isSome_iff_eq_none.mp fun some_ => fits (boundarySlice.mp some_)
      rw [none_]
      rfl
  · rw [if_neg five]
    have only : (utcTimeOf zone local_ >>= fun utc => (.ok (timeClip utc) : Run (Option Int))) = .error .panic ↔
        utcTimeOf zone local_ = .error .panic := by
      cases utcTimeOf zone local_ with
      | ok utc => exact iff_of_false (calmOk _) (calmOk _)
      | error halt => exact Iff.rfl
    rw [only,utcTimeOf,panicOrPanic]
    cases local_ with
    | none => simp [five,TimeZoneRule.checkedUtcTime]
    | some ms => simp [five,zone.checkedUtcIff]

/-- The words an offset of the local form is read from, and the date and clock before it. -/
def LocalForm (text offset : Text) (local_ : Option Int) : Prop :=
  ∃ w : LocalWords, splitWhitespace text = w.words ∧ w.offset = offset ∧ w.Read local_

theorem localOutputPanics : parseLocalOutput text zone = .error .panic ↔
    ∃ offset local_, LocalForm text offset local_ ∧ localOffset zone ("GMT".toList ++ offset) local_ = .error .panic := by
  constructor
  · intro run
    unfold parseLocalOutput at run
    split at run
    · rename_i name month date year clock word rest split_
      split at run
      · cases run
      rename_i leads
      obtain ⟨offset,rfl⟩ := List.isPrefixOf_iff_prefix.mp (Bool.not_eq_false _ ▸ leads)
      obtain bad | ⟨m,monthRead,run⟩ := bindError.mp run
      · exact absurd bad (calmOrAbsent _)
      obtain bad | ⟨d,dateRead,run⟩ := bindError.mp run
      · exact absurd bad (calmOrAbsent _)
      obtain bad | ⟨y,yearRead_,run⟩ := bindError.mp run
      · exact absurd bad (calmOrAbsent _)
      obtain bad | ⟨t,clockRead_,run⟩ := bindError.mp run
      · exact absurd bad (clockCalm _)
      exact ⟨offset,_,⟨⟨name,month,date,year,clock,offset,rest⟩,split_,rfl,
        m,d,y,t,orAbsentOk.mp monthRead,orAbsentOk.mp dateRead,orAbsentOk.mp yearRead_,clockRead_,rfl⟩,run⟩
    · cases run
  · intro h
    obtain ⟨_,local_,⟨w,split_,rfl,m,d,y,t,monthRead,dateRead,yearRead_,clockRead_,rfl⟩,run⟩ := h
    have leads : "GMT".toList.isPrefixOf ("GMT".toList ++ w.offset) = true :=
      List.isPrefixOf_iff_prefix.mpr (List.prefix_append _ _)
    rw [parseLocalOutput,split_,LocalWords.words]
    simp only []
    rw [if_neg (by rw [leads]; decide),monthRead,dateRead,yearRead_,clockRead_]
    exact run

/-- A text in the printed UTC form. -/
def UtcForm (text : Text) : Prop :=
  ∃ head tail date month year clock time, splitOnce ", ".toList text = some (head,tail) ∧
    splitWhitespace tail = [date,month,year,clock,"GMT".toList] ∧ (parseI64 date).isSome ∧ (position month).isSome ∧
    (parseI64 year).isSome ∧ printedClock clock = .ok time

theorem utcOutputRuns : parseUtcOutput text = .error .absent ↔ ¬UtcForm text := by
  have runs : (∃ value, parseUtcOutput text = .ok value) ↔ UtcForm text := by
    constructor
    · intro h
      obtain ⟨value,run⟩ := h
      obtain ⟨⟨head,tail⟩,parts,run⟩ := bindOk.mp run
      split at run
      · rename_i date month year clock zone words
        split at run
        · cases run
        rename_i gmt
        obtain ⟨d,dateRead,run⟩ := bindOk.mp run
        obtain ⟨m,monthRead,run⟩ := bindOk.mp run
        obtain ⟨y,yearRead_,run⟩ := bindOk.mp run
        obtain ⟨t,clockRead_,_⟩ := bindOk.mp run
        rw [not_not.mp gmt] at words
        exact ⟨head,tail,date,month,year,clock,t,orAbsentOk.mp parts,words,by rw [orAbsentOk.mp dateRead]; rfl,
          by rw [orAbsentOk.mp monthRead]; rfl,by rw [orAbsentOk.mp yearRead_]; rfl,clockRead_⟩
      · cases run
    · intro h
      obtain ⟨head,tail,date,month,year,clock,time,parts,words,dateRead,monthRead,yearRead_,clockRead_⟩ := h
      obtain ⟨d,dateRead⟩ := Option.isSome_iff_exists.mp dateRead
      obtain ⟨m,monthRead⟩ := Option.isSome_iff_exists.mp monthRead
      obtain ⟨y,yearRead_⟩ := Option.isSome_iff_exists.mp yearRead_
      refine ⟨timeClip (makeDateOf (makeDay y m d) time),?_⟩
      rw [parseUtcOutput,parts]
      simp only [orAbsent,bind,Except.bind,words]
      rw [if_neg (not_not_intro rfl),dateRead,monthRead,yearRead_,clockRead_]
  have calm := utcCalm text
  rw [← runs]
  cases run : parseUtcOutput text with
  | ok value => simp
  | error halt =>
    cases halt with
    | panic => exact absurd run calm
    | absent => simp

end

/-- A text without blanks. -/
def Plain (text : Text) : Prop := ∀ c ∈ text, isWhitespace c = false

theorem plainAppend {a b} : Plain (a ++ b) ↔ Plain a ∧ Plain b := by
  simp only [Plain,List.mem_append,or_imp,forall_and]

theorem plainCons {c} {text : Text} : Plain (c :: text) ↔ isWhitespace c = false ∧ Plain text :=
  List.forall_mem_cons

theorem digitsPlain {text} (digits : IsDigits text) : Plain text := by
  intro c among
  obtain ⟨d,small,rfl,_⟩ := decimalIsDigit (digits.2 c among)
  have table : ∀ d : Fin 10, isWhitespace (digitChar d) = false := by decide
  exact table ⟨d,small⟩

theorem integerPlain {piece} (read : (parseI64 piece).isSome) : Plain piece := by
  obtain ⟨n,read⟩ := Option.isSome_iff_exists.mp read
  have some_ : signedInteger true piece = some n := (Option.filter_eq_some_iff.mp read).1
  have parsed : ∀ {digits : Text} {f : Nat → Int}, (readDigits digits).map f = some n → Plain digits := by
    intro digits f found
    rw [readDigits] at found
    split at found
    · rename_i digits
      exact digitsPlain digits
    · cases found
  unfold signedInteger at some_
  split at some_
  · exact plainCons.mpr ⟨by decide,parsed some_⟩
  · exact plainCons.mpr ⟨by decide,parsed some_⟩
  · exact parsed some_

theorem partPlain {mark piece} (black : isWhitespace mark = false) (inner : ∀ text, piece = some text → Plain text) : Plain (part mark piece) := by
  cases piece with
  | none => exact List.forall_mem_nil _
  | some text => exact plainCons.mpr ⟨black,inner text rfl⟩

theorem zonePlain {zone : ZoneText} (accepted : zone.Accepted) : Plain zone.text := by
  cases zone with
  | local_ => exact List.forall_mem_nil _
  | utc => exact plainCons.mpr ⟨by decide,List.forall_mem_nil _⟩
  | offset sign hours minutes =>
    obtain ⟨signed,hours,minutes,_⟩ := accepted
    refine plainCons.mpr ⟨?_,plainAppend.mpr ⟨integerPlain hours.2,plainCons.mpr ⟨by decide,integerPlain minutes.2⟩⟩⟩
    rcases signed with rfl | rfl
    · decide
    · decide

theorem clockPlain {clock : ClockText} (accepted : clock.Accepted) : Plain clock.text := by
  refine plainAppend.mpr ⟨integerPlain accepted.hours.2,plainCons.mpr ⟨by decide,?_⟩⟩
  refine plainAppend.mpr ⟨integerPlain accepted.minutes.2,plainAppend.mpr ⟨?_,plainAppend.mpr ⟨?_,zonePlain accepted.zone⟩⟩⟩
  · exact partPlain (by decide) fun text here => integerPlain (accepted.seconds text here).2
  · exact partPlain (by decide) fun text here => digitsPlain (accepted.fraction text here)

theorem isoPlain {iso : IsoText} (accepted : iso.Accepted) : Plain iso.text := by
  refine plainAppend.mpr ⟨?_,plainAppend.mpr ⟨?_,?_⟩⟩
  · have year := accepted.year
    cases sign : iso.sign with
    | none =>
      rw [sign] at year
      exact integerPlain year.2.2.2
    | some mark =>
      rw [sign] at year
      refine plainCons.mpr ⟨?_,integerPlain year.2.2.1⟩
      rcases year.1 with rfl | rfl
      · decide
      · decide
  · have day := accepted.day
    cases which : iso.day with
    | year => exact List.forall_mem_nil _
    | month mm =>
      rw [which] at day
      exact plainCons.mpr ⟨by decide,integerPlain day.2⟩
    | date mm dd =>
      rw [which] at day
      exact plainCons.mpr ⟨by decide,plainAppend.mpr ⟨integerPlain day.1.2,plainCons.mpr ⟨by decide,integerPlain day.2.2⟩⟩⟩
  · refine partPlain (by decide) fun text here => ?_
    obtain ⟨clock,found,rfl⟩ := Option.map_eq_some_iff.mp here
    exact clockPlain (accepted.clock clock found).2

/-- The words of a local form keep the text from being an ISO text. -/
theorem localNotIso {text offset local_ zone} (form : LocalForm text offset local_) :
    parseIso text zone = .error .absent := by
  cases run : parseIso text zone with
  | ok value =>
    obtain ⟨iso,rfl,accepted⟩ := isoRead run
    obtain ⟨w,words,_⟩ := form
    have only : (splitWhitespace iso.text).length ≤ 1 := by
      rw [splitWhitespace,List.splitOnP_eq_singleton (isoPlain accepted)]
      exact List.length_filter_le _ _
    rw [words] at only
    exact absurd only (by simp [LocalWords.words])
  | error halt =>
    cases halt with
    | panic => exact absurd run (isoCalm text zone)
    | absent => rfl

theorem orElsePanic {α} {first second : Run α} : orElse first second = .error .panic ↔
    first = .error .panic ∨ first = .error .absent ∧ second = .error .panic := by
  cases first with
  | ok a => simp [orElse]
  | error halt => cases halt <;> simp [orElse]

theorem orElseAbsent {α} {first second : Run α} : orElse first second = .error .absent ↔
    first = .error .absent ∧ second = .error .absent := by
  cases first with
  | ok a => simp [orElse]
  | error halt => cases halt <;> simp [orElse]

section
variable {text : Text} {zone : TimeZoneRule}

/-- The last six bytes of what follows the first `T` begin inside a character. -/
def TailCut (text : Text) : Prop :=
  '/' ∉ text ∧ ∃ before time, text = before ++ 'T' :: time ∧ 'T' ∉ before ∧ time.getLast? ≠ some 'Z' ∧
    6 ≤ size time ∧ ¬Boundary time (size time - 6)

/-- Three bytes into the five of a local form's offset is inside a character. -/
def OffsetCut (text : Text) : Prop :=
  ¬UtcForm text ∧ ∃ offset local_, LocalForm text offset local_ ∧ size offset = 5 ∧ ¬Boundary offset 3

/-- A local form with no offset of its own names a time too far out for the daylight rules. -/
def FarClock (text : Text) (zone : TimeZoneRule) : Prop :=
  ¬UtcForm text ∧ ∃ offset local_, LocalForm text offset (some local_) ∧ size offset ≠ 5 ∧ zone.Far local_

theorem parsePanics : parseDateText text zone = .error .panic ↔ OffsetCut text ∨ FarClock text zone := by
  have only : parseDateText text zone = .error .panic ↔
      ¬UtcForm text ∧ parseIso text zone = .error .absent ∧ parseLocalOutput text zone = .error .panic := by
    have iso : parseIso text zone ≠ .error .panic := isoCalm text zone
    have utc : parseUtcOutput text ≠ .error .panic := utcCalm text
    have slash : parseLegacySlash text zone ≠ .error .panic := slashCalm text zone
    rw [parseDateText,orElsePanic,orElsePanic,orElsePanic,orElseAbsent,orElseAbsent,utcOutputRuns]
    tauto
  rw [only,localOutputPanics]
  constructor
  · intro h
    obtain ⟨notUtc,_,offset,local_,form,panics⟩ := h
    rcases localPanics.mp panics with cut_ | far
    · exact .inl ⟨notUtc,offset,local_,form,cut_⟩
    · obtain ⟨other,ms,rfl,far⟩ := far
      exact .inr ⟨notUtc,offset,ms,form,other,far⟩
  · intro h
    rcases h with cut_ | far
    · obtain ⟨notUtc,offset,local_,form,cut_⟩ := cut_
      exact ⟨notUtc,localNotIso form,offset,local_,form,localPanics.mpr (.inl cut_)⟩
    · obtain ⟨notUtc,offset,ms,form,other,far⟩ := far
      exact ⟨notUtc,localNotIso form,offset,some ms,form,localPanics.mpr (.inr ⟨other,ms,rfl,far⟩)⟩

theorem findNone {c text} : find c text = none ↔ c ∉ text := by
  rw [find]
  split <;> simp_all

theorem firstSame {c} {a b x y : Text} (before : c ∉ a) (before' : c ∉ x) (same : a ++ c :: b = x ++ c :: y) : a = x ∧ b = y := by
  induction a generalizing x with
  | nil =>
    cases x with
    | nil => exact ⟨rfl,(List.cons.inj same).2⟩
    | cons d x => exact absurd ((List.cons.inj same).1 ▸ List.mem_cons_self) before'
  | cons d a ih =>
    cases x with
    | nil => exact absurd ((List.cons.inj same).1 ▸ List.mem_cons_self) before
    | cons e x =>
      obtain ⟨rfl,rest⟩ := List.cons.inj same
      obtain ⟨rfl,rfl⟩ := ih (fun among => before (List.mem_cons_of_mem d among)) (fun among => before' (List.mem_cons_of_mem d among)) rest
      exact ⟨rfl,rfl⟩

theorem usesPanics : dateTextUsesLocalZone text = .error .panic ↔ TailCut text := by
  rw [dateTextUsesLocalZone]
  by_cases slash : '/' ∈ text
  · rw [if_pos slash]
    exact iff_of_false (calmOk true) fun cut_ => cut_.1 slash
  rw [if_neg slash]
  cases found : find 'T' text with
  | none =>
    refine iff_of_false (calmOk false) fun cut_ => ?_
    obtain ⟨_,before,time,rfl,_⟩ := cut_
    exact findNone.mp found (by simp)
  | some separator =>
    obtain ⟨before,time,rfl,rfl,first⟩ := findSplits found
    have dropped : dropBytes (size before+1) (before ++ 'T' :: time) = some time := by
      have here : At (before ++ 'T' :: time) (size before) ('T' :: time) := dropBytesAt _ _
      exact here.next (by decide)
    have shape : TailCut (before ++ 'T' :: time) ↔ time.getLast? ≠ some 'Z' ∧ 6 ≤ size time ∧ ¬Boundary time (size time - 6) := by
      constructor
      · intro cut_
        obtain ⟨_,before',time',same,first',rest⟩ := cut_
        obtain ⟨rfl,rfl⟩ := firstSame first first' same
        exact rest
      · intro rest
        exact ⟨slash,before,time,rfl,first,rest⟩
    rw [shape]
    simp only [cutFrom,dropped]
    change (if time.getLast? = some 'Z' then _ else _) = _ ↔ _
    by_cases ends : time.getLast? = some 'Z'
    · rw [if_pos ends]
      exact iff_of_false (calmOk false) fun rest => rest.1 ends
    rw [if_neg ends]
    by_cases short : size time < 6
    · rw [if_pos short]
      exact iff_of_false (calmOk true) fun rest => Nat.not_le_of_lt short rest.2.1
    rw [if_neg short]
    by_cases fits : Boundary time (size time - 6)
    · refine iff_of_false ?_ fun rest => rest.2.2 fits
      refine calmBind (calmOrPanic (boundaryDrop.mpr fits)) fun tail _ => ?_
      have calm : parseIsoOffset tail ≠ .error .panic := offsetCalm tail
      split
      · exact calmOk _
      · exact calmOk _
      · rename_i run
        exact absurd run calm
    · have none_ : dropBytes (size time - 6) time = none :=
        Option.not_isSome_iff_eq_none.mp fun some_ => fits (boundaryDrop.mp some_)
      rw [none_]
      exact iff_of_true rfl ⟨ends,Nat.le_of_not_lt short,fits⟩

/-- Reading a date panics exactly where a slice is cut inside a character or the daylight rules
are given a time past the year search. -/
theorem parseNeverPanics (text : Text) (zone : TimeZoneRule) :
    dateTextUsesLocalZone text ≠ .error .panic ∧ parseDateText text zone ≠ .error .panic ↔
      ¬(TailCut text ∨ OffsetCut text ∨ FarClock text zone) := by
  rw [Ne,usesPanics,Ne,parsePanics,not_or,not_or,not_or]

theorem parsePanicsInside : dateTextUsesLocalZone "Té12345".toList = .error .panic ∧
    ∃ zone, parseDateText "X Jan 1 2000 0:0:0 GMT12é1".toList zone = .error .panic := by
  refine ⟨by decide,.fixed ⟨0,by decide⟩ [],?_⟩
  decide

end

end Bamts.Date
