import Bamts.DateCast
import Bamts.DateText
import Bamts.Outcome

/-! `Date.parse`: the ISO form, the two printed forms and the slash form, tried in this order. -/
set_option linter.all false
namespace Bamts.Date
open ByteText Binary64 Bamts.Runtime

/-- Why no time came out: the code panicked, or it answered `None`. -/
inductive Halt where
  | panic | absent
  deriving DecidableEq, Repr

abbrev Run (α : Type) := Except Halt α

def orAbsent {α : Type} : Option α → Run α
  | some value => .ok value
  | none => .error .absent

def orPanic {α : Type} : Option α → Run α
  | some value => .ok value
  | none => .error .panic

/-- `first.or_else(second)`; a panic is no answer. -/
def orElse {α : Type} (first second : Run α) : Run α :=
  match first with
  | .error .absent => second
  | other => other

/-- `&text[start..stop]` -/
def cut (text : Text) (start stop : Nat) : Run Text := orPanic (slice text start stop)

/-- `&text[start..]` -/
def cutFrom (text : Text) (start : Nat) : Run Text := orPanic (dropBytes start text)

def parseIsoOffset (text : Text) : Run Int :=
  if text = "Z".toList ∨ text = "+00:00".toList ∨ text = "-00:00".toList then .ok 0
  else if size text ≠ 6 ∨ ¬(charAt text 0 = some '+' ∨ charAt text 0 = some '-') ∨ charAt text 3 ≠ some ':' then
    .error .absent
  else do
    let hours ← orAbsent (parseI32 (← cut text 1 3))
    let minutes ← orAbsent (parseI32 (← cut text 4 6))
    if 23 < hours ∨ 59 < minutes then .error .absent
    else .ok ((if charAt text 0 = some '-' then -1 else 1) * (hours*3600 + minutes*60))

def utcTimeOf (zone : TimeZoneRule) (local_ : Option Int) : Run (Option Int) := orPanic (zone.checkedUtcTime local_)

/-- `text.get(cursor..cursor + 2)?.parse().ok()?` -/
def twoBytes (text : Text) (cursor : Nat) : Run Int := do
  let piece ← orAbsent (slice text cursor (cursor+2))
  orAbsent (parseI64 piece)

def isoYearField (text : Text) : Run (Int × Nat) :=
  if charAt text 0 = some '+' ∨ charAt text 0 = some '-' then do
    let piece ← orAbsent (slice text 1 7)
    let magnitude ← orAbsent (parseI64 piece)
    .ok ((if charAt text 0 = some '-' then -1 else 1) * magnitude,7)
  else do
    let piece ← orAbsent (slice text 0 4)
    let year ← orAbsent (parseI64 piece)
    .ok (year,4)

def isoDateFields (text : Text) (cursor : Nat) : Run (Int × Int × Nat) :=
  if cursor < size text then
    if charAt text cursor ≠ some '-' then .error .absent
    else do
      let month ← twoBytes text (cursor+1)
      if cursor+3 < size text ∧ charAt text (cursor+3) = some '-' then
        let date ← twoBytes text (cursor+3+1)
        .ok (month,date,cursor+3+3)
      else .ok (month,1,cursor+3)
  else .ok (1,1,cursor)

def isoSeconds (text : Text) (cursor : Nat) : Run (Int × Nat) :=
  if charAt text cursor = some ':' then do
    let second ← twoBytes text (cursor+1)
    .ok (second,cursor+1+2)
  else .ok (0,cursor)

/-- `while bytes.get(cursor).is_some_and(u8::is_ascii_digit) { cursor += 1 }` -/
def digitsEnd (text : Text) (cursor : Nat) : Nat :=
  cursor + (((dropBytes cursor text).getD []).takeWhile isDecimal).length

def isoFraction (text : Text) (cursor : Nat) : Run (Int × Nat) :=
  if charAt text cursor = some '.' then
    let start := cursor+1
    let stop := digitsEnd text start
    if stop = start then .error .absent
    else do
      let fraction ← cut text start stop
      let firstThree ← cut fraction 0 (min (size fraction) 3)
      let read ← orAbsent (parseI64 firstThree)
      .ok (read * 10^(3 - size firstThree),stop)
  else .ok (0,cursor)

def isoZone (text : Text) (cursor : Nat) (zone : TimeZoneRule) (local_ : Option Int) : Run (Option Int) :=
  if cursor = size text then utcTimeOf zone local_
  else do
    let rest ← cutFrom text cursor
    if rest = "Z".toList then .ok local_
    else do
      let offset ← parseIsoOffset rest
      .ok (local_.map fun ms => ms - offset*msPerSecond)

/-- What follows the `T`. -/
def isoClock (text : Text) (cursor : Nat) (zone : TimeZoneRule) (dateMs : Option Int) : Run (Option Int) := do
  let hour ← twoBytes text cursor
  if charAt text (cursor+2) ≠ some ':' then .error .absent
  else do
    let minute ← twoBytes text (cursor+2+1)
    let seconds ← isoSeconds text (cursor+2+1+2)
    let fraction ← isoFraction text seconds.2
    if 59 < minute ∨ 59 < seconds.1 ∨ 24 < hour ∨
        (hour = 24 ∧ (minute ≠ 0 ∨ seconds.1 ≠ 0 ∨ fraction.1 ≠ 0)) then .error .absent
    else do
      let local_ := makeDate (dateMs.map day) (makeTime hour minute seconds.1 fraction.1)
      let utc ← isoZone text fraction.2 zone local_
      .ok (timeClip utc)

def parseIso (text : Text) (zone : TimeZoneRule) : Run (Option Int) := do
  let year ← isoYearField text
  if slice text 0 7 = some "-000000".toList then .error .absent
  else do
    let fields ← isoDateFields text year.2
    let month := fields.1
    let date := fields.2.1
    let cursor := fields.2.2
    if ¬(1 ≤ month ∧ month ≤ 12) ∨ ¬(1 ≤ date ∧ date ≤ daysInMonth year.1 month) then .error .absent
    else
      let dateMs := makeDate (makeDay year.1 (month-1) date) 0
      if cursor = size text then .ok (timeClip dateMs)
      else if charAt text cursor ≠ some 'T' then .error .absent
      else isoClock text (cursor+1) zone dateMs

def position (name : Text) : Option Int := (months.findIdx? (· = name)).map Int.ofNat

/-- `make_time` of parsed numbers, every product and sum an `f64`. -/
def makeTimeOf (hour minute second : Double) : Option Int := do
  let hour ← toInteger hour
  let minute ← toInteger minute
  let second ← toInteger second
  let hours ← rounded (hour*msPerHour)
  let minutes ← rounded (minute*msPerMinute)
  let sum ← rounded (hours+minutes)
  let seconds ← rounded (second*msPerSecond)
  rounded (sum+seconds)

def makeDateOf (dayValue time : Option Int) : Option Int := do
  let days ← dayValue
  let time ← time
  let base ← rounded (days*msPerDay)
  rounded (base+time)

/-- The clock of the printed forms: three numbers between colons. -/
def printedClock (text : Text) : Run (Option Int) :=
  match text.splitOn ':' with
  | [hour,minute,second] => do
    let hour ← orAbsent (parseNumber hour)
    let minute ← orAbsent (parseNumber minute)
    let second ← orAbsent (parseNumber second)
    .ok (makeTimeOf hour minute second)
  | _ => .error .absent

def parseUtcOutput (text : Text) : Run (Option Int) := do
  let parts ← orAbsent (splitOnce ", ".toList text)
  match splitWhitespace parts.2 with
  | [date,month,year,clock,zone] =>
    if zone ≠ "GMT".toList then .error .absent
    else do
      let date ← orAbsent (parseI64 date)
      let month ← orAbsent (position month)
      let year ← orAbsent (parseI64 year)
      let time ← printedClock clock
      .ok (timeClip (makeDateOf (makeDay year month date) time))
  | _ => .error .absent

/-- The date and clock of a local form under the offset its fifth word ends with. -/
def localOffset (zone : TimeZoneRule) (word : Text) (local_ : Option Int) : Run (Option Int) := do
  let offsetText ← cutFrom word 3
  if size offsetText = 5 then do
    let hours ← cut offsetText 0 3
    let minutes ← cutFrom offsetText 3
    let offset ← parseIsoOffset (hours ++ ':' :: minutes)
    .ok (timeClip (local_.bind fun ms => rounded (ms - offset*msPerSecond)))
  else do
    let utc ← utcTimeOf zone local_
    .ok (timeClip utc)

def parseLocalOutput (text : Text) (zone : TimeZoneRule) : Run (Option Int) :=
  match splitWhitespace text with
  | _ :: month :: date :: year :: clock :: word :: _ =>
    if "GMT".toList.isPrefixOf word = false then .error .absent
    else do
      let month ← orAbsent (position month)
      let date ← orAbsent (parseNumber date)
      let year ← orAbsent (parseNumber year)
      let time ← printedClock clock
      let dayValue : Option Int := do
        let year ← toInteger year
        let date ← toInteger date
        makeDay year month date
      localOffset zone word (makeDateOf dayValue time)
  | _ => .error .absent

def parseLegacySlash (text : Text) (zone : TimeZoneRule) : Run (Option Int) :=
  match text.splitOn '/' with
  | [month,date,year] => do
    let month ← orAbsent (parseI64 month)
    let date ← orAbsent (parseI64 date)
    let year ← orAbsent (parseI64 year)
    if ¬(1 ≤ month ∧ month ≤ 12) then .error .absent
    else
      let year := if 0 ≤ year ∧ year ≤ 99 then if year ≤ 49 then year+2000 else year+1900 else year
      if ¬(1 ≤ date ∧ date ≤ daysInMonth year month) then .error .absent
      else do
        let utc ← utcTimeOf zone (makeDate (makeDay year (month-1) date) 0)
        .ok (timeClip utc)
  | _ => .error .absent

def parseDateText (text : Text) (zone : TimeZoneRule) : Run (Option Int) :=
  orElse (orElse (orElse (parseIso text zone) (parseUtcOutput text)) (parseLocalOutput text zone))
    (parseLegacySlash text zone)

def dateTextUsesLocalZone (text : Text) : Run Bool :=
  if '/' ∈ text then .ok true
  else
    match find 'T' text with
    | none => .ok false
    | some separator => do
      let time ← cutFrom text (separator+1)
      if time.getLast? = some 'Z' then .ok false
      else if size time < 6 then .ok true
      else do
        let tail ← cutFrom time (size time - 6)
        match parseIsoOffset tail with
        | .ok _ => .ok false
        | .error .absent => .ok true
        | .error .panic => .error .panic

end Bamts.Date
