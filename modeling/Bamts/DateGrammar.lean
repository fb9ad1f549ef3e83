import Bamts.DateParse

/-! The pieces of an ISO date text, the instant they denote, which of them `parse_iso` reads, and the
ECMAScript date time string format. -/
set_option linter.all false
namespace Bamts.Date
open ByteText

inductive ZoneText where
  | local_
  | utc
  | offset (sign : Char) (hours minutes : Text)
  deriving DecidableEq, Repr

structure ClockText where
  hours : Text
  minutes : Text
  seconds : Option Text
  fraction : Option Text
  zone : ZoneText
  deriving DecidableEq, Repr

inductive DayText where
  | year
  | month (mm : Text)
  | date (mm dd : Text)
  deriving DecidableEq, Repr

structure IsoText where
  sign : Option Char
  year : Text
  day : DayText
  clock : Option ClockText
  deriving DecidableEq, Repr

def ZoneText.text : ZoneText → Text
  | .local_ => []
  | .utc => ['Z']
  | .offset sign hours minutes => sign :: (hours ++ ':' :: minutes)

def part (mark : Char) : Option Text → Text
  | none => []
  | some piece => mark :: piece

def ClockText.text (clock : ClockText) : Text :=
  clock.hours ++ ':' :: (clock.minutes ++ (part ':' clock.seconds ++ (part '.' clock.fraction ++ clock.zone.text)))

def DayText.text : DayText → Text
  | .year => []
  | .month mm => '-' :: mm
  | .date mm dd => '-' :: (mm ++ '-' :: dd)

def IsoText.text (iso : IsoText) : Text :=
  iso.sign.toList ++ iso.year ++ (iso.day.text ++ part 'T' (iso.clock.map ClockText.text))

/-- The number a fixed-width field spells. -/
def fieldValue (piece : Text) : Int := (parseI64 piece).getD 0

def signValue (sign : Char) : Int := if sign = '-' then -1 else 1

def millisecondsOf (fraction : Text) : Int := (digitsOf (fraction.take 3) : Int) * 10^(3-(fraction.take 3).length)

namespace ClockText

def hour (clock : ClockText) : Int := fieldValue clock.hours
def minute (clock : ClockText) : Int := fieldValue clock.minutes
def second (clock : ClockText) : Int := clock.seconds.elim 0 fieldValue
def millisecond (clock : ClockText) : Int := clock.fraction.elim 0 millisecondsOf

end ClockText

def DayText.monthValue : DayText → Int
  | .year => 1
  | .month mm => fieldValue mm
  | .date mm _ => fieldValue mm

def DayText.dateValue : DayText → Int
  | .year => 1
  | .month _ => 1
  | .date _ dd => fieldValue dd

def ZoneText.utcTime (zone : TimeZoneRule) (local_ : Int) : ZoneText → Int
  | .local_ => zone.utcTime local_
  | .utc => local_
  | .offset sign hours minutes => local_ - signValue sign * (fieldValue hours * 3600 + fieldValue minutes * 60) * msPerSecond

namespace IsoText

def yearValue (iso : IsoText) : Int := iso.sign.elim 1 signValue * fieldValue iso.year

def midnight (iso : IsoText) : Option Int :=
  makeDate (makeDay iso.yearValue (iso.day.monthValue-1) iso.day.dateValue) 0

/-- A date alone is UTC midnight; a date and a clock count in the zone the text names, else in `zone`. -/
def instant (iso : IsoText) (zone : TimeZoneRule) : Option Int :=
  match iso.clock with
  | none => timeClip iso.midnight
  | some clock =>
    timeClip (iso.midnight.map fun midnight =>
      clock.zone.utcTime zone (midnight + makeTime clock.hour clock.minute clock.second clock.millisecond))

end IsoText

/-- Two bytes that the integer parser takes. -/
def Field (piece : Text) : Prop := size piece = 2 ∧ (parseI64 piece).isSome

instance (piece) : Decidable (Field piece) := by unfold Field; infer_instance

/-- What the code checks of each part. -/
def ZoneText.Accepted : ZoneText → Prop
  | .local_ => True
  | .utc => True
  | .offset sign hours minutes => (sign = '+' ∨ sign = '-') ∧ Field hours ∧ Field minutes ∧
      fieldValue hours ≤ 23 ∧ fieldValue minutes ≤ 59

instance (zone : ZoneText) : Decidable zone.Accepted := by
  cases zone <;> unfold ZoneText.Accepted <;> infer_instance

structure ClockText.Accepted (clock : ClockText) : Prop where
  hours : Field clock.hours
  minutes : Field clock.minutes
  seconds : ∀ piece, clock.seconds = some piece → Field piece
  fraction : ∀ piece, clock.fraction = some piece → IsDigits piece
  range : clock.minute ≤ 59 ∧ clock.second ≤ 59 ∧ clock.hour ≤ 24
  last : clock.hour = 24 → clock.minute = 0 ∧ clock.second = 0 ∧ clock.millisecond = 0
  zone : clock.zone.Accepted

def DayText.Fields : DayText → Prop
  | .year => True
  | .month mm => Field mm
  | .date mm dd => Field mm ∧ Field dd

def YearAccepted (sign : Option Char) (year : Text) : Prop :=
  match sign with
  | none => year.head? ≠ some '+' ∧ year.head? ≠ some '-' ∧ size year = 4 ∧ (parseI64 year).isSome
  | some sign => (sign = '+' ∨ sign = '-') ∧ size year = 6 ∧ (parseI64 year).isSome ∧
      ¬(sign = '-' ∧ year = "000000".toList)

instance (sign year) : Decidable (YearAccepted sign year) := by
  cases sign <;> unfold YearAccepted <;> infer_instance

instance (day : DayText) : Decidable day.Fields := by
  cases day <;> unfold DayText.Fields <;> infer_instance

structure IsoText.Accepted (iso : IsoText) : Prop where
  year : YearAccepted iso.sign iso.year
  day : iso.day.Fields
  range : (1 ≤ iso.day.monthValue ∧ iso.day.monthValue ≤ 12) ∧
    (1 ≤ iso.day.dateValue ∧ iso.day.dateValue ≤ daysInMonth iso.yearValue iso.day.monthValue)
  clock : ∀ clock, iso.clock = some clock → iso.day ≠ .year ∧ clock.Accepted

/-- The format itself: a row of digits of its width, with its number in range. -/
def Digits (width low high : Nat) (piece : Text) : Prop :=
  piece.length = width ∧ IsDigits piece ∧ low ≤ digitsOf piece ∧ digitsOf piece ≤ high

instance (width low high piece) : Decidable (Digits width low high piece) := by unfold Digits; infer_instance

def ZoneText.Formed : ZoneText → Prop
  | .local_ => True
  | .utc => True
  | .offset sign hours minutes => (sign = '+' ∨ sign = '-') ∧ Digits 2 0 23 hours ∧ Digits 2 0 59 minutes

structure ClockText.Formed (clock : ClockText) : Prop where
  hours : Digits 2 0 24 clock.hours
  minutes : Digits 2 0 59 clock.minutes
  seconds : ∀ piece, clock.seconds = some piece → Digits 2 0 59 piece
  fraction : ∀ piece, clock.fraction = some piece → IsDigits piece ∧ clock.seconds ≠ none
  last : digitsOf clock.hours = 24 → digitsOf clock.minutes = 0 ∧
    (∀ piece, clock.seconds = some piece → digitsOf piece = 0) ∧
    (∀ piece, clock.fraction = some piece → digitsOf piece = 0)
  zone : clock.zone.Formed

def YearFormed (sign : Option Char) (year : Text) : Prop :=
  match sign with
  | none => Digits 4 0 9999 year
  | some sign => (sign = '+' ∨ sign = '-') ∧ Digits 6 0 999999 year ∧ ¬(sign = '-' ∧ digitsOf year = 0)

def DayText.Formed (year : Int) : DayText → Prop
  | .year => True
  | .month mm => Digits 2 1 12 mm
  | .date mm dd => Digits 2 1 12 mm ∧ Digits 2 1 (daysInMonth year (digitsOf mm)).toNat dd

structure IsoText.Formed (iso : IsoText) : Prop where
  year : YearFormed iso.sign iso.year
  day : iso.day.Formed (iso.sign.elim 1 signValue * digitsOf iso.year)
  clock : ∀ clock, iso.clock = some clock → clock.Formed

end Bamts.Date
