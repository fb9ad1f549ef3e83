import Bamts.DateRound
import Bamts.DecimalText

/-! Time zones of the `Date` builtin: a fixed offset, or two offsets with a yearly transition into
daylight time and one out of it. -/
set_option linter.all false
namespace Bamts.Date
open ByteText

/-- The values of the source's `i32`. -/
abbrev I32 := {n : Int // -2^31 ≤ n ∧ n < 2^31}

/-- `Mm.w.d/time`: the `week`-th `weekday` of a month, the fifth being the last. -/
structure TransitionRule where
  month : Nat
  week : Nat
  weekday : Nat
  seconds : I32
  valid : (1 ≤ month ∧ month ≤ 12) ∧ (1 ≤ week ∧ week ≤ 5) ∧ weekday ≤ 6
  deriving DecidableEq, Repr

inductive TimeZoneRule where
  | fixed (offsetSeconds : I32) (name : Text)
  | dst (standardOffsetSeconds daylightOffsetSeconds : I32) (standardName daylightName : Text)
      (start end_ : TransitionRule)
  deriving DecidableEq, Repr

-- A month outside `make_day`'s years has no first day; its weekday is then that of the epoch.
def transitionLocalMs (year : Int) (rule : TransitionRule) : Option Int :=
  let monthStart := makeDay year (rule.month-1) 1
  let firstWeekday := weekDay ((monthStart.map fun first => first*msPerDay).getD 0)
  let date := 1 + (rule.weekday-firstWeekday) % 7 + 7*(rule.week-1)
  let date := if daysInMonth year rule.month < date then date-7 else date
  makeDate (makeDay year (rule.month-1) date) (rule.seconds.val*msPerSecond)

-- `<` of `f64`: nothing is below or above `NaN`.
def less : Option Int → Option Int → Bool
  | some a, some b => a < b
  | _, _ => false

def atLeast : Option Int → Option Int → Bool
  | some a, some b => b ≤ a
  | _, _ => false

namespace TimeZoneRule

def utc : TimeZoneRule := .fixed ⟨0,by decide⟩ "UTC".toList

def offsetInYear (standard daylight : Int) (start end_ : TransitionRule) (year time : Int) : Int :=
  let startUtc := (transitionLocalMs year start).map fun ms => ms - standard*msPerSecond
  let endUtc := (transitionLocalMs year end_).map fun ms => ms - daylight*msPerSecond
  let inDaylight :=
    if less startUtc endUtc then atLeast (some time) startUtc && less (some time) endUtc
    else atLeast (some time) startUtc || less (some time) endUtc
  if inDaylight then daylight else standard

def offsetAtUtc (zone : TimeZoneRule) (time : Int) : Int :=
  match zone with
  | .fixed offset _ => offset.val
  | .dst standard daylight _ _ start end_ => offsetInYear standard.val daylight.val start end_ (yearFromTime time) time

def localTime (zone : TimeZoneRule) (time : Int) : Int := time + zone.offsetAtUtc time * msPerSecond

/-- The instants of a local time under either offset, and the choice between them. -/
def disambiguate (standard daylight : Int) (standardValid daylightValid : Bool) : Int :=
  match standardValid, daylightValid with
  | true, true => min standard daylight
  | true, false => standard
  | false, true => daylight
  | false, false => max standard daylight

def utcTime (zone : TimeZoneRule) (local_ : Int) : Int :=
  match zone with
  | .fixed offset _ => local_ - offset.val*msPerSecond
  | .dst standardOffset daylightOffset _ _ _ _ =>
    let standard := local_ - standardOffset.val*msPerSecond
    let daylight := local_ - daylightOffset.val*msPerSecond
    disambiguate standard daylight (zone.offsetAtUtc standard == standardOffset.val)
      (zone.offsetAtUtc daylight == daylightOffset.val)

def nameAtUtc (zone : TimeZoneRule) (time : Int) : Text :=
  match zone with
  | .fixed _ name => name
  | .dst standard _ standardName daylightName _ _ =>
    if zone.offsetAtUtc time = standard.val then standardName else daylightName

/-- The offsets a zone can apply. -/
def Offset (zone : TimeZoneRule) (offset : Int) : Prop :=
  match zone with
  | .fixed only _ => offset = only.val
  | .dst standard daylight _ _ _ _ => offset = standard.val ∨ offset = daylight.val

theorem offsetAtUtcOffset (zone : TimeZoneRule) (time) : zone.Offset (zone.offsetAtUtc time) := by
  cases zone with
  | fixed only name => rfl
  | dst standard daylight standardName daylightName start end_ =>
    simp only [Offset,offsetAtUtc,offsetInYear]
    split
    · split <;> simp
    · split <;> simp

end TimeZoneRule

end Bamts.Date
