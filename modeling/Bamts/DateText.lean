import Bamts.DateZone

/-! The texts of time values: `toISOString`, `toUTCString` and the local forms of `toString`. -/
set_option linter.all false
namespace Bamts.Date
open ByteText

def weekdays : List Text :=
  ["Sun".toList,"Mon".toList,"Tue".toList,"Wed".toList,"Thu".toList,"Fri".toList,"Sat".toList]

def months : List Text :=
  ["Jan".toList,"Feb".toList,"Mar".toList,"Apr".toList,"May".toList,"Jun".toList,"Jul".toList,
    "Aug".toList,"Sep".toList,"Oct".toList,"Nov".toList,"Dec".toList]

inductive DateStringKind where
  | full | date | time
  deriving DecidableEq, Repr

def isoYear (year : Int) : Text :=
  if 0 ≤ year ∧ year ≤ 9999 then padInteger 4 year
  else if year < 0 then '-' :: padInteger 6 year.natAbs
  else '+' :: padInteger 6 year

-- `{:02}:{:02}:{:02}`
def clockText (time : Int) : Text :=
  padInteger 2 (hourFromTime time) ++ ':' :: padInteger 2 (minFromTime time) ++
    ':' :: padInteger 2 (secFromTime time)

def isoString (time : Int) : Option Text :=
  if maxTimeValue < |time| then none
  else
    some (isoYear (yearFromTime time) ++ '-' :: padInteger 2 (monthFromTime time + 1) ++
      '-' :: padInteger 2 (dateFromTime time) ++ 'T' :: clockText time ++
      '.' :: padInteger 3 (msFromTime time) ++ ['Z'])

def utcString (time : Int) : Text :=
  weekdays.getD (weekDay time).toNat [] ++ ", ".toList ++ padInteger 2 (dateFromTime time) ++
    ' ' :: months.getD (monthFromTime time).toNat [] ++ ' ' :: padInteger 0 (yearFromTime time) ++
    ' ' :: clockText time ++ " GMT".toList

-- `GMT{sign}{:02}{:02}`
def offsetText (offset : Int) : Text :=
  "GMT".toList ++ (if offset < 0 then '-' else '+') ::
    padInteger 2 (offset.natAbs / 3600 : Nat) ++ padInteger 2 (offset.natAbs % 3600 / 60 : Nat)

def dateString (time : Int) (zone : TimeZoneRule) (kind : DateStringKind) : Text :=
  let local_ := zone.localTime time
  let date := weekdays.getD (weekDay local_).toNat [] ++ ' ' :: months.getD (monthFromTime local_).toNat [] ++
    ' ' :: padInteger 2 (dateFromTime local_) ++ ' ' :: padInteger 0 (yearFromTime local_)
  let clock := clockText local_ ++ ' ' :: offsetText (zone.offsetAtUtc time) ++
    " (".toList ++ zone.nameAtUtc time ++ [')']
  match kind with
  | .full => date ++ ' ' :: clock
  | .date => date
  | .time => clock

end Bamts.Date
