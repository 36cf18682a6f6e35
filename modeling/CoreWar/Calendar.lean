import CoreWar.Text.Decimal

namespace CoreWar

structure Date where
  year : UInt32
  month : Nat
  day : Nat
  deriving DecidableEq

namespace Date

def daysPerEra : Nat := 146097

/-- Days from 1 March of year 0 to 1 January 1970. -/
def epoch : Nat := 719468

def yearOfEra (day : Nat) : Nat := (day - day / 1460 + day / 36524 - day / 146096) / 365

def dayOfYear (day year : Nat) : Nat := day - (365 * year + year / 4 - year / 100)

/-- The month of a year that starts in March, from 0, from the day of the year. -/
def monthOfYear (day : Nat) : Nat := (5 * day + 2) / 153

def ofDays (days : Int) : Date :=
  let shifted := days + epoch
  let day := (shifted % daysPerEra).toNat
  let year := yearOfEra day
  let yearDay := dayOfYear day year
  let month := monthOfYear yearDay
  let calendarMonth := if month < 10 then month + 3 else month - 9
  let calendarYear := year + shifted / daysPerEra * 400
  { year := UInt32.ofInt (if calendarMonth ≤ 2 then calendarYear + 1 else calendarYear)
    month := calendarMonth
    day := yearDay - (153 * month + 2) / 5 + 1 }

/-- A day count in a machine word; counts from half the range on lie before 1970. -/
def ofWord (days : UInt64) : Date := ofDays days.toInt64.toInt

end Date

structure Stamp where
  seconds : Nat
  milliseconds : Nat

def Stamp.text (stamp : Stamp) : String :=
  let date := Date.ofDays (stamp.seconds / 86400)
  let padded (width n : Nat) := Text.padLeft width '0' (toString n)
  padded 4 date.year.toNat ++ "-" ++ padded 2 date.month ++ "-" ++ padded 2 date.day ++ " "
    ++ padded 2 (stamp.seconds / 3600 % 24) ++ ":" ++ padded 2 (stamp.seconds / 60 % 60) ++ ":"
    ++ padded 2 (stamp.seconds % 60) ++ "." ++ padded 3 stamp.milliseconds ++ " "

end CoreWar
