/-!
# Moments

Dates, times of day and both together, with or without the distance to universal time. A moment has
one written form, whatever it was read from: the date, the letter `T`, the time with the fraction of
a second as short as possible, and the distance in hours and minutes.
-/

namespace ModulePurity

/-- A day of the calendar. -/
structure Day where
  year : Nat
  month : Nat
  day : Nat
deriving DecidableEq, Repr, Inhabited

/-- A time of day. -/
structure Clock where
  hour : Nat
  minute : Nat
  second : Nat
  nanosecond : Nat
deriving DecidableEq, Repr, Inhabited

/-- The distance to universal time. -/
inductive Zone where
  | universal
  | shifted (minutes : Int)
deriving DecidableEq, Repr, Inhabited

/-- A date, a time or both. -/
structure Moment where
  day : Option Day := none
  clock : Option Clock := none
  zone : Option Zone := none
deriving DecidableEq, Repr, Inhabited

/-- A number with zeros before it. -/
def Moment.padded (digits n : Nat) : String :=
  let s := toString n
  String.ofList (List.replicate (digits - s.length) '0') ++ s

open Moment (padded)

/-- The number of days of a month. -/
def Day.inMonth (year month : Nat) : Nat :=
  if month == 2 then
    if year % 4 == 0 && (year % 100 != 0 || year % 400 == 0) then 29 else 28
  else if [4, 6, 9, 11].contains month then 30
  else 31

/-- The written form of a day. -/
def Day.text (d : Day) : String :=
  padded 4 d.year ++ "-" ++ padded 2 d.month ++ "-" ++ padded 2 d.day

/-- A fraction of a second with its point and without zeros at its end. -/
def Clock.fractionText (nanosecond : Nat) : String :=
  if nanosecond = 0 then ""
  else
    let digits := (padded 9 nanosecond).toList.reverse.dropWhile (· == '0')
    "." ++ String.ofList digits.reverse

/-- The written form of a time of day. -/
def Clock.text (c : Clock) : String :=
  padded 2 c.hour ++ ":" ++ padded 2 c.minute ++ ":" ++ padded 2 c.second ++
    Clock.fractionText c.nanosecond

/-- The written form of a distance to universal time. -/
def Zone.text : Zone → String
  | universal => "Z"
  | shifted minutes =>
    (if minutes < 0 then "-" else "+") ++ padded 2 (minutes.natAbs / 60) ++ ":" ++
      padded 2 (minutes.natAbs % 60)

/-- The written form of a moment. -/
def Moment.text (m : Moment) : String :=
  (m.day.map Day.text).getD "" ++
    (if m.day.isSome && m.clock.isSome then "T" else "") ++
    (m.clock.map Clock.text).getD "" ++ (m.zone.map Zone.text).getD ""

end ModulePurity
