/-!
Dates and points in time of the Gregorian calendar, with their ISO texts.
-/

namespace TreePaths

def padded (width n : Nat) : String :=
  let ds := Nat.toDigits 10 n
  .ofList (List.replicate (width - ds.length) '0' ++ ds)

structure Date where
  year : Nat
  month : Nat
  day : Nat
  deriving DecidableEq, Repr

namespace Date

def isLeap (year : Nat) : Bool :=
  year % 4 = 0 && (year % 100 ≠ 0 || year % 400 = 0)

def daysInMonth (year month : Nat) : Nat :=
  if month = 2 then (if isLeap year then 29 else 28)
  else if month ∈ [4, 6, 9, 11] then 30
  else 31

/-- The day exists, in a year from 1 to 9999. -/
def Exists (d : Date) : Prop :=
  1 ≤ d.year ∧ d.year ≤ 9999 ∧ 1 ≤ d.month ∧ d.month ≤ 12 ∧
    1 ≤ d.day ∧ d.day ≤ daysInMonth d.year d.month

instance (d : Date) : Decidable d.Exists :=
  inferInstanceAs (Decidable (_ ∧ _))

def iso (d : Date) : String :=
  s!"{padded 4 d.year}-{padded 2 d.month}-{padded 2 d.day}"

def daysBeforeMonth (year : Nat) : Nat → Nat
  | 0 | 1 => 0
  | m + 2 => daysBeforeMonth year (m + 1) + daysInMonth year (m + 1)

/-- Days since the last day of the year before year 1. -/
def ordinal (d : Date) : Nat :=
  let y := d.year - 1
  y * 365 + y / 4 - y / 100 + y / 400 + daysBeforeMonth d.year d.month + d.day

end Date

/-- A time of day on a date. The offset from universal time is in minutes, if it is known. -/
structure Moment where
  date : Date
  hour : Nat
  minute : Nat
  second : Nat
  microsecond : Nat
  offset : Option Int
  deriving DecidableEq, Repr

namespace Moment

/-- The time exists: a day of 24 hours, and an offset of less than a day. -/
def Exists (t : Moment) : Prop :=
  t.date.Exists ∧ t.hour < 24 ∧ t.minute < 60 ∧ t.second < 60 ∧
    (t.offset.getD 0).natAbs < 1440

instance (t : Moment) : Decidable t.Exists :=
  inferInstanceAs (Decidable (_ ∧ _))

def offsetText (minutes : Int) : String :=
  let sign := if minutes < 0 then "-" else "+"
  let n := minutes.natAbs
  s!"{sign}{padded 2 (n / 60)}:{padded 2 (n % 60)}"

/-- The ISO text. Microseconds are left out if there are none, the offset if it is not known. -/
def isoWith (separator : String) (t : Moment) : String :=
  let time := s!"{padded 2 t.hour}:{padded 2 t.minute}:{padded 2 t.second}"
  let fraction := if t.microsecond = 0 then "" else s!".{padded 6 t.microsecond}"
  let zone := (t.offset.map offsetText).getD ""
  t.date.iso ++ separator ++ time ++ fraction ++ zone

def iso : Moment → String :=
  isoWith "T"

/-- Microseconds since the start of the calendar, in universal time if the offset is known. -/
def microseconds (t : Moment) : Int :=
  let minutes : Int := (t.date.ordinal * 24 + t.hour) * 60 + t.minute - t.offset.getD 0
  (minutes * 60 + t.second) * 1000000 + t.microsecond

/-- Both moments are the same point in time, and of both or of neither the offset is known. -/
def same (a b : Moment) : Bool :=
  a.offset.isSome == b.offset.isSome && a.microseconds == b.microseconds

end Moment

end TreePaths
