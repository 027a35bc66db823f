import TreePaths.Calendar
import TreePaths.Text.Hex

/-!
Timestamps: a date, and a time of day with a fraction and a zone that may be missing.
-/

namespace TreePaths.Yaml

def digitsUpTo (least most : Nat) (cs : List Char) : Option (List Char × List Char) :=
  let ds := (cs.take most).takeWhile Char.isDigit
  if least ≤ ds.length then some (ds, cs.drop ds.length) else none

def literal (c : Char) : List Char → Option (List Char)
  | d :: cs => if c = d then some cs else none
  | [] => none

/-- A text without the one line feed that may end it. -/
def dropLineEnd (cs : List Char) : List Char :=
  if cs.getLast? = some '\n' then cs.dropLast else cs

structure Timestamp where
  year : List Char
  month : List Char
  day : List Char
  /-- Hour, minute, second and fraction. -/
  time : Option (List Char × List Char × List Char × List Char)
  /-- Sign, hours and minutes of the zone; universal time has no sign. -/
  zone : Option (Option Char × List Char × List Char)
  deriving DecidableEq

namespace Timestamp

def zoneOf : List Char → Option (Option Char × List Char × List Char)
  | ['Z'] => some (none, [], [])
  | c :: cs =>
    if c = '-' || c = '+' then do
      let (hours, cs) ← digitsUpTo 1 2 cs
      if cs.isEmpty then
        return (some c, hours, [])
      else
        let (minutes, cs) ← digitsUpTo 2 2 (← literal ':' cs)
        if cs.isEmpty then return (some c, hours, minutes) else none
    else
      none
  | [] => none

/-- The blanks between date and time, or a `T`. -/
def dropSeparator : List Char → Option (List Char)
  | 'T' :: cs | 't' :: cs => some cs
  | cs =>
    let rest := cs.dropWhile fun c => c = ' ' || c = '\t'
    if rest.length < cs.length then some rest else none

def parse? (text : String) : Option Timestamp := do
  let (year, cs) ← digitsUpTo 4 4 (dropLineEnd text.toList)
  let (month, cs) ← digitsUpTo 1 2 (← literal '-' cs)
  let (day, cs) ← digitsUpTo 1 2 (← literal '-' cs)
  if cs.isEmpty then
    return ⟨year, month, day, none, none⟩
  else
    let (hour, cs) ← digitsUpTo 1 2 (← dropSeparator cs)
    let (minute, cs) ← digitsUpTo 2 2 (← literal ':' cs)
    let (second, cs) ← digitsUpTo 2 2 (← literal ':' cs)
    let (fraction, cs) :=
      match cs with
      | '.' :: cs => (cs.takeWhile Char.isDigit, cs.dropWhile Char.isDigit)
      | cs => ([], cs)
    let time := some (hour, minute, second, fraction)
    if cs.isEmpty then
      return ⟨year, month, day, time, none⟩
    else
      let zone ← zoneOf (cs.dropWhile fun c => c = ' ' || c = '\t')
      return ⟨year, month, day, time, some zone⟩

/-- A text is read as a timestamp without being tagged; a date alone needs all its digits. -/
def isImplicit (text : String) : Bool :=
  match parse? text with
  | none => false
  | some t => t.time.isSome || (t.month.length = 2 && t.day.length = 2)

def date (t : Timestamp) : Date :=
  ⟨Text.decimalValue t.year, Text.decimalValue t.month, Text.decimalValue t.day⟩

def millionths (ds : List Char) : Nat :=
  let ds := ds.take 6
  Text.decimalValue (ds ++ List.replicate (6 - ds.length) '0')

def offset : Option Char × List Char × List Char → Int
  | (sign, hours, minutes) =>
    let n : Int := Text.decimalValue hours * 60 + Text.decimalValue minutes
    if sign = some '-' then -n else n

def moment? (t : Timestamp) : Option Moment :=
  t.time.map fun (hour, minute, second, fraction) =>
    { date := t.date
      hour := Text.decimalValue hour
      minute := Text.decimalValue minute
      second := Text.decimalValue second
      microsecond := millionths fraction
      offset := t.zone.map offset }

end Timestamp

end TreePaths.Yaml
