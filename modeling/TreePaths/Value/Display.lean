import TreePaths.Value.Basic
import TreePaths.Text.Digit
import TreePaths.Text.Quoted
import TreePaths.Number.Shortest

/-!
Values as they stand in messages, and as labels of the fields of a struct.
-/

namespace TreePaths

/-- Moments in messages: seconds are left out if there is nothing after the minutes. -/
def Moment.display (t : Moment) : String :=
  let d := t.date
  let fields := [d.year, d.month, d.day, t.hour, t.minute]
  let seconds :=
    if t.microsecond ≠ 0 then [t.second, t.microsecond]
    else if t.second ≠ 0 then [t.second]
    else []
  let zone :=
    match t.offset with
    | none => []
    | some 0 => ["tzinfo=datetime.timezone.utc"]
    | some m =>
      let days := if m < 0 then "days=-1, " else ""
      let seconds := (if m < 0 then m + 1440 else m) * 60
      [s!"tzinfo=datetime.timezone(datetime.timedelta({days}seconds={seconds}))"]
  let parts := (fields ++ seconds).map toString ++ zone
  "datetime.datetime(" ++ ", ".intercalate parts ++ ")"

namespace Value

def displayTuple : List String → String
  | [x] => "(" ++ x ++ ",)"
  | xs => "(" ++ ", ".intercalate xs ++ ")"

mutual

def display : Value → String
  | null => "None"
  | bool b => if b then "True" else "False"
  | int i => toString i
  | float x => x.text
  | str s => Text.quoted s
  | bytes bs => Text.quotedBytes bs
  | date d => s!"datetime.date({d.year}, {d.month}, {d.day})"
  | moment t => t.display
  | list xs => "[" ++ ", ".intercalate (displayAll xs) ++ "]"
  | tuple xs => displayTuple (displayAll xs)
  | struct fs => "Struct([" ++ ", ".intercalate (displayFields fs) ++ "])"
  | map es => "\x7b" ++ ", ".intercalate (displayEntries es) ++ "\x7d"
  | set [] => "set()"
  | set xs => "\x7b" ++ ", ".intercalate (displayAll xs) ++ "\x7d"
  | annotated v as =>
    "Annotated(value=" ++ display v ++ ", annotations=" ++ displayTuple (as.map Text.quoted) ++ ")"
  | endless mark => mark

def displayAll : List Value → List String
  | [] => []
  | v :: vs => display v :: displayAll vs

def displayFields : List (String × Value) → List String
  | [] => []
  | (k, v) :: fs => displayTuple [Text.quoted k, display v] :: displayFields fs

def displayEntries : List (Value × Value) → List String
  | [] => []
  | (k, v) :: es => (display k ++ ": " ++ display v) :: displayEntries es

end

/-- No integer in a value has too many digits to be written. -/
def isWritable (v : Value) : Bool :=
  v.all fun w =>
    match w with
    | int i => Text.isWritable i
    | _ => true

/-- A value as the name of a field: texts and dates stand for themselves. -/
def label : Value → String
  | str s => s
  | date d => d.iso
  | moment t => t.isoWith " "
  | v => v.display

end Value

end TreePaths
