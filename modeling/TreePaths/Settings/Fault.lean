import TreePaths.Path.Error
import TreePaths.Value.Display

/-!
What can be wrong with settings, and where. Reading settings goes on after a fault, so that one
reading finds all of them.
-/

namespace TreePaths.Settings

inductive Schema where
  | whole
  | extractor
  | searchPath
  deriving DecidableEq, Repr

def Schema.title : Schema → String
  | whole => "AppConfig"
  | extractor => "ExtractorSettings"
  | searchPath => "SearchPathSpec"

inductive Step where
  | key (name : String)
  | number (i : Int)
  deriving DecidableEq, Repr

def fitsWord (i : Int) : Bool :=
  -9223372036854775808 ≤ i && i < 9223372036854775808

/-- The step to a key. Whole numbers that are not too large stand for themselves. -/
def Step.ofKey : Value → Step
  | .str s => key s
  | .bool b => number b.toNat
  | .int i => if fitsWord i then number i else key (Value.int i).display
  | v => key v.display

inductive Cause where
  | notMapping
  | notSection (schema : Schema)
  | missing
  | unknownKey
  | keyNotText
  | notList
  | notText
  | textEncoding
  | notTruth
  | unclearTruth
  | notInteger
  | unclearInteger
  | fractional
  | notFinite
  | tooLarge
  | negative
  | path (e : PathError)
  deriving DecidableEq, Repr

namespace Cause

def code : Cause → String
  | notMapping => "dict_type"
  | notSection _ => "model_type"
  | missing => "missing"
  | unknownKey => "extra_forbidden"
  | keyNotText => "invalid_key"
  | notList => "list_type"
  | notText => "string_type"
  | textEncoding => "string_unicode"
  | notTruth => "bool_type"
  | unclearTruth => "bool_parsing"
  | notInteger => "int_type"
  | unclearInteger => "int_parsing"
  | fractional => "int_from_float"
  | notFinite => "finite_number"
  | tooLarge => "int_parsing_size"
  | negative => "greater_than_equal"
  | path _ => "value_error"

def message : Cause → String
  | notMapping => "Input should be a valid dictionary"
  | notSection schema => s!"Input should be a valid dictionary or instance of {schema.title}"
  | missing => "Field required"
  | unknownKey => "Extra inputs are not permitted"
  | keyNotText => "Keys should be strings"
  | notList => "Input should be a valid list"
  | notText => "Input should be a valid string"
  | textEncoding =>
    "Input should be a valid string, unable to parse raw data as a unicode string"
  | notTruth => "Input should be a valid boolean"
  | unclearTruth => "Input should be a valid boolean, unable to interpret input"
  | notInteger => "Input should be a valid integer"
  | unclearInteger => "Input should be a valid integer, unable to parse string as an integer"
  | fractional => "Input should be a valid integer, got a number with a fractional part"
  | notFinite => "Input should be a finite number"
  | tooLarge => "Unable to parse input string as an integer, exceeded maximum size"
  | negative => "Input should be greater than or equal to 0"
  | path e => s!"Value error, {e.message}"

end Cause

structure Fault where
  place : List Step
  cause : Cause
  deriving DecidableEq, Repr

structure Invalid where
  schema : Schema
  faults : List Fault
  deriving DecidableEq, Repr

def Step.text : Step → String
  | key name => name
  | number i => toString i

/-- A fault in two lines: its place, and what is wrong there. -/
def Fault.lines (f : Fault) : List String :=
  [".".intercalate (f.place.map (·.text)), s!"  {f.cause.message} [type={f.cause.code}]"]

def Invalid.message (e : Invalid) : String :=
  let errors := if e.faults.length = 1 then "error" else "errors"
  let summary := s!"{e.faults.length} validation {errors} for {e.schema.title}"
  "\n".intercalate (summary :: e.faults.flatMap (·.lines))

abbrev Checked (α : Type) := Except (List Fault) α

namespace Checked

variable {α β : Type}

/-- Both settings, or the faults of both. -/
def both : Checked α → Checked β → Checked (α × β)
  | .ok a, .ok b => .ok (a, b)
  | .ok _, .error fs => .error fs
  | .error fs, .ok _ => .error fs
  | .error fs, .error gs => .error (fs ++ gs)

def within (step : Step) : Checked α → Checked α
  | .ok a => .ok a
  | .error fs => .error (fs.map fun f => { f with place := step :: f.place })

def ofExcept : Except Cause α → Checked α
  | .ok a => .ok a
  | .error c => .error [⟨[], c⟩]

def eachFrom (i : Nat) : List (Checked α) → Checked (List α)
  | [] => .ok []
  | x :: xs =>
    match both (within (.number i) x) (eachFrom (i + 1) xs) with
    | .ok (a, as) => .ok (a :: as)
    | .error fs => .error fs

end Checked

end TreePaths.Settings
