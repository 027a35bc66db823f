import TreePaths.Json.Reader
import TreePaths.Text.Blank
import TreePaths.Text.Lines
import TreePaths.Text.LowerCase
import TreePaths.Text.Quoted
import TreePaths.Yaml.Load

/-!
Document formats: how they are named, which files are of them, and how their texts are loaded.
-/

namespace TreePaths

inductive Format where
  | json
  /-- A JSON document on each line that is not blank. -/
  | jsonLines
  | yaml
  deriving DecidableEq, Repr

inductive LoadError where
  /-- Malformed JSON; of JSON lines, in the line with that number. -/
  | json (line : Option Nat) (fault : Json.Fault) (place : Json.Place)
  /-- An integer in JSON has more digits than can be read. -/
  | digits (count : Nat)
  | yaml (fault : Yaml.Fault)
  deriving DecidableEq, Repr

inductive FormatError where
  | unknownName (name : String)
  | unknownSuffix (suffix : String)
  deriving DecidableEq, Repr

def FormatError.message : FormatError → String
  | unknownName n => s!"Unsupported format: {Text.quoted n}"
  | unknownSuffix s => s!"No adapter for file suffix {Text.quoted s}"

/-- The last part of a path; empty parts and single points do not count. -/
def fileName (path : String) : List Char :=
  (((path.toList.splitOnP (· = '/')).filter fun p => p ≠ [] && p ≠ ['.']).getLast?).getD []

/-- The suffix of a file: the last point of its name and what follows, if something stands before
the point and behind it. -/
def fileSuffix (path : String) : String :=
  let name := fileName path
  let ending := (name.reverse.takeWhile (· ≠ '.')).reverse
  if !ending.isEmpty && ending.length + 1 < name.length then .ofList ('.' :: ending) else ""

namespace Format

/-- All formats, in the order in which suffixes are looked up. -/
def all : List Format := [json, jsonLines, yaml]

def name : Format → String
  | json => "json"
  | jsonLines => "jsonl"
  | yaml => "yaml"

def suffixes : Format → List String
  | json => [".json"]
  | jsonLines => [".jsonl", ".ndjson"]
  | yaml => [".yaml", ".yml"]

def ofName (name : String) : Except FormatError Format :=
  match all.find? (·.name = name) with
  | some f => .ok f
  | none => .error (.unknownName name)

def ofPath (path : String) : Except FormatError Format :=
  let suffix := Text.lower (fileSuffix path)
  match all.find? (·.suffixes.contains suffix) with
  | some f => .ok f
  | none => .error (.unknownSuffix suffix)

/-- Loads a JSON document; `line` is its line among JSON lines. -/
def loadJson (line : Option Nat) (cs : List Char) : Except LoadError Value :=
  match Json.read cs with
  | .ok v => .ok v
  | .error (.malformed fault place) => .error (.json line fault place)
  | .error (.digits count) => .error (.digits count)

def loadLines (n : Nat) : List (List Char) → Except LoadError (List Value)
  | [] => return []
  | l :: ls =>
    match Text.trimBy Text.isBlank l with
    | [] => loadLines (n + 1) ls
    | cs => do
      let v ← loadJson (some n) cs
      return v :: (← loadLines (n + 1) ls)

def isNull : Value → Bool
  | .null => true
  | _ => false

/-- The roots of the documents in a text. In YAML, documents that are null are left out. -/
def load (f : Format) (text : String) : Except LoadError (List Value) :=
  let cs := text.toList
  match f with
  | json => (loadJson none cs).map fun v => [v]
  | jsonLines => loadLines 1 (Text.lines cs)
  | yaml =>
    match Yaml.loadTrees cs with
    | .ok vs => .ok (vs.filter (!isNull ·))
    | .error fault => .error (.yaml fault)

end Format

namespace LoadError

/-- What is wrong, without the format in front. -/
def reason : LoadError → String
  | json none fault place => s!"invalid JSON ({fault.message}: {place.message})"
  | json (some n) fault place => s!"line {n}: invalid JSON ({fault.message}: {place.message})"
  | digits count => Text.digitsMessage count
  | yaml _ => "invalid YAML"

end LoadError

end TreePaths
