import TreePaths.Extraction.Extractor
import TreePaths.Settings.Scalar
import TreePaths.Value.Key

/-!
Settings of an extraction: options, search paths with their step-out counts, and the name of the
format of the documents. `Settings.read` checks a value and `Settings.toValue` is its normal form.
-/

namespace TreePaths

/-- A search path that is to be registered, as a text, and how many containers the walk leaves
after each of its matches. -/
structure PathSpec where
  text : String
  stepOut : Nat
  deriving DecidableEq, Repr

structure Settings where
  options : Options
  specs : List PathSpec
  /-- Without a format, the suffix of a file decides. -/
  format : Option String
  deriving DecidableEq, Repr

namespace Settings

def standard : Settings :=
  ⟨{}, [], none⟩

def readField {α : Type} (name : String) (absent : Checked α) (read : Value → Checked α)
    (v : Value) : Checked α :=
  match v.field? name with
  | some w => .within (.key name) (read w)
  | none => absent

def strayKeys (fields : List String) (entries : List (Value × Value)) : List Fault :=
  entries.filterMap fun (k, _) =>
    match k with
    | .str s => if fields.contains s then none else some ⟨[.key s], .unknownKey⟩
    | k => some ⟨[.ofKey k], .keyNotText⟩

def onlyFields (fields : List String) (entries : List (Value × Value)) : Checked Unit :=
  match strayKeys fields entries with
  | [] => .ok ()
  | faults => .error faults

def readSection {α : Type} (schema : Schema) (fields : List String) (read : Value → Checked α) :
    Value → Checked α
  | .map es => (Checked.both (read (.map es)) (onlyFields fields es)).map (·.1)
  | _ => .error [⟨[], .notSection schema⟩]

/-- A field that is off unless it is given. -/
def readSwitch (name : String) : Value → Checked Bool :=
  readField name (.ok false) fun v => .ofExcept (readTruth v)

def readOptions : Value → Checked Options :=
  readSection .extractor ["match_relative_paths", "match_case_insensitive"] fun v =>
    (Checked.both (readSwitch "match_relative_paths" v) (readSwitch "match_case_insensitive" v)).map
      fun (relative, ignoreCase) => ⟨relative, ignoreCase⟩

def readPath (v : Value) : Except Cause String := do
  let text ← readText v
  match SearchPath.parse text with
  | .ok _ => return text
  | .error e => throw (.path e)

def readSpec : Value → Checked PathSpec :=
  readSection .searchPath ["path", "step_out"] fun v =>
    (Checked.both
      (readField "path" (.error [⟨[.key "path"], .missing⟩]) (fun w => .ofExcept (readPath w)) v)
      (readField "step_out" (.ok 0) (fun w => .ofExcept (readCount w)) v)).map
      fun (text, stepOut) => ⟨text, stepOut⟩

/-- A text in a list of search paths stands for the section that holds it as its path. -/
def expandSpec : Value → Value
  | .str s => .map [(.str "path", .str s)]
  | v => v

/-- The items that are read as search paths. Only in lists may texts stand for sections. -/
def specItems : Value → Except Cause (List Value)
  | .list vs => .ok (vs.map expandSpec)
  | .struct fs => .ok (fs.map fun f => .tuple [.str f.1, f.2])
  | .tuple vs | .set vs => .ok vs
  | _ => .error .notList

def readSpecs (v : Value) : Checked (List PathSpec) :=
  match specItems v with
  | .ok vs => .eachFrom 0 (vs.map readSpec)
  | .error c => .error [⟨[], c⟩]

/-- The name of a format. The empty name is none. -/
def readFormat (v : Value) : Except Cause (Option String) := do
  let name ← readOptionalText v
  return name.filter (· ≠ "")

def fieldNames : List String := ["extractor", "search_paths", "document_format"]

def readFields (v : Value) : Checked Settings :=
  (Checked.both (readField "extractor" (.ok {}) readOptions v)
    (Checked.both (readField "search_paths" (.ok []) readSpecs v)
      (readField "document_format" (.ok none) (fun w => .ofExcept (readFormat w)) v))).map
    fun (options, specs, format) => ⟨options, specs, format⟩

def read (v : Value) : Except Invalid Settings :=
  match v with
  | .map _ => (readSection .whole fieldNames readFields v).mapError (⟨.whole, ·⟩)
  | _ => .error ⟨.whole, [⟨[.key "config"], .notMapping⟩]⟩

def optionsValue (o : Options) : Value :=
  .record [("match_relative_paths", .bool o.relative), ("match_case_insensitive", .bool o.ignoreCase)]

def specValue (s : PathSpec) : Value :=
  .record [("path", .str s.text), ("step_out", .int s.stepOut)]

def toValue (s : Settings) : Value :=
  let specs := if s.specs.isEmpty then [] else [("search_paths", .list (s.specs.map specValue))]
  let format := (s.format.toList.filter (· ≠ "")).map fun f => ("document_format", .str f)
  .record (("extractor", optionsValue s.options) :: specs ++ format)

def withSpecs (s : Settings) (specs : List PathSpec) : Settings :=
  { s with specs := s.specs ++ specs }

def withFormat (s : Settings) (name : Option String) : Settings :=
  { s with format := name.filter (· ≠ "") <|> s.format }

end Settings

namespace PathSpec

/-- A search path with a count of zero. The text is checked when it is registered. -/
def ofText (text : String) : PathSpec :=
  ⟨text, 0⟩

/-- The search path that a value stands for: a text, or a section that is checked. -/
def ofValue : Value → Except Settings.Invalid PathSpec
  | .str s => .ok (ofText s)
  | v => (Settings.readSpec v).mapError (⟨.searchPath, ·⟩)

end PathSpec

end TreePaths
