import TreePaths.Document.File
import TreePaths.Json.Writer
import TreePaths.Pipeline.Record

/-!
Runs of all search paths over all documents of a file, and the reports on them.
-/

namespace TreePaths

inductive Notice where
  | walk (e : Event)
  | document (number : Nat) (matched : Nat)
  | completed (documents : Nat) (matched : Nat)
  deriving DecidableEq, Repr

inductive RunError where
  | noPaths
  | path (e : BuildError)
  | format (e : FormatError)
  | file (f : Format) (path : String) (e : FileError)
  | walk (e : Failure Empty)
  | write (e : Json.WriteError)

def RunError.message : RunError → String
  | noPaths => "At least one search path is required"
  | path e => e.message
  | format e => e.message
  | file f p e => s!"{f.name}: {e.message p}"
  | walk e => e.message
  | write e => e.message

structure DocumentFile where
  path : String
  content : File
  deriving DecidableEq, Repr

structure Report where
  settings : Settings
  path : String
  format : Format
  documents : Nat
  records : List Record

def reportVersion : String := "0.1.0"

namespace Report

def metadata (r : Report) (timestamp : String) : Value :=
  .record [
    ("documents_path", .str r.path), ("format", .str r.format.name),
    ("document_count", .int r.documents), ("match_count", .int r.records.length),
    ("search_paths", .list (r.settings.specs.map fun s => .str s.text)),
    ("match_relative_paths", .bool r.settings.options.relative),
    ("match_case_insensitive", .bool r.settings.options.ignoreCase),
    ("timestamp", .str timestamp), ("app_version", .str reportVersion)]

def results (r : Report) : Value :=
  .list (r.records.map Record.toValue)

def text (r : Report) (timestamp : String) : Except Json.WriteError String :=
  Json.write (.record [("metadata", r.metadata timestamp), ("results", r.results)])

end Report

/-- Goes through one document, and tells what is logged meanwhile. The matches are added to those
that have been collected before. -/
def Extractor.collect {ε : Type} (x : Extractor Collector ε) (before : Collector) (root : Value) :
    Except (Failure ε) Collector × List Notice :=
  let (answer, s) := x.run.run (.start root true before)
  let events := s.events.reverse.map .walk
  match answer with
  | .ok _ =>
    let found := s.state.records.length - before.records.length
    (.ok s.state, events ++ [.document before.document found])
  | .error e => (.error e, events)

/-- Goes through documents of which the first has the number `n`, one after another with the same
collector. -/
def Extractor.collectAll {ε : Type} (x : Extractor Collector ε) (n : Nat) (before : Collector) :
    List Value → Except (Failure ε) Collector × List Notice
  | [] => (.ok before, [])
  | v :: vs =>
    match x.collect { before with document := n } v with
    | (.error e, notices) => (.error e, notices)
    | (.ok after, notices) =>
      let (answer, more) := x.collectAll (n + 1) after vs
      (answer, notices ++ more)

namespace Settings

/-- The documents that a run is to go over, once its search paths and its format are found good. -/
def prepare (s : Settings) (file : DocumentFile) :
    Except RunError (Extractor Collector Empty × Format × List Value) := do
  if s.specs.isEmpty then throw .noPaths
  let x ← s.extractor.mapError .path
  let f ← (Format.choose s.format file.path).mapError .format
  let roots ← (file.content.load f).mapError (.file f file.path)
  return (x, f, roots)

def run (s : Settings) (file : DocumentFile) : Except RunError Report × List Notice :=
  match s.prepare file with
  | .error e => (.error e, [])
  | .ok (x, f, roots) =>
    match x.collectAll 0 .empty roots with
    | (.error e, notices) => (.error (.walk e), notices)
    | (.ok t, notices) =>
      (.ok ⟨s, file.path, f, roots.length, t.records.reverse⟩,
        notices ++ [.completed roots.length t.records.length])

/-- A run with an output file. The output is what the file holds afterwards, if there is one. -/
structure Outcome where
  answer : Except RunError Report
  notices : List Notice
  output : Option String

def runOnly (s : Settings) (file : DocumentFile) : Outcome :=
  let (answer, notices) := s.run file
  ⟨answer, notices, none⟩

/-- Runs the search paths and writes the report to a file, which held `before`. Without a report,
or if the report cannot be written, the file stays as it is. -/
def runTo (s : Settings) (file : DocumentFile) (timestamp : String) (before : Option String) :
    Outcome :=
  match s.run file with
  | (.error e, notices) => ⟨.error e, notices, before⟩
  | (.ok report, notices) =>
    match report.text timestamp with
    | .error e => ⟨.error (.write e), notices, before⟩
    | .ok text => ⟨.ok report, notices, some text⟩

end Settings

end TreePaths
