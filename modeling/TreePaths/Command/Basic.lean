import TreePaths.Command.Options
import TreePaths.Document.File

/-!
Commands: `run` takes search paths and a file of documents, `check` a search path.
-/

namespace TreePaths

structure RunRequest where
  documents : String
  output : Option String
  paths : List String
  config : Option String
  format : Option String
  relative : Option Bool
  ignoreCase : Option Bool
  stepOut : Nat
  deriving DecidableEq, Repr

inductive Command where
  | help
  | run (r : RunRequest)
  | check (text : String)
  deriving DecidableEq, Repr

namespace Command

def runOptions : OptionSet where
  valued := ["--documents", "--output", "--path", "--config", "--format", "--step-out",
    "--log-level"]
  switches := ["--relative", "--absolute", "--case-insensitive", "--case-sensitive", "--help"]
  letters := [('p', "--path")]

def checkOptions : OptionSet where
  valued := []
  switches := ["--help"]
  letters := []

def existing (files : String → File) (path : String) : Except UsageError Unit :=
  match files path with
  | .missing => .error (.noFile path)
  | .directory => .error (.directory path)
  | .bytes _ => .ok ()

/-- Checks that a path can be that of a file to be written. The empty path is the directory that
the program runs in. -/
def writable (files : String → File) (path : String) : Except UsageError Unit :=
  if path.isEmpty then .error (.directory path)
  else
    match files path with
    | .directory => .error (.directory path)
    | _ => .ok ()

def ofRunArguments (files : String → File) (arguments : List String) :
    Except UsageError Command := do
  let (given, rest) ← runOptions.scan arguments
  if given.contains (.switch "--help") then return .help
  let some documents := valueOf "--documents" given | throw (.missing "option '--documents'")
  existing files documents
  let output := valueOf "--output" given
  output.forM (writable files)
  let config := valueOf "--config" given
  config.forM (existing files)
  let stepOut ← (valueOf "--step-out" given).elim (return 0) readCount
  match rest with
  | a :: _ => throw (.extraArgument a)
  | [] =>
    return .run {
      documents, output, config, stepOut
      paths := valuesOf "--path" given
      format := valueOf "--format" given
      relative := switchOf "--relative" "--absolute" given
      ignoreCase := switchOf "--case-insensitive" "--case-sensitive" given }

def ofCheckArguments (arguments : List String) : Except UsageError Command := do
  let (given, rest) ← checkOptions.scan arguments
  if given.contains (.switch "--help") then return .help
  match rest with
  | [] => throw (.missing "argument 'TEXT'")
  | [text] => return .check text
  | _ :: a :: _ => throw (.extraArgument a)

def ofName (files : String → File) (name : String) (arguments : List String) :
    Except UsageError Command :=
  match name with
  | "run" => ofRunArguments files arguments
  | "check" => ofCheckArguments arguments
  | _ => .error (.unknownCommand name)

def ofArguments (files : String → File) : List String → Except UsageError Command
  | [] | ["--"] => .error .noCommand
  | "--" :: name :: as => ofName files name as
  | name :: as =>
    if name = "--help" then .ok .help
    else if isOption name then .error (.unknownOption name)
    else ofName files name as

end Command

end TreePaths
