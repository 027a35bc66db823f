import TreePaths.Command.Basic
import TreePaths.Pipeline.Run
import TreePaths.Settings.File

/-!
What commands print, write and end with.
-/

namespace TreePaths

inductive EntriesFault where
  | notIterable
  | itemNotIterable (number : Nat)
  | itemLength (number length : Nat)
  | itemKey (number : Nat)
  deriving DecidableEq, Repr

def EntriesFault.message : EntriesFault → String
  | notIterable => "value is not iterable"
  | itemNotIterable n => s!"item {n} is no pair"
  | itemLength n k => s!"item {n} has {k} parts; a pair has two"
  | itemKey n => s!"item {n} has no key"

inductive Crash where
  | path (e : PathError)
  | config (e : Settings.FileFault)
  | entries (e : EntriesFault)
  | run (e : RunError)
  /-- An integer has too many digits to be printed. -/
  | longInteger

def Crash.message : Crash → String
  | path e => e.message
  | config e => e.message "of settings"
  | entries e => e.message
  | run e => e.message
  | longInteger => s!"an integer has more than {Text.digitLimit} digits"

inductive Ending where
  | done
  | failed (message : String)
  | crashed (cause : Crash)

structure Reply where
  lines : List String
  ending : Ending
  output : Option String

namespace Reply

/-- Drops the control sequences of terminals: an escape, a bracket, parameters and a letter.
`pending` is the start of such a sequence, the latest character first. -/
def dropControls : List Char → List Char → List Char
  | pending, [] => pending.reverse
  | [], c :: cs => if c = '\x1b' then dropControls [c] cs else c :: dropControls [] cs
  | p :: pending, c :: cs =>
    if pending.isEmpty && c = '[' then dropControls [c, p] cs
    else if !pending.isEmpty && (c.isDigit || c = ';' || c = '?') then
      dropControls (c :: p :: pending) cs
    else if !pending.isEmpty && c.isAlpha then dropControls [] cs
    else
      (p :: pending).reverse ++ if c = '\x1b' then dropControls [c] cs else c :: dropControls [] cs

def text (r : Reply) : String :=
  .ofList (r.lines.flatMap fun l => dropControls [] l.toList ++ ['\n'])

end Reply

namespace PathError

/-- The error is about the path itself, and not about a limit. -/
def isReported : PathError → Bool
  | digits _ | notIterable | untold => false
  | _ => true

end PathError

namespace LoadError

def isReported : LoadError → Bool
  | json .. => true
  | digits _ => false
  | yaml fault => fault.isMalformed

end LoadError

namespace RunError

def isReported : RunError → Bool
  | noPaths | format _ | walk (.violation _) => true
  | walk (.untold _) | walk .exhausted => false
  | path (.refused _) => true
  | path (.path e) => e.isReported
  | file _ _ .missing | file _ _ .directory => true
  | file _ _ .encoding => false
  | file _ _ (.load e) => e.isReported
  | write _ => false

end RunError

def Settings.FileFault.isReported : Settings.FileFault → Bool
  | encoding => false
  | yaml fault => fault.isMalformed
  | notMapping => true

namespace Command

/-- Two keys of pairs are the same; here one NaN is as good as another. -/
def samePairKey : Value → Value → Bool
  | .float .nan, .float .nan => true
  | k, l => k.sameKey l

def addPairs (n : Nat) (entries : List (Value × Value)) :
    List Value → Except EntriesFault (List (Value × Value))
  | [] => .ok entries
  | v :: vs =>
    match v.items? with
    | none => .error (.itemNotIterable n)
    | some [k, w] =>
      if k.isKey then addPairs (n + 1) (Value.insertBy samePairKey k w entries) vs
      else .error (.itemKey n)
    | some ws => .error (.itemLength n ws.length)

/-- The entries of a section: those of a map, or pairs one after another. What counts as false has
no entries. -/
def sectionEntries (v : Value) : Except EntriesFault (List (Value × Value)) :=
  if !v.isTruthy then .ok []
  else
    match v with
    | .map es => .ok es
    | v =>
      match v.items? with
      | none => .error .notIterable
      | some vs => addPairs 0 [] vs

def setSwitch (name : String) (on : Option Bool) (entries : List (Value × Value)) :
    List (Value × Value) :=
  match on with
  | none => entries
  | some b => Value.insertKey (.str name) (.bool b) entries

/-- The settings of a config file, changed by the switches that are given. -/
def requested (r : RunRequest) (entries : List (Value × Value)) : Except EntriesFault Value := do
  let own ← sectionEntries (((Value.map entries).field? "extractor").getD .null)
  let own := setSwitch "match_relative_paths" r.relative own
  let own := setSwitch "match_case_insensitive" r.ignoreCase own
  return .map (Value.insertKey (.str "extractor") (.map own) entries)

def recordLine (r : Record) : String :=
  s!"{r.path} {(Value.list (r.location.map Position.toValue)).display} {r.value.display}"

def componentLine (c : Component) (number : Nat) : String :=
  s!"{number}: {c.kindName} {c.text}"

def pathLines (p : SearchPath) : List String :=
  let anchor :=
    if p.annotations.isEmpty then []
    else ["anchor annotations: " ++ writeAnnotations p.annotations]
  let root := if p.components.isEmpty then ["matches the root value"] else []
  anchor ++ root ++ (p.components.zipIdx 1).map fun (c, i) => componentLine c i

def executeCheck (text : String) : Reply :=
  match SearchPath.parse text with
  | .ok p => ⟨pathLines p, .done, none⟩
  | .error e =>
    if e.isReported then ⟨[], .failed ("Invalid: " ++ e.message), none⟩
    else ⟨[], .crashed (.path e), none⟩

def stop (isReported : Bool) (message : String) (cause : Crash) : Reply :=
  ⟨[], if isReported then .failed ("Error: " ++ message) else .crashed cause, none⟩

/-- What is printed of a report. The matches are left out if they are written; a match that cannot
be printed is the end. -/
def reportReply (r : Report) (output : Option String) : Reply :=
  let printed := if output.isSome then [] else r.records
  let good := printed.takeWhile (·.value.isWritable)
  if good.length = printed.length then
    ⟨good.map recordLine ++ [s!"Found {r.records.length} matches."], .done, output⟩
  else
    ⟨good.map recordLine, .crashed .longInteger, output⟩

def extract (files : String → File) (timestamp : String) (r : RunRequest) (s : Settings) : Reply :=
  let specs := r.paths.map fun text => ⟨text, r.stepOut⟩
  let settings := (s.withSpecs specs).withFormat r.format
  let file : DocumentFile := ⟨tidyPath r.documents, files r.documents⟩
  let o := if r.output.isSome then settings.runTo file timestamp none else settings.runOnly file
  match o.answer with
  | .error e => stop e.isReported e.message (.run e)
  | .ok report => reportReply report o.output

def configEntries (files : String → File) :
    Option String → Except Settings.FileFault (List (Value × Value))
  | none => .ok []
  | some path =>
    match files path with
    | .bytes bs => Settings.fileEntries bs
    | _ => .ok []

def executeRun (files : String → File) (timestamp : String) (r : RunRequest) : Reply :=
  match configEntries files r.config with
  | .error e => stop e.isReported (e.message (tidyPath (r.config.getD ""))) (.config e)
  | .ok entries =>
    match requested r entries with
    | .error e => stop false e.message (.entries e)
    | .ok v =>
      match Settings.read v with
      | .error e => ⟨[], .failed ("Error: " ++ e.message), none⟩
      | .ok s => extract files timestamp r s

def usage : List String := [
  "run --documents FILE [--output FILE] [-p PATH]... [--config FILE] [--format NAME]",
  "    [--relative|--absolute] [--case-insensitive|--case-sensitive] [--step-out COUNT]",
  "check TEXT"]

def execute (files : String → File) (timestamp : String) : Command → Reply
  | help => ⟨usage, .done, none⟩
  | .run r => executeRun files timestamp r
  | .check text => executeCheck text

end Command

end TreePaths
