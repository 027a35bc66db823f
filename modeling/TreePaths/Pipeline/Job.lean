import TreePaths.Pipeline.Run

/-!
Pipelines at work on files: the documents are read from one file, and the report of a call is
written to another one. What a call did to the files and what it logged before it failed remains
done.
-/

namespace TreePaths

inductive SpecArgument where
  | spec (p : PathSpec)
  | value (v : Value)

def SpecArgument.resolve : SpecArgument → Except Settings.Invalid PathSpec
  | spec p => .ok p
  | value v => PathSpec.ofValue v

/-- How extractors are made: search paths are registered one after another with what is there at
first, by means that may fail in ways of their own and may give the callbacks another form. -/
structure Maker (β δ ε : Type) where
  empty : β
  register : β → String → Action Collector ε Value → Except δ β
  build : β → Except δ (Extractor Collector ε)

namespace Maker

variable {β δ ε : Type}

def registerAll (m : Maker β δ ε) (b : β) : List PathSpec → Except δ β
  | [] => .ok b
  | s :: ss => do
    let b ← m.register b s.text s.collect
    m.registerAll b ss

def make (m : Maker β δ ε) (specs : List PathSpec) : Except δ (Extractor Collector ε) := do
  m.build (← m.registerAll m.empty specs)

def standard (o : Options) : Maker (Builder Collector Empty) BuildError Empty where
  empty := (Builder.standard.withRelative o.relative).withIgnoreCase o.ignoreCase
  register b text callback := b.register (.value (.str text)) (some callback) .null
  build b := .ok b.build

end Maker

inductive PlaceError where
  /-- The path is that of a directory. -/
  | directory (path : String)
  /-- The path should be that of a directory, and is that of a file. -/
  | notDirectory (path : String)
  deriving DecidableEq, Repr

inductive JobError (δ ε : Type) where
  | spec (e : Settings.Invalid)
  | noPaths
  | make (e : δ)
  | format (e : FormatError)
  | file (f : Format) (path : String) (e : FileError)
  | walk (e : Failure ε)
  | write (e : Json.WriteError)
  | place (e : PlaceError)

def JobError.ofRun : RunError → JobError BuildError Empty
  | .noPaths => noPaths
  | .path e => make e
  | .format e => format e
  | .file f path e => file f path e
  | .walk e => walk e
  | .write e => write e

/-- What there is under each path, and what has been logged. Paths are in their tidy form. -/
structure Desk where
  files : String → File
  notices : List Notice

def Desk.put (d : Desk) (path : String) (f : File) : Desk :=
  { d with files := fun p => if p = path then f else d.files p }

abbrev Job (δ ε : Type) := Effect Desk (JobError δ ε)

/-- The directories around a path that are named in it, the outermost first. `front` is what stands
before the rest, the latest character first. -/
def directoriesFrom (front : List Char) : List Char → List String
  | [] => []
  | c :: cs =>
    if c = '/' && !front.isEmpty then
      .ofList front.reverse :: directoriesFrom (c :: front) cs
    else directoriesFrom (c :: front) cs

def directories (path : String) : List String :=
  directoriesFrom [] path.toList

namespace Job

variable {δ ε ε' α : Type}

/-- Takes a result, or fails with its error in the form of `f`. -/
def ofExcept (f : ε' → JobError δ ε) : Except ε' α → Job δ ε α
  | .ok a => return a
  | .error e => throw (f e)

def log (notices : List Notice) : Job δ ε Unit :=
  modify fun d => { d with notices := d.notices ++ notices }

def put (path : String) (f : File) : Job δ ε Unit :=
  modify (·.put path f)

def makeDirectory (path : String) : Job δ ε Unit := do
  match (← get).files path with
  | .missing => put path .directory
  | .directory => return
  | .bytes _ => throw (.place (.notDirectory path))

def makeDirectories : List String → Job δ ε Unit
  | [] => return
  | p :: ps => do
    makeDirectory p
    makeDirectories ps

/-- Opens a file to be written. It holds nothing then. -/
def openToWrite (path : String) : Job δ ε Unit := do
  match (← get).files path with
  | .directory => throw (.place (.directory path))
  | _ => put path (.bytes [])

def writeText (path text : String) : Job δ ε Unit := do
  openToWrite path
  put path (.bytes text.toUTF8.toList)

/-- Writes a report to a file. Directories that are missing around it are made. -/
def writeReport (path : String) (r : Report) (timestamp : String) : Job δ ε Unit := do
  makeDirectories (directories path)
  let text ← ofExcept .write (r.text timestamp)
  writeText path text

def collect (x : Extractor Collector ε) (before : Collector) (root : Value) :
    Job δ ε Collector := do
  let (answer, notices) := x.collect before root
  log notices
  ofExcept .walk answer

def collectAll (x : Extractor Collector ε) (n : Nat) (before : Collector) :
    List Value → Job δ ε Collector
  | [] => return before
  | v :: vs => do
    let after ← collect x { before with document := n } v
    collectAll x (n + 1) after vs

end Job

structure PipelineCall where
  documents : String
  output : Option String
  specs : List SpecArgument
  format : Option String

structure Pipeline (β δ ε : Type) where
  maker : Maker β δ ε
  specs : List PathSpec
  format : Option String

namespace Pipeline

variable {β δ ε : Type}

def ofSettings (s : Settings) : Pipeline (Builder Collector Empty) BuildError Empty :=
  ⟨.standard s.options, s.specs, s.format⟩

/-- The name of the format for a call. An empty name is none. -/
def formatOf (p : Pipeline β δ ε) (c : PipelineCall) : Option String :=
  (c.format.filter (· ≠ "") <|> p.format).filter (· ≠ "")

def specsFor (p : Pipeline β δ ε) (c : PipelineCall) : Except (JobError δ ε) (List PathSpec) := do
  let given ← (c.specs.mapM SpecArgument.resolve).mapError .spec
  let specs := p.specs ++ given
  if specs.isEmpty then throw .noPaths else return specs

def prepare (p : Pipeline β δ ε) (c : PipelineCall) :
    Job δ ε (List PathSpec × Extractor Collector ε × Format × List Value) := do
  let specs ← Job.ofExcept id (p.specsFor c)
  let x ← Job.ofExcept .make (p.maker.make specs)
  let f ← Job.ofExcept .format (Format.choose (p.formatOf c) c.documents)
  let content := (← get).files c.documents
  let roots ← Job.ofExcept (.file f c.documents) (content.load f)
  return (specs, x, f, roots)

def report (p : Pipeline β δ ε) (c : PipelineCall) : Job δ ε Report := do
  let (specs, x, f, roots) ← p.prepare c
  let found ← Job.collectAll x 0 .empty roots
  Job.log [.completed roots.length found.records.length]
  return ⟨⟨x.options, specs, p.formatOf c⟩, c.documents, f, roots.length, found.records.reverse⟩

/-- Runs the search paths over the documents, writes the report if there is to be one, and gives the
records of the matches. -/
def run (p : Pipeline β δ ε) (c : PipelineCall) (timestamp : String) : Job δ ε (List Record) := do
  let r ← p.report c
  c.output.forM fun path => Job.writeReport path r timestamp
  return r.records

end Pipeline

end TreePaths
