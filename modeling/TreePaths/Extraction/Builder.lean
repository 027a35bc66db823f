import TreePaths.Extraction.Extractor
import TreePaths.Path.Checked

/-!
Builders collect registrations and options, and make extractors of what they hold.
-/

namespace TreePaths

inductive RegistrationFault where
  | noPath
  | noCallback
  | annotationsBesideText
  | annotationsAreText
  | annotations (e : PathError)
  deriving DecidableEq, Repr

def RegistrationFault.message : RegistrationFault → String
  | noPath => "search_path cannot be None"
  | noCallback => "callback must be callable"
  | annotationsBesideText =>
    "annotations cannot be combined with search path text; " ++
      "prefix the text instead, e.g. A::(foo)"
  | annotationsAreText => "annotations must be a list of strings, not a string"
  | annotations e => e.message

inductive BuildError where
  | refused (fault : RegistrationFault)
  | path (e : PathError)
  deriving DecidableEq, Repr

def BuildError.message : BuildError → String
  | refused fault => fault.message
  | path e => e.message

inductive PathArgument where
  | value (v : Value)
  | items (items : List PathItem)

namespace PathArgument

def toItems : PathArgument → Except PathError (List PathItem)
  | items is => .ok is
  | value v => (itemsOf v).map (·.map .other)

def anchor : Value → Except BuildError (List String)
  | .str _ => .error (.refused .annotationsAreText)
  | v =>
    match annotationsOf v with
    | .ok as => .ok as
    | .error .notIterable => .error (.path .notIterable)
    | .error e => .error (.refused (.annotations e))

def resolve (p : PathArgument) (annotations : Value) : Except BuildError SearchPath :=
  match p, annotations with
  | value (.str text), .null => (SearchPath.parse text).mapError .path
  | value (.str _), _ => .error (.refused .annotationsBesideText)
  | p, annotations => do
    let as ← anchor annotations
    (p.toItems >>= (SearchPath.ofItems · as)).mapError .path

end PathArgument

structure Builder (σ ε : Type) where
  registrations : List (Registration σ ε)
  options : Options

namespace Builder

variable {σ ε : Type}

def standard : Builder σ ε :=
  ⟨[], {}⟩

def withRelative (b : Builder σ ε) (on : Bool) : Builder σ ε :=
  { b with options := { b.options with relative := on } }

def withIgnoreCase (b : Builder σ ε) (on : Bool) : Builder σ ε :=
  { b with options := { b.options with ignoreCase := on } }

def push (b : Builder σ ε) (path : SearchPath) (callback : Action σ ε Value) : Builder σ ε :=
  { b with registrations := b.registrations ++ [⟨path, callback⟩] }

/-- Registers a path. A callback that cannot be called is none. -/
def register (b : Builder σ ε) (path : PathArgument) (callback : Option (Action σ ε Value))
    (annotations : Value) : Except BuildError (Builder σ ε) :=
  match path, callback with
  | .value .null, _ => .error (.refused .noPath)
  | _, none => .error (.refused .noCallback)
  | path, some callback => (path.resolve annotations).map (b.push · callback)

def build (b : Builder σ ε) : Extractor σ ε :=
  ⟨b.registrations, b.options⟩

end Builder

end TreePaths
