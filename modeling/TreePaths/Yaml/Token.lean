/-!
Tokens of a YAML text.
-/

namespace TreePaths.Yaml

inductive Directive where
  | version (major minor : Nat)
  /-- Tags that start with `handle` stand for tags that start with `lead`. -/
  | handle (handle lead : String)
  | other
  deriving DecidableEq, Repr

inductive Token where
  | streamEnd
  | directive (d : Directive)
  | documentStart
  | documentEnd
  | blockSequenceStart
  | blockMappingStart
  | blockEnd
  | flowSequenceStart
  | flowSequenceEnd
  | flowMappingStart
  | flowMappingEnd
  | blockEntry
  | flowEntry
  | key
  | value
  | alias (name : String)
  | anchor (name : String)
  | tag (handle : Option String) (suffix : String)
  /-- A scalar; one that is `plain` is neither quoted nor a block. -/
  | scalar (text : String) (plain : Bool)
  deriving DecidableEq, Repr

end TreePaths.Yaml
