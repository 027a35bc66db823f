import TreePaths.Path.Grammar

/-!
The text form of search paths.
-/

namespace TreePaths

def isNameStart (c : Char) : Bool :=
  c.isAlpha || c = '_' || c = '$'

def isNameChar (c : Char) : Bool :=
  isNameStart c || c.isDigit

/-- A letter, `_` or `$`, and then letters, digits, `_` or `$`, all of them ASCII. -/
def isIdentifier : List Char → Bool
  | [] => false
  | c :: cs => isNameStart c && cs.all isNameChar

/-- The text is written without quotes: an identifier, which one line feed may follow, other than
the field escape. -/
def isBareName (s : String) : Bool :=
  let cs := s.toList
  (isIdentifier cs || (cs.getLast? = some '\n' && isIdentifier cs.dropLast)) && s ≠ fieldEscape

def escapeQuoted : List Char → List Char
  | [] => []
  | c :: cs => if c = '\\' || c = '\'' then '\\' :: c :: escapeQuoted cs else c :: escapeQuoted cs

def writeName (s : String) : String :=
  if isBareName s then s else .ofList ('\'' :: (escapeQuoted s.toList ++ ['\'']))

def writeAnnotations (annotations : List String) : String :=
  .join (annotations.map fun a => writeName a ++ "::")

namespace Component

def text (c : Component) : String :=
  writeAnnotations c.annotations ++
    match c.selector with
    | .field n => writeName n
    | .index i => toString i
    | .wildcard => "*"

def kindName (c : Component) : String :=
  match c.selector with
  | .field _ => "Field"
  | .index _ => "Index"
  | .wildcard => "Wildcard"

end Component

def SearchPath.text (p : SearchPath) : String :=
  writeAnnotations p.annotations ++ "(" ++ " ".intercalate (p.components.map (·.text)) ++ ")"

end TreePaths
