import TreePaths.Path.Component
import TreePaths.Path.Error

/-!
Search paths made of values of any type. Each part is checked, and the first one that does not fit
gives the error.
-/

namespace TreePaths

def itemsOf (v : Value) : Except PathError (List Value) :=
  match v.items? with
  | some vs => .ok vs
  | none => .error .notIterable

def checkAnnotations (vs : List Value) : Except PathError (List String) :=
  vs.mapM fun
    | .str s => .ok s
    | v => .error (.annotationType v.typeName)

/-- The annotations that a value stands for: none for null, one for a text, else its items. -/
def annotationsOf : Value → Except PathError (List String)
  | .null => .ok []
  | .str s => .ok [s]
  | v => itemsOf v >>= checkAnnotations

namespace Selector

def fieldOf : Value → Except PathError Selector
  | .str s => .ok (.field s)
  | v => .error (.nameType v.typeName)

def indexOf : Value → Except PathError Selector
  | .int i =>
    if 0 ≤ i then .ok (.index i.toNat)
    else .error (if Text.isWritable i then .negativePosition i else .untold)
  | v => .error (.positionType v.typeName)

end Selector

inductive PathItem where
  | component (c : Component)
  | other (v : Value)

def checkComponents (items : List PathItem) : Except PathError (List Component) :=
  items.mapM fun
    | .component c => .ok c
    | .other v => .error (if v.isWritable then .unsupported v.display else .untold)

namespace SearchPath

def ofItems (items : List PathItem) (annotations : List String) : Except PathError SearchPath :=
  (checkComponents items).map (⟨annotations, ·⟩)

/-- Reads a value that should be the text of a path. -/
def parseValue (parse : String → Except PathError SearchPath) :
    Value → Except PathError SearchPath
  | .str s => parse s
  | v => .error (.notText v.typeName)

end SearchPath

/-- The position that a value stands for: a text is a name, and what equals a natural number an
index. -/
def Value.position? : Value → Option Position
  | .str s => some (.name s)
  | .bool b => some (.index b.toNat)
  | .int (.ofNat n) => some (.index n)
  | .float x =>
    match x.toInt? with
    | some (.ofNat n) => some (.index n)
    | _ => none
  | _ => none

end TreePaths
