import TreePaths.Value.Display

/-!
Values as trees: annotations, children, and the plain data that a tree stands for.
-/

namespace TreePaths

inductive Position where
  | name (s : String)
  | index (i : Nat)
  deriving DecidableEq, Repr

namespace Position

def toValue : Position → Value
  | name s => .str s
  | index i => .int i

def display : Position → String
  | name s => Text.quoted s
  | index i => toString i

end Position

namespace Value

def bare : Value → Value
  | annotated v _ => bare v
  | v => v

/-- All annotations of a value, the outermost first. -/
def annotations : Value → List String
  | annotated v as => as ++ annotations v
  | _ => []

def isContainer : Value → Bool
  | list _ | tuple _ | struct _ | map _ | endless _ => true
  | _ => false

def indexed (n : Nat) : List Value → List (Position × Value)
  | [] => []
  | v :: vs => (.index n, v) :: indexed (n + 1) vs

def children : Value → List (Position × Value)
  | list xs | tuple xs => indexed 0 xs
  | struct fs => fs.map fun f => (.name f.1, f.2)
  | map es => es.map fun e => (.name e.1.label, e.2)
  | _ => []

def fieldsNamed (name : String) : Value → List Value
  | struct fs => (fs.filter (·.1 = name)).map (·.2)
  | _ => []

/-- Sets a field. A name that is present keeps its place. -/
def setField (name : String) (v : Value) : List (String × Value) → List (String × Value)
  | [] => [(name, v)]
  | (n, w) :: fs => if n = name then (n, v) :: fs else (n, w) :: setField name v fs

/-- Different names in the order of their first occurrence, each with its last value. -/
def lastFields (fs : List (String × Value)) : List (String × Value) :=
  fs.foldl (fun acc f => setField f.1 f.2 acc) []

def ofFields (fs : List (String × Value)) : Value :=
  map ((lastFields fs).map fun f => (str f.1, f.2))

mutual

/-- Plain data: without annotations, with maps under text keys and lists as the only containers. -/
def plain : Value → Value
  | annotated v _ => plain v
  | struct fs => ofFields (plainFields fs)
  | map es => ofFields (plainEntries es)
  | list xs => list (plainAll xs)
  | tuple xs => list (plainAll xs)
  | v => v

def plainAll : List Value → List Value
  | [] => []
  | v :: vs => plain v :: plainAll vs

def plainFields : List (String × Value) → List (String × Value)
  | [] => []
  | (k, v) :: fs => (k, plain v) :: plainFields fs

def plainEntries : List (Value × Value) → List (String × Value)
  | [] => []
  | (k, v) :: es => (k.label, plain v) :: plainEntries es

end

mutual

/-- The number of nodes of a tree, annotations counted apart. -/
def nodes : Value → Nat
  | annotated v _ => nodes v + 1
  | struct fs => nodesOfFields fs + 1
  | map es => nodesOfEntries es + 1
  | list xs => nodesOfAll xs + 1
  | tuple xs => nodesOfAll xs + 1
  | _ => 1

def nodesOfAll : List Value → Nat
  | [] => 0
  | v :: vs => nodes v + nodesOfAll vs

def nodesOfFields : List (String × Value) → Nat
  | [] => 0
  | (_, v) :: fs => nodes v + nodesOfFields fs

def nodesOfEntries : List (Value × Value) → Nat
  | [] => 0
  | (_, v) :: es => nodes v + nodesOfEntries es

end

end Value

end TreePaths
