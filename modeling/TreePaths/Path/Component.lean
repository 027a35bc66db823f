import TreePaths.Text.Fold
import TreePaths.Value.Tree

/-!
Search paths: components, the annotations that they require, and when a component accepts a child.
-/

namespace TreePaths

inductive Selector where
  | field (name : String)
  | index (position : Nat)
  | wildcard
  deriving DecidableEq, Repr

structure Component where
  selector : Selector
  annotations : List String
  deriving DecidableEq, Repr

/-- A row of components from an anchor downwards. The annotations are those that the anchor must
carry: the root, or any container when matching is relative. -/
structure SearchPath where
  annotations : List String
  components : List Component
  deriving DecidableEq, Repr

namespace SearchPath

def length (p : SearchPath) : Nat :=
  p.components.length

def isTerminal (p : SearchPath) (i : Int) : Bool :=
  i = p.length - 1

end SearchPath

def compared (ignoreCase : Bool) (s : String) : String :=
  if ignoreCase then Text.fold s else s

def sameName (ignoreCase : Bool) (a b : String) : Bool :=
  compared ignoreCase a == compared ignoreCase b

def annotationsHold (ignoreCase : Bool) (required present : List String) : Bool :=
  required.all fun a => present.any (sameName ignoreCase a)

/-- The selector accepts a position; without a position only the wildcard does. -/
def Selector.accepts (ignoreCase : Bool) : Selector → Option Position → Bool
  | field n, some (.name m) => sameName ignoreCase n m
  | index i, some (.index j) => i == j
  | wildcard, _ => true
  | _, _ => false

def Component.accepts (ignoreCase : Bool) (c : Component) (p : Option Position)
    (present : List String) : Bool :=
  c.selector.accepts ignoreCase p && annotationsHold ignoreCase c.annotations present

end TreePaths
