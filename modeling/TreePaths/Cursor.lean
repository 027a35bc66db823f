import TreePaths.Value.Tree

/-!
A cursor over a document: it stands on the root or in a container that it has stepped into, before,
on or behind the children there, and moves into a container, out of it, or to the next sibling.
-/

namespace TreePaths

/-- The children of a container and how many of them the cursor has come to, the one it stands on
included. Behind the last child the count is one more than there are children. -/
structure Frame where
  entries : List (Option Position × Value)
  reached : Nat

namespace Frame

def current? (f : Frame) : Option (Option Position × Value) :=
  match f.reached with
  | 0 => none
  | n + 1 => f.entries[n]?

/-- The index of the current child among its siblings; -1 before the first one. -/
def ordinal (f : Frame) : Int :=
  f.reached - 1

/-- The frame before the first child of a container. -/
def opened (v : Value) : Frame :=
  ⟨v.children.map fun (p, w) => (some p, w), 0⟩

def advanced (f : Frame) : Frame :=
  { f with reached := min (f.reached + 1) (f.entries.length + 1) }

end Frame

/-- The innermost frame and those around it, from the inside outwards. The outermost one holds the
root alone. -/
structure Cursor where
  frame : Frame
  outer : List Frame

inductive CursorFault where
  | nowhere
  | stepInNowhere
  | stepIntoScalar (typeName : String)
  | stepOutOfRoot
  /-- The current value holds itself. -/
  | endless
  deriving DecidableEq, Repr

def CursorFault.message : CursorFault → String
  | nowhere => "Cursor is not positioned on a value"
  | stepInNowhere => "Cannot step in: cursor is not positioned on a value"
  | stepIntoScalar t => s!"Cannot step into a {t} value"
  | stepOutOfRoot => "Cannot step out at depth zero"
  | endless => "The value has no end"

namespace Cursor

def ofRoot (root : Value) : Cursor :=
  ⟨⟨[(none, root)], 1⟩, []⟩

def depth (c : Cursor) : Nat :=
  c.outer.length

def current? (c : Cursor) : Option Value :=
  c.frame.current?.map (·.2)

/-- Name or index of the current value; the root has none. -/
def position (c : Cursor) : Option Position :=
  c.frame.current?.bind (·.1)

def ordinal (c : Cursor) : Int :=
  c.frame.ordinal

def annotations (c : Cursor) : List String :=
  (c.current?.map Value.annotations).getD []

def isContainer (c : Cursor) : Bool :=
  (c.current?.map fun v => v.bare.isContainer).getD false

def value (c : Cursor) : Except CursorFault Value :=
  match c.current? with
  | none => .error .nowhere
  | some v => if v.isFinite then .ok v.plain else .error .endless

/-- The frames from the root inwards. -/
def frames (c : Cursor) : List Frame :=
  (c.frame :: c.outer).reverse

def location (c : Cursor) : List Position :=
  (c.frames.drop 1).filterMap fun f => f.current?.bind (·.1)

/-- Enters the current container, before its first child. -/
def stepIn (c : Cursor) : Except CursorFault Cursor :=
  match c.current? with
  | none => .error .stepInNowhere
  | some v =>
    match v.bare with
    | .endless _ => .error .endless
    | w =>
      if w.isContainer then .ok ⟨.opened w, c.frame :: c.outer⟩
      else .error (.stepIntoScalar w.typeName)

def stepOut (c : Cursor) : Except CursorFault Cursor :=
  match c.outer with
  | [] => .error .stepOutOfRoot
  | f :: fs => .ok ⟨f, fs⟩

def next (c : Cursor) : Cursor :=
  { c with frame := c.frame.advanced }

/-- The cursor stands on a child or before the first one, not behind the last one. -/
def isInside (c : Cursor) : Bool :=
  c.frame.reached ≤ c.frame.entries.length

end Cursor

end TreePaths
