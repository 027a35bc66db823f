import TreePaths.Cursor
import TreePaths.Effect
import TreePaths.Path.Written

/-!
Sessions: a cursor in use by a walk and by callbacks, with the moves it has made, the events that
were logged and a state of the callbacks' own. A session outlives a failure.
-/

namespace TreePaths

inductive Move where
  | stepIn
  | stepOut
  | next
  deriving DecidableEq, Repr

inductive Breach where
  | depthChanged
  | cursorAdvanced
  deriving DecidableEq, Repr

inductive Event where
  /-- A callback at `position` asked to leave containers; `remaining` are left to leave. -/
  | stepOut (depth : Nat) (position : Option Position) (remaining : Nat)
  | violation (breach : Breach) (path : SearchPath)
  deriving DecidableEq, Repr

inductive Violation where
  | cursor (fault : CursorFault)
  | startDepth (depth : Nat)
  | depthChanged (before after : Nat)
  | cursorAdvanced (position : Option Position)
  | returnType (path : SearchPath) (typeName : String)
  | returnRange (count : Int) (depth : Nat)
  deriving DecidableEq, Repr

namespace Violation

def positionText : Option Position → String
  | none => "None"
  | some p => p.display

def message : Violation → String
  | cursor fault => fault.message
  | startDepth d => s!"Cursor must be at depth zero, it was at depth {d}"
  | depthChanged before after =>
    "Cursor must be at the same depth when returning from a callback. " ++
      s!"initial: {before}, new: {after}"
  | cursorAdvanced p =>
    s!"Callback advanced the cursor past the matched value at {positionText p}"
  | returnType path t => s!"Callback for {path.text} must return an int, got {t}"
  | returnRange count depth =>
    "Callback return must be between zero and the cursor relative depth. " ++
      s!"return: {count}, relative depth: {depth}"

end Violation

inductive Failure (ε : Type) where
  | violation (v : Violation)
  /-- A count is out of range, and has too many digits for the message that should tell it. -/
  | untold (count : Int)
  /-- A callback failed by itself. -/
  | raised (e : ε)
  /-- There is no end: a value holds itself, or callbacks led the cursor back again and again. -/
  | exhausted
  deriving DecidableEq, Repr

def Failure.message : Failure Empty → String
  | violation v => v.message
  | untold _ => Text.untoldMessage
  | exhausted => "The walk has no end"

/-- Moves and events are kept with the latest first. A cursor that is not `indexed` does not tell
its ordinal. -/
structure Session (σ : Type) where
  cursor : Cursor
  indexed : Bool
  moves : List Move
  events : List Event
  state : σ

namespace Session

def start {σ : Type} (root : Value) (indexed : Bool) (state : σ) : Session σ :=
  ⟨.ofRoot root, indexed, [], [], state⟩

def ordinal? {σ : Type} (s : Session σ) : Option Int :=
  if s.indexed then some s.cursor.ordinal else none

end Session

abbrev Action (σ ε : Type) := Effect (Session σ) (Failure ε)

namespace Action

variable {σ ε α : Type}

def failureOf : CursorFault → Failure ε
  | .endless => .exhausted
  | fault => .violation (.cursor fault)

def look (f : Session σ → α) : Action σ ε α := do
  return f (← get)

def log (e : Event) : Action σ ε Unit :=
  modify fun s => { s with events := e :: s.events }

def record (m : Move) : Action σ ε Unit :=
  modify fun s => { s with moves := m :: s.moves }

/-- Moves the cursor, or fails and leaves it where it is. -/
def moveBy (f : Cursor → Except CursorFault Cursor) : Action σ ε Unit := do
  let s ← get
  match f s.cursor with
  | .ok c => set { s with cursor := c }
  | .error fault => throw (failureOf fault)

def stepIn : Action σ ε Unit := do
  record .stepIn
  moveBy Cursor.stepIn

def stepOut : Action σ ε Unit := do
  record .stepOut
  moveBy Cursor.stepOut

/-- Moves to the next sibling and says whether there is one. -/
def next : Action σ ε Bool := do
  record .next
  modify fun s => { s with cursor := s.cursor.next }
  look (·.cursor.isInside)

def value : Action σ ε Value := do
  match (← get).cursor.value with
  | .ok v => return v
  | .error fault => throw (failureOf fault)

end Action

end TreePaths
