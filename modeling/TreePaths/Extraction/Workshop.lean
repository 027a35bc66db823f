import TreePaths.Extraction.Builder

/-!
Builders in use. A builder changes as it is called: it adds registrations to a row of its own, while
an extractor made of it keeps a copy of that row. What a call did before it failed remains done.
-/

namespace TreePaths

variable {σ ε : Type}

inductive BuilderCall (σ ε : Type) where
  | relative (on : Value)
  | ignoreCase (on : Value)
  | register (path : PathArgument) (callback : Option (Action σ ε Value)) (annotations : Value)
  | build

structure Holding where
  row : Nat
  options : Options

structure Workshop (σ ε : Type) where
  rows : List (List (Registration σ ε))
  builder : Holding
  built : List Holding

namespace Workshop

def opened : Workshop σ ε :=
  ⟨[[]], ⟨0, {}⟩, []⟩

def row (w : Workshop σ ε) (n : Nat) : List (Registration σ ε) :=
  w.rows[n]?.getD []

def held (w : Workshop σ ε) : Builder σ ε :=
  ⟨w.row w.builder.row, w.builder.options⟩

def extractors (w : Workshop σ ε) : List (Extractor σ ε) :=
  w.built.map fun h => ⟨w.row h.row, h.options⟩

end Workshop

abbrev Building (σ ε : Type) := Effect (Workshop σ ε) BuildError

namespace Building

def setOptions (f : Options → Options) : Building σ ε Unit :=
  modify fun w => { w with builder := { w.builder with options := f w.builder.options } }

/-- Adds a registration to the row of the builder. -/
def append (r : Registration σ ε) : Building σ ε Unit :=
  modify fun w => { w with rows := w.rows.modify w.builder.row (· ++ [r]) }

/-- Builds an extractor on a new row. -/
def build : Building σ ε Unit :=
  modify fun w =>
    { w with
      rows := w.rows ++ [w.row w.builder.row]
      built := w.built ++ [⟨w.rows.length, w.builder.options⟩] }

def perform : BuilderCall σ ε → Building σ ε Unit
  | .relative on => setOptions ({ · with relative := on.isTruthy })
  | .ignoreCase on => setOptions ({ · with ignoreCase := on.isTruthy })
  | .register (.value .null) _ _ => throw (.refused .noPath)
  | .register _ none _ => throw (.refused .noCallback)
  | .register path (some callback) annotations => do
    let found ← liftExcept (path.resolve annotations)
    append ⟨found, callback⟩
  | .build => build

/-- What becomes of a call, and the workshop after it. -/
def exec (c : BuilderCall σ ε) (w : Workshop σ ε) : Except BuildError Unit × Workshop σ ε :=
  Effect.exec (perform c) w

end Building

/-- The workshop after some calls, whatever became of each. -/
def Workshop.after (w : Workshop σ ε) (calls : List (BuilderCall σ ε)) : Workshop σ ε :=
  calls.foldl (fun w c => (Building.exec c w).2) w

end TreePaths
