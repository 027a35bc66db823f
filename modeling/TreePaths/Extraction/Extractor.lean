import TreePaths.Extraction.Session

/-!
Extraction: one walk over the document under a cursor finds all nodes that the registered search
paths select, and calls the callback of a path on each of its nodes. A callback returns how many
containers the walk is to leave.
-/

namespace TreePaths

structure Options where
  /-- Paths may start in any container, not only at the root. -/
  relative : Bool := false
  /-- Names and annotations are compared without regard to case. -/
  ignoreCase : Bool := false
  deriving DecidableEq, Repr

structure Registration (σ ε : Type) where
  path : SearchPath
  callback : Action σ ε Value

structure Extractor (σ ε : Type) where
  registrations : List (Registration σ ε)
  options : Options

/-- A path of which `matched` components have been matched on the way to a container. -/
structure Candidate (σ ε : Type) where
  order : Nat
  registration : Registration σ ε
  matched : Nat

namespace Candidate

variable {σ ε : Type}

def component? (c : Candidate σ ε) : Option Component :=
  c.registration.path.components[c.matched]?

def isTerminal (c : Candidate σ ε) : Bool :=
  c.registration.path.isTerminal c.matched

def advance (c : Candidate σ ε) : Candidate σ ε :=
  { c with matched := c.matched + 1 }

end Candidate

namespace Registration

variable {σ ε : Type}

/-- The count that a callback returned, if it is an integer between zero and `limit`. The message
that refuses another one tells it, as far as it can be told. -/
def checkCount (r : Registration σ ε) (limit : Nat) : Value → Except (Failure ε) Nat
  | .int n =>
    if 0 ≤ n ∧ n ≤ limit then .ok n.toNat
    else if Text.isWritable n then .error (.violation (.returnRange n limit))
    else .error (.untold n)
  | v => .error (.violation (.returnType r.path v.typeName))

/-- Calls the callback. It must leave the cursor at the same depth, under the same position and, as
far as the cursor tells, at the same ordinal. `base` is the depth at which the walk began. -/
def invoke (r : Registration σ ε) (base : Nat) : Action σ ε Nat := do
  let before ← get
  let depth := before.cursor.depth
  let returned ← r.callback
  let after ← get
  if after.cursor.depth ≠ depth then
    Action.log (.violation .depthChanged r.path)
    throw (.violation (.depthChanged depth after.cursor.depth))
  else if after.cursor.position ≠ before.cursor.position ∨ after.ordinal? ≠ before.ordinal? then
    Action.log (.violation .cursorAdvanced r.path)
    throw (.violation (.cursorAdvanced before.cursor.position))
  else
    match r.checkCount (depth - base) returned with
    | .ok n => return n
    | .error e => throw e

end Registration

namespace Extractor

variable {σ ε : Type}

/-- Candidates of the paths that are not empty, none of their components matched yet. -/
def seeds (x : Extractor σ ε) : List (Candidate σ ε) :=
  (x.registrations.zipIdx.filter fun (r, _) => r.path.length ≠ 0).map fun (r, i) => ⟨i, r, 0⟩

/-- The registrations of empty paths, which select the value that the walk starts on. -/
def onStart (x : Extractor σ ε) : List (Registration σ ε) :=
  x.registrations.filter fun r => r.path.length = 0

def anchors (x : Extractor σ ε) (annotations : List String) (p : SearchPath) : Bool :=
  annotationsHold x.options.ignoreCase p.annotations annotations

def seedsAt (x : Extractor σ ε) (annotations : List String) : List (Candidate σ ε) :=
  x.seeds.filter fun c => x.anchors annotations c.registration.path

/-- Every container is entered, for paths may start anywhere. -/
def entersAll (x : Extractor σ ε) : Bool :=
  x.options.relative && !x.seeds.isEmpty

/-- Candidates in the order of registration; of two of one path the carried one comes first. -/
def merge (carried seeded : List (Candidate σ ε)) : List (Candidate σ ε) :=
  if seeded.isEmpty then carried
  else if carried.isEmpty then seeded
  else (carried ++ seeded).mergeSort fun a b => a.order ≤ b.order

/-- Matches the candidates against a child. Gives the greatest count that a callback returned, and
the candidates that go on below the child. -/
def visit (x : Extractor σ ε) (base : Nat) (position : Option Position)
    (annotations : List String) :
    List (Candidate σ ε) → Action σ ε (Nat × List (Candidate σ ε))
  | [] => return (0, [])
  | c :: cs => do
    if !(c.component?.any fun k => k.accepts x.options.ignoreCase position annotations) then
      x.visit base position annotations cs
    else if c.isTerminal then
      let n ← c.registration.invoke base
      let (m, rest) ← x.visit base position annotations cs
      return (max n m, rest)
    else
      let (m, rest) ← x.visit base position annotations cs
      return (m, c.advance :: rest)

def below (x : Extractor σ ε) (annotations : List String) (carried : List (Candidate σ ε)) :
    List (Candidate σ ε) :=
  if x.options.relative then merge carried (x.seedsAt annotations) else carried

/-- Walks over the remaining children of a container and gives how many containers around it are
still to be left. -/
def walk (x : Extractor σ ε) (base : Nat) : Nat → List (Candidate σ ε) → Action σ ε Nat
  | 0, _ => throw .exhausted
  | fuel + 1, candidates => do
    if !(← Action.next) then
      return 0
    else
      let position ← Action.look (·.cursor.position)
      let annotations ← Action.look (·.cursor.annotations)
      let (count, carried) ← x.visit base position annotations candidates
      if count > 0 then
        let depth ← Action.look (·.cursor.depth)
        Action.log (.stepOut (depth - base) position (count - 1))
        return count - 1
      else if !(← Action.look (·.cursor.isContainer)) then
        x.walk base fuel candidates
      else
        let inner := x.below annotations carried
        if inner.isEmpty && !x.entersAll then
          x.walk base fuel candidates
        else
          Action.stepIn
          let count ← x.walk base fuel inner
          Action.stepOut
          if count > 0 then
            return count - 1
          else
            x.walk base fuel candidates

/-- Steps that a walk may take beyond the size of the document. Only callbacks that lead the cursor
back make use of them. -/
def patience : Nat := 1000000000000

def budget (c : Cursor) : Nat :=
  match c.current? with
  | some v => if v.isFinite then v.nodes + patience else patience
  | none => patience

def visitStart (base : Nat) : List (Registration σ ε) → Action σ ε Unit
  | [] => return
  | r :: rs => do
    let _ ← r.invoke base
    visitStart base rs

def run (x : Extractor σ ε) : Action σ ε Unit := do
  let base ← Action.look (·.cursor.depth)
  if base ≠ 0 ∧ !x.options.relative then
    throw (.violation (.startDepth base))
  else
    let annotations ← Action.look (·.cursor.annotations)
    visitStart base (x.onStart.filter fun r => x.anchors annotations r.path)
    if ← Action.look (·.cursor.isContainer) then
      let candidates := x.seedsAt annotations
      if !candidates.isEmpty || x.entersAll then
        let steps ← Action.look (budget ·.cursor)
        Action.stepIn
        let _ ← x.walk base steps candidates
        Action.stepOut

end Extractor

end TreePaths
