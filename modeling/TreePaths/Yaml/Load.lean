import TreePaths.Yaml.Document
import TreePaths.Yaml.Draft
import TreePaths.Yaml.Merge
import TreePaths.Yaml.Scalar

/-!
Values of YAML documents. Read as a tree, mappings become structs, which keep repeated keys, and
local tags become annotations; read as data, mappings become maps and local tags are refused.

Collections are made empty and wait to be filled, in the order in which they are met; a struct and
what is annotated are made at once, with all that they hold. So of two faults the one in a
collection that waits comes later, and a key may refer to a list that is not filled yet.
-/

namespace TreePaths.Yaml

inductive Reading where
  | tree
  | data
  deriving DecidableEq, Repr

def separatedParts : List Char → List (List Char)
  | [] => [[]]
  | ':' :: ':' :: cs => [] :: separatedParts cs
  | c :: cs => (separatedParts cs).modifyHead (c :: ·)

/-- The annotations that a local tag holds: its parts between `::`, empty ones left out. -/
def annotationParts (text : String) : List String :=
  ((separatedParts text.toList).filter (· ≠ [])).map .ofList

structure Site where
  graph : Graph
  draft : Draft
  /-- The parts made of nodes. -/
  made : Array (Option Part)
  /-- Nodes whose pieces are to be filled, the latest first. -/
  waiting : List (NodeId × Nat)

namespace Site

abbrev Build := StateT Site (Except Fault)

structure Scope where
  around : List NodeId
  atOnce : Bool

def edit {α : Type} (e : Graph.Edit α) : Build α := do
  let s ← get
  let (a, g) ← e.run s.graph
  set { s with graph := g }
  return a

def change (f : Draft → Draft) : Build Unit :=
  modify fun s => { s with draft := f s.draft }

def addPiece (p : Piece) : Build Nat := do
  let k := (← get).draft.size
  change (·.add p)
  return k

def scalarPart (n : NodeId) (text : String) : Value → Part
  | .float .nan => .nan (if isNanWord text then none else some n)
  | v => .scalar v

def makeScalar (read : String → Except Fault Value) (n : NodeId) (text : String) : Build Part := do
  return scalarPart n text (← read text)

def makeText (read : String → Except Fault Value) (n : NodeId) : Build Part := do
  let g := (← get).graph
  let text ← g.text n
  if g.tag n = .timestamp && g.isMapping n then throw .timestampMapping
  makeScalar read n text

def structEntries (n : NodeId) : Build (List Entry) := do
  match (← get).graph.content n with
  | .mapping _ =>
    edit (Graph.flatten n)
    return (← get).graph.entries n
  | .sequence [] => return []
  | .sequence _ => throw .pairsOfSequence
  | .scalar text _ => if text.isEmpty then return [] else throw .pairsOfText

def mapEntries (n : NodeId) : Build (List Entry) := do
  if !(← get).graph.isMapping n then throw .tag
  structEntries n

def items (n : NodeId) : Build (List NodeId) := do
  match (← get).graph.content n with
  | .sequence ns => return ns
  | _ => throw .tag

def singleEntry (n : NodeId) : Build Entry := do
  match (← get).graph.content n with
  | .mapping [e] => return e
  | _ => throw .tag

variable (make : Scope → NodeId → Build Part)

/-- A struct has all that is in it before its fields are named. -/
def makeStruct (scope : Scope) (n : NodeId) : Build Part := do
  let inner := { scope with atOnce := true }
  let parts ← (← structEntries n).mapM fun (k, v) => return (← make inner k, ← make inner v)
  let d := (← get).draft
  let fields ← parts.mapM fun (k, v) => do
    let name := d.shown k
    if name.isWritable then return (name.label, v) else throw .longName
  return .piece (← addPiece (.struct fields))

/-- The content of a node under a local tag: a scalar as if it were not tagged. -/
def makeContent (scope : Scope) (n : NodeId) : Build Part := do
  match (← get).graph.content n with
  | .scalar text plain =>
    match scalarReader? (scalarTag text plain) with
    | some read => makeScalar read n text
    | none => throw .tag
  | .sequence ns =>
    let parts ← ns.mapM (make { scope with atOnce := true })
    return .piece (← addPiece (.list parts))
  | .mapping _ => makeStruct make scope n

/-- Adds the entries of a list of pairs, each given by a mapping that holds nothing else. -/
def fillPairs (scope : Scope) (piece : Nat) : List NodeId → Build Unit
  | [] => return
  | n :: ns => do
    let (k, v) ← singleEntry n
    let e := (← make scope k, ← make scope v)
    change (·.addPair piece e)
    fillPairs scope piece ns

def makeEntries (scope : Scope) (done : List (Part × Part)) :
    List Entry → Build (List (Part × Part))
  | [] => return done
  | (k, v) :: es => do
    let key ← make scope k
    if (← get).draft.isCollection key then throw .tag
    let value ← make scope v
    let d := (← get).draft
    if !d.isKey key then throw .key
    makeEntries scope (Value.insertBy d.sameKey key value done) es

def fill (scope : Scope) (n : NodeId) (piece : Nat) : Build Unit := do
  match (← get).draft.piece piece with
  | .list _ =>
    let parts ← (← items n).mapM (make scope)
    change (·.setPiece piece (.list parts))
  | .pairs _ => fillPairs make scope piece (← items n)
  | .set _ =>
    let es ← makeEntries make scope [] (← mapEntries n)
    change (·.setPiece piece (.set (es.map (·.1))))
  | .map _ =>
    let es ← makeEntries make scope [] (← mapEntries n)
    change (·.setPiece piece (.map es))
  | .struct _ | .annotated .. => return

/-- The collection, empty yet, that a node becomes under its tag. -/
def emptyPiece? (reading : Reading) : Tag → Option Piece
  | .seq => some (.list [])
  | .omap | .pairs => some (.pairs [])
  | .set => some (.set [])
  | .map => if reading = .data then some (.map []) else none
  | _ => none

def makeNew (reading : Reading) (scope : Scope) (n : NodeId) : Build Part := do
  let tag := (← get).graph.tag n
  match scalarReader? tag, emptyPiece? reading tag with
  | some read, _ => makeText read n
  | none, some p =>
    let k ← addPiece p
    if scope.atOnce then fill make scope n k
    else modify fun s => { s with waiting := (n, k) :: s.waiting }
    return .piece k
  | none, none =>
    match reading, tag with
    | .tree, .map => makeStruct make scope n
    | .tree, .localTag text =>
      let content ← makeContent make scope n
      return .piece (← addPiece (.annotated content (annotationParts text)))
    | _, _ => throw .tag

end Site

open Site

/-- The part for a node. The nodes around it differ, so there are no more than `fuel` of them. -/
def make (reading : Reading) : Nat → Scope → NodeId → Build Part
  | 0, _, _ => throw .cycle
  | fuel + 1, scope, n => do
    match (← get).made.getD n none with
    | some p => return p
    | none =>
      if scope.around.contains n then throw .cycle
      let inner := { scope with around := n :: scope.around }
      let p ← makeNew (make reading fuel) reading inner n
      modify fun s => { s with made := s.made.setIfInBounds n (some p) }
      return p

/-- Fills the pieces that wait, and those that come to wait meanwhile. A node waits once at most, so
`fuel` rounds are enough. -/
def finish (reading : Reading) (fuel : Nat) : Nat → Build Unit
  | 0 => throw .cycle
  | rounds + 1 => do
    let s ← get
    if s.waiting.isEmpty then
      return
    else
      set { s with waiting := [] }
      s.waiting.reverse.forM fun (n, k) => fill (make reading fuel) ⟨[], false⟩ n k
      finish reading fuel rounds

def buildFrom (reading : Reading) (root : NodeId) : Build Value := do
  let fuel := (← get).graph.size + 1
  let p ← make reading fuel ⟨[], false⟩ root
  finish reading fuel (fuel + 1)
  return (← get).draft.value p

def build (reading : Reading) (g : Graph) (root : NodeId) : Except Fault Value :=
  (buildFrom reading root).run' ⟨g, .empty, Array.replicate g.size none, []⟩

/-- The values of the documents to come. A document is built before the next one is read. -/
def buildAll (reading : Reading) : Nat → Bool → Composer → Except Fault (List Value)
  | 0, _, _ => throw .placement
  | fuel + 1, first, x =>
    match (Composer.document first).run x with
    | .error e => throw e
    | .ok (none, _) => return []
    | .ok (some n, y) => do
      let v ← build reading y.graph n
      return v :: (← buildAll reading fuel false y)

def loadTrees (cs : List Char) : Except Fault (List Value) :=
  let x := Composer.ofStream (.ofText cs)
  buildAll .tree (x.tokens.length + 2) true x

/-- Loads the only document of a stream as data; a stream without a document is null. -/
def loadData (s : Stream) : Except Fault Value := do
  match ← (Composer.document true).run (.ofStream s) with
  | (none, _) => return .null
  | (some n, x) =>
    if ← Composer.startsNext.run' x then throw .severalDocuments else build .data x.graph n

end TreePaths.Yaml
