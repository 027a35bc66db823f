import TreePaths.Value.Display
import TreePaths.Value.Key
import TreePaths.Yaml.Graph

/-!
Values in the making. What is made of other values is a piece, which may be referred to before it
holds anything and may come to hold itself.
-/

namespace TreePaths.Yaml

/-- A part of a draft: a piece of it, or a value without parts. A NaN is the same only as those of
its own origin: of the word for it, or of one node. -/
inductive Part where
  | scalar (v : Value)
  | nan (origin : Option NodeId)
  | piece (number : Nat)

inductive Piece where
  | list (items : List Part)
  /-- A list of pairs. -/
  | pairs (entries : List (Part × Part))
  | set (members : List Part)
  | map (entries : List (Part × Part))
  | struct (fields : List (String × Part))
  | annotated (content : Part) (annotations : List String)

namespace Part

def value (pieces : Nat → Value) : Part → Value
  | scalar v => v
  | nan _ => .float .nan
  | piece k => pieces k

/-- Two parts are the same key, unless they are annotated. -/
def same : Part → Part → Bool
  | scalar v, scalar w => v.sameKey w
  | nan a, nan b => a = b
  | piece k, piece l => k = l
  | _, _ => false

def isPiece : Part → Bool
  | piece _ => true
  | _ => false

end Part

namespace Piece

def value (pieces : Nat → Value) : Piece → Value
  | list ps => .list (ps.map (·.value pieces))
  | pairs es => .list (es.map fun (p, q) => .tuple [p.value pieces, q.value pieces])
  | set ps => .set (Value.arranged (ps.map (·.value pieces)))
  | map es => .map (es.map fun (p, q) => (p.value pieces, q.value pieces))
  | struct fs => .struct (fs.map fun (name, p) => (name, p.value pieces))
  | annotated p as => .annotated (p.value pieces) as

/-- What is shown of a piece within itself. -/
def mark : Piece → String
  | list _ | pairs _ => "[...]"
  | set _ => "set(...)"
  | map _ => "\x7b...\x7d"
  | struct _ => "Struct([...])"
  | annotated .. => "..."

end Piece

structure Draft where
  pieces : Array Piece

namespace Draft

def empty : Draft :=
  ⟨#[]⟩

def size (d : Draft) : Nat :=
  d.pieces.size

def piece (d : Draft) (k : Nat) : Piece :=
  d.pieces.getD k (.list [])

/-- Adds a piece, whose number is the size of the draft before. -/
def add (d : Draft) (p : Piece) : Draft :=
  ⟨d.pieces.push p⟩

def setPiece (d : Draft) (k : Nat) (p : Piece) : Draft :=
  ⟨d.pieces.setIfInBounds k p⟩

def addPair (d : Draft) (k : Nat) (e : Part × Part) : Draft :=
  match d.piece k with
  | .pairs es => d.setPiece k (.pairs (es ++ [e]))
  | _ => d

def isCollection (d : Draft) : Part → Bool
  | .piece k =>
    match d.piece k with
    | .annotated .. => false
    | _ => true
  | _ => false

/-- A part can be a key: it holds no piece, annotated or not. -/
def isKey (d : Draft) : Part → Bool
  | .piece k =>
    match d.piece k with
    | .annotated p _ => !p.isPiece
    | _ => false
  | _ => true

def sameKey (d : Draft) (p q : Part) : Bool :=
  p.same q ||
    match p, q with
    | .piece k, .piece l =>
      match d.piece k, d.piece l with
      | .annotated p as, .annotated q bs => as = bs && p.same q
      | _, _ => false
    | _, _ => false

/-- The value of a piece as it is now, within the pieces `around` it. A piece within itself is not
told again, so it takes no more than `fuel` pieces to get to the end. -/
def shownPiece (d : Draft) : Nat → List Nat → Nat → Value
  | 0, _, k => .endless (d.piece k).mark
  | fuel + 1, around, k =>
    if around.contains k then .endless (d.piece k).mark
    else (d.piece k).value (d.shownPiece fuel (k :: around))

def shown (d : Draft) (p : Part) : Value :=
  p.value (d.shownPiece (d.size + 1) [])

def knownPiece (d : Draft) (known : Array Value) (k : Nat) : Value :=
  known.getD k (.endless (d.piece k).mark)

/-- The values of all pieces, told one piece deeper than the known ones. -/
def deepen (d : Draft) (known : Array Value) : Array Value :=
  d.pieces.map (·.value (d.knownPiece known))

/-- The value of a part, told deeper as long as it has no end, but no more than `fuel` times. -/
def valueWithin (d : Draft) (p : Part) : Nat → Array Value → Value
  | 0, known => p.value (d.knownPiece known)
  | fuel + 1, known =>
    let v := p.value (d.knownPiece known)
    if v.isFinite then v else d.valueWithin p fuel (d.deepen known)

/-- How many pieces within each other are told of a value that has no end. -/
def depth : Nat := 1000

/-- The value of a part. One that has an end holds no more pieces within each other than there are.
-/
def value (d : Draft) (p : Part) : Value :=
  d.valueWithin p (max depth d.size) #[]

end Draft

end TreePaths.Yaml
