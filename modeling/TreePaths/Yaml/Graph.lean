import TreePaths.Yaml.Fault
import TreePaths.Yaml.Tag

/-!
The nodes of a YAML document. An alias stands for the node under its anchor, so that a node may
stand in many places, even within itself.
-/

namespace TreePaths.Yaml

abbrev NodeId := Nat

abbrev Entry := NodeId × NodeId

inductive Content where
  /-- A scalar that is `plain` is neither quoted nor a block. -/
  | scalar (text : String) (plain : Bool)
  | sequence (items : List NodeId)
  | mapping (entries : List Entry)
  deriving DecidableEq, Repr

structure Node where
  tag : Tag
  content : Content
  deriving DecidableEq, Repr

def Node.missing : Node :=
  ⟨.null, .scalar "" true⟩

structure Graph where
  nodes : Array Node

namespace Graph

def empty : Graph :=
  ⟨#[]⟩

def size (g : Graph) : Nat :=
  g.nodes.size

def node (g : Graph) (n : NodeId) : Node :=
  g.nodes.getD n .missing

def tag (g : Graph) (n : NodeId) : Tag :=
  (g.node n).tag

def content (g : Graph) (n : NodeId) : Content :=
  (g.node n).content

/-- The entries of a mapping; no other node has any. -/
def entries (g : Graph) (n : NodeId) : List Entry :=
  match g.content n with
  | .mapping es => es
  | _ => []

def isMapping (g : Graph) (n : NodeId) : Bool :=
  match g.content n with
  | .mapping _ => true
  | _ => false

def add (g : Graph) (x : Node) : Graph :=
  ⟨g.nodes.push x⟩

def setNode (g : Graph) (n : NodeId) (x : Node) : Graph :=
  ⟨g.nodes.setIfInBounds n x⟩

def setTag (g : Graph) (n : NodeId) (t : Tag) : Graph :=
  g.setNode n ⟨t, g.content n⟩

def setEntries (g : Graph) (n : NodeId) (es : List Entry) : Graph :=
  g.setNode n ⟨g.tag n, .mapping es⟩

/-- The text of a node: its own, or that of the value under the key `=` of a mapping. No way to a
text leads over more than `fuel` nodes. -/
def textWithin (g : Graph) : Nat → NodeId → Except Fault String
  | 0, _ => .error .endless
  | fuel + 1, n =>
    match g.content n with
    | .scalar text _ => .ok text
    | .sequence _ => .error .tag
    | .mapping es =>
      match es.find? fun e => g.tag e.1 = .value with
      | none => .error .tag
      | some e => g.textWithin fuel e.2

/-- The text of a node. A way that is longer than there are nodes has no end. -/
def text (g : Graph) (n : NodeId) : Except Fault String :=
  g.textWithin (g.size + 1) n

end Graph

end TreePaths.Yaml
