import TreePaths.Yaml.Graph
import TreePaths.Yaml.Implicit
import TreePaths.Yaml.Token.Lexer

/-!
The documents of a YAML text, each as a graph of nodes and its root.
-/

namespace TreePaths.Yaml

structure Composer where
  tokens : List Token
  fault : Option Fault
  graph : Graph
  anchors : List (String × NodeId)
  handles : List (String × String)

namespace Composer

abbrev Step := StateT Composer (Except Fault)

def defaultHandles : List (String × String) :=
  [("!", "!"), ("!!", Tag.coreSpace)]

def ofStream (s : Stream) : Composer :=
  let ts := Tokens.ofStream s
  ⟨ts.tokens, ts.fault, .empty, [], defaultHandles⟩

def peek : Step Token := do
  let x ← get
  match x.tokens with
  | t :: _ => return t
  | [] => throw (x.fault.getD .placement)

def advance : Step Unit :=
  modify fun x => { x with tokens := x.tokens.drop 1 }

def accept (t : Token) : Step Bool := do
  if (← peek) = t then
    advance
    return true
  else
    return false

def sees (ts : List Token) : Step Bool := do
  return ts.contains (← peek)

def expect (t : Token) : Step Unit := do
  if !(← accept t) then throw .placement

structure Properties where
  anchor : Option String
  tag : Option String

def tagText (handle : Option String) (suffix : String) : Step String := do
  match handle with
  | none => return suffix
  | some h =>
    match (← get).handles.lookup h with
    | some lead => return lead ++ suffix
    | none => throw .undefinedHandle

/-- Reads an anchor and a tag in front of a node, in either order. -/
def properties : Step Properties := do
  match ← peek with
  | .anchor a =>
    advance
    match ← peek with
    | .tag h s =>
      advance
      return ⟨some a, some (← tagText h s)⟩
    | _ => return ⟨some a, none⟩
  | .tag h s =>
    advance
    match ← peek with
    | .anchor a =>
      advance
      return ⟨some a, some (← tagText h s)⟩
    | _ => return ⟨none, some (← tagText h s)⟩
  | _ => return ⟨none, none⟩

/-- The tag of a node that is tagged with `tag`, where `missing` is that of an untagged one. A lone
mark is no tag. -/
def tagOr (tag : Option String) (missing : Tag) : Tag :=
  match tag with
  | none | some "!" => missing
  | some uri => .ofText uri

/-- The tag of a scalar. One that is tagged with a lone mark counts as plain. -/
def tagOfScalar (tag : Option String) (text : String) (plain : Bool) : Tag :=
  tagOr tag (scalarTag text (plain || tag = some "!"))

def addNode (x : Node) : Step NodeId := do
  let n := (← get).graph.size
  modify fun y => { y with graph := y.graph.add x }
  return n

def addMissing : Step NodeId :=
  addNode .missing

def addAnchored (anchor : Option String) (x : Node) : Step NodeId := do
  let y ← get
  if anchor.any fun a => (y.anchors.lookup a).isSome then throw .repeatedAnchor
  let n ← addNode x
  modify fun y => { y with anchors := (anchor.map fun a => (a, n)).toList ++ y.anchors }
  return n

/-- The node under an anchor, which may be one that is being put together. -/
def aliased (name : String) : Step NodeId := do
  match (← get).anchors.lookup name with
  | none => throw .undefinedAlias
  | some n => return n

def collect (anchor : Option String) (tag : Tag) (content : Step Content) : Step NodeId := do
  let n ← addAnchored anchor ⟨tag, .sequence []⟩
  let c ← content
  modify fun y => { y with graph := y.graph.setNode n ⟨tag, c⟩ }
  return n

mutual

/-- Reads a node. Block collections are allowed only if `block`; a sequence that is not indented
only if `unindented`. -/
def node : Nat → Bool → Bool → Step NodeId
  | 0, _, _ => throw .placement
  | fuel + 1, block, unindented => do
    match ← peek with
    | .alias name =>
      advance
      aliased name
    | _ =>
      let ⟨anchor, tag⟩ ← properties
      match block, unindented, ← peek with
      | _, true, .blockEntry =>
        collect anchor (tagOr tag .seq) (return .sequence (← unindentedItems fuel []))
      | _, _, .scalar text plain =>
        advance
        addAnchored anchor ⟨tagOfScalar tag text plain, .scalar text plain⟩
      | _, _, .flowSequenceStart =>
        advance
        collect anchor (tagOr tag .seq) (return .sequence (← flowItems fuel true []))
      | _, _, .flowMappingStart =>
        advance
        collect anchor (tagOr tag .map) (return .mapping (← flowEntries fuel true []))
      | true, _, .blockSequenceStart =>
        advance
        collect anchor (tagOr tag .seq) (return .sequence (← blockItems fuel []))
      | true, _, .blockMappingStart =>
        advance
        collect anchor (tagOr tag .map) (return .mapping (← blockEntries fuel []))
      | _, _, _ =>
        if anchor.isNone && tag.isNone then throw .placement
        addAnchored anchor ⟨tagOfScalar tag "" true, .scalar "" true⟩

def nodeUnless : Nat → Bool → Bool → List Token → Step NodeId
  | 0, _, _, _ => throw .placement
  | fuel + 1, block, unindented, ts => do
    if ← sees ts then addMissing else node fuel block unindented

/-- The items of a block sequence; `done` are those read so far, the last one first. -/
def blockItems : Nat → List NodeId → Step (List NodeId)
  | 0, _ => throw .placement
  | fuel + 1, done => do
    if ← accept .blockEntry then
      let n ← nodeUnless fuel true false [.blockEntry, .blockEnd]
      blockItems fuel (n :: done)
    else
      expect .blockEnd
      return done.reverse

/-- The items of a sequence that is not indented, which ends before what is no item. -/
def unindentedItems : Nat → List NodeId → Step (List NodeId)
  | 0, _ => throw .placement
  | fuel + 1, done => do
    if ← accept .blockEntry then
      let n ← nodeUnless fuel true false [.blockEntry, .key, .value, .blockEnd]
      unindentedItems fuel (n :: done)
    else
      return done.reverse

def blockEntries : Nat → List Entry → Step (List Entry)
  | 0, _ => throw .placement
  | fuel + 1, done => do
    if ← accept .key then
      let k ← nodeUnless fuel true true [.key, .value, .blockEnd]
      let v ←
        if ← accept .value then nodeUnless fuel true true [.key, .value, .blockEnd]
        else addMissing
      blockEntries fuel ((k, v) :: done)
    else
      expect .blockEnd
      return done.reverse

/-- A key and its value in a flow collection that ends with `closing`. -/
def flowPair : Nat → Token → Step Entry
  | 0, _ => throw .placement
  | fuel + 1, closing => do
    let k ← nodeUnless fuel false false [.value, .flowEntry, closing]
    if ← accept .value then
      return (k, ← nodeUnless fuel false false [.flowEntry, closing])
    else
      return (k, ← addMissing)

def flowItems : Nat → Bool → List NodeId → Step (List NodeId)
  | 0, _, _ => throw .placement
  | fuel + 1, first, done => do
    if ← accept .flowSequenceEnd then
      return done.reverse
    else
      if !first then expect .flowEntry
      if ← accept .key then
        let pair ← flowPair fuel .flowSequenceEnd
        let n ← addNode ⟨.map, .mapping [pair]⟩
        flowItems fuel false (n :: done)
      else if ← accept .flowSequenceEnd then
        return done.reverse
      else
        let n ← node fuel false false
        flowItems fuel false (n :: done)

/-- The entries of a flow mapping. A node without a key mark before it has no value. -/
def flowEntries : Nat → Bool → List Entry → Step (List Entry)
  | 0, _, _ => throw .placement
  | fuel + 1, first, done => do
    if ← accept .flowMappingEnd then
      return done.reverse
    else
      if !first then expect .flowEntry
      if ← accept .key then
        let pair ← flowPair fuel .flowMappingEnd
        flowEntries fuel false (pair :: done)
      else if ← accept .flowMappingEnd then
        return done.reverse
      else
        let k ← node fuel false false
        flowEntries fuel false ((k, ← addMissing) :: done)

end

def root : Step NodeId := do
  node (4 * (← get).tokens.length + 8) true false

def directives : Nat → Bool → List (String × String) → Step Unit
  | 0, _, _ => throw .placement
  | fuel + 1, versioned, handles => do
    match ← peek with
    | .directive d =>
      advance
      match d with
      | .version major _ =>
        if versioned || major ≠ 1 then throw .placement
        directives fuel true handles
      | .handle h lead =>
        if (handles.lookup h).isSome then throw .placement
        directives fuel versioned (handles ++ [(h, lead)])
      | .other => directives fuel versioned handles
    | _ => modify fun x => { x with handles := handles ++ defaultHandles }

def skipDocumentEnds : Nat → Step Unit
  | 0 => return
  | fuel + 1 => do
    if ← accept .documentEnd then skipDocumentEnds fuel

/-- Ends a document: its anchors are forgotten, and a mark of its end is taken. -/
def finish (n : NodeId) : Step (Option NodeId) := do
  let _ ← accept .documentEnd
  modify fun x => { x with anchors := [] }
  return some n

/-- The next token belongs to no document without a mark of its start. -/
def atBoundary : Step Bool := do
  match ← peek with
  | .directive _ | .documentStart | .streamEnd => return true
  | _ => return false

/-- Reads the directives and the mark of the start of the next document, and says whether there is
one. -/
def startsNext : Step Bool := do
  skipDocumentEnds ((← get).tokens.length + 1)
  if (← peek) = .streamEnd then
    return false
  else
    directives ((← get).tokens.length + 1) false []
    expect .documentStart
    return true

def markedDocument : Step (Option NodeId) := do
  if ← startsNext then
    if (← atBoundary) || (← peek) = .documentEnd then
      finish (← addMissing)
    else
      finish (← root)
  else
    return none

/-- Reads the next document, and gives its root. Only the first one may do without a mark of its
start. -/
def document (first : Bool) : Step (Option NodeId) := do
  modify fun x => { x with graph := .empty }
  if first && !(← atBoundary) then
    modify fun x => { x with handles := defaultHandles }
    finish (← root)
  else
    markedDocument

end Composer

end TreePaths.Yaml
