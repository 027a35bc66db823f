import TreePaths.Yaml.Stream
import TreePaths.Yaml.Token.Scalar

/-!
The row of tokens of a YAML text. A mapping key of one line is known for a key only when the colon
behind it is reached; until then the tokens from it on are held back.
-/

namespace TreePaths.Yaml

structure KeyStart where
  /-- The number of the token that the key starts with. -/
  number : Nat
  /-- A key must have started here. -/
  isRequired : Bool
  index : Nat
  line : Nat
  column : Nat

structure Lexer where
  source : Source
  tokens : List Token
  /-- How many tokens have been given out. -/
  taken : Nat
  /-- The number of flow collections around the source. -/
  flowLevel : Nat
  indent : Int
  outerIndents : List Int
  /-- A key may start here. -/
  allowsKey : Bool
  /-- The start of a key for each flow level. -/
  keyStarts : List (Nat × KeyStart)
  isDone : Bool

namespace Lexer

def ofText (cs : List Char) : Lexer :=
  ⟨.ofText cs, [], 0, 0, -1, [], true, [], false⟩

abbrev Step := StateT Lexer (Except Fault)

def emit (t : Token) : Step Unit :=
  modify fun x => { x with tokens := x.tokens ++ [t] }

def setSource (s : Source) : Step Unit :=
  modify fun x => { x with source := s }

def allowKey (b : Bool) : Step Unit :=
  modify fun x => { x with allowsKey := b }

def inFlow (x : Lexer) : Bool :=
  x.flowLevel ≠ 0

def dropKey : Step Unit := do
  let x ← get
  match x.keyStarts.lookup x.flowLevel with
  | none => return
  | some k =>
    if k.isRequired then throw .token
    set { x with keyStarts := x.keyStarts.filter (·.1 ≠ x.flowLevel) }

/-- Gives up the starts of keys that would be longer than a line or than 1024 characters. -/
def dropStaleKeys : Step Unit := do
  let x ← get
  let isStale := fun (k : KeyStart) =>
    k.line ≠ x.source.line || 1024 < x.source.index - k.index
  if x.keyStarts.any fun k => isStale k.2 && k.2.isRequired then throw .token
  set { x with keyStarts := x.keyStarts.filter fun k => !isStale k.2 }

def saveKey : Step Unit := do
  if (← get).allowsKey then
    dropKey
    modify fun x =>
      let s := x.source
      let isRequired := !x.inFlow && x.indent = s.column
      let k : KeyStart := ⟨x.taken + x.tokens.length, isRequired, s.index, s.line, s.column⟩
      { x with keyStarts := (x.flowLevel, k) :: x.keyStarts }

/-- Closes the indentations that are deeper than a column, the innermost first. -/
def closeIndents (column : Int) : Int → List Int → Nat × Int × List Int
  | indent, [] => (0, indent, [])
  | indent, outer :: rest =>
    if column < indent then
      let (n, result) := closeIndents column outer rest
      (n + 1, result)
    else
      (0, indent, outer :: rest)

def unwind (column : Int) : Step Unit :=
  modify fun x =>
    if x.inFlow then
      x
    else
      let (n, indent, outer) := closeIndents column x.indent x.outerIndents
      { x with
        tokens := x.tokens ++ List.replicate n .blockEnd
        indent := indent
        outerIndents := outer }

/-- Opens an indentation, and says whether it is a new one. -/
def indentTo (column : Nat) : Step Bool := do
  let x ← get
  if x.indent < column then
    set { x with indent := (column : Int), outerIndents := x.indent :: x.outerIndents }
    return true
  else
    return false

def take (n : Nat) (t : Token) : Step Unit := do
  modify fun x => { x with source := x.source.forward n }
  emit t

/-- Skips spaces, comments and line breaks. Outside flow collections a key may start behind a
line break. -/
def skipToToken : Nat → Step Unit
  | 0 => return
  | fuel + 1 => do
    let x ← get
    let (c, s) := x.source.skipSpaces.skipComment.lineBreak
    setSource s
    if c.isSome then
      if !x.inFlow then allowKey true
      skipToToken fuel

def streamEnd : Step Unit := do
  unwind (-1)
  dropKey
  modify fun x => { x with allowsKey := false, keyStarts := [], isDone := true }
  emit .streamEnd

def directive : Step Unit := do
  unwind (-1)
  dropKey
  allowKey false
  let (t, s) ← (← get).source.directive
  setSource s
  emit t

def documentMark (t : Token) : Step Unit := do
  unwind (-1)
  dropKey
  allowKey false
  take 3 t

def flowStart (t : Token) : Step Unit := do
  saveKey
  modify fun x => { x with flowLevel := x.flowLevel + 1, allowsKey := true }
  take 1 t

/-- A closing bracket; one that closes nothing is refused where nodes are made of the tokens. -/
def flowEnd (t : Token) : Step Unit := do
  dropKey
  modify fun x => { x with flowLevel := x.flowLevel - 1, allowsKey := false }
  take 1 t

def flowEntry : Step Unit := do
  allowKey true
  dropKey
  take 1 .flowEntry

def openBlock (t : Token) : Step Unit := do
  if ← indentTo (← get).source.column then emit t

def blockEntry : Step Unit := do
  let x ← get
  if !x.inFlow then
    if !x.allowsKey then throw .token
    openBlock .blockSequenceStart
  allowKey true
  dropKey
  take 1 .blockEntry

def explicitKey : Step Unit := do
  let x ← get
  if !x.inFlow then
    if !x.allowsKey then throw .token
    openBlock .blockMappingStart
  allowKey !x.inFlow
  dropKey
  take 1 .key

/-- The value behind a key of one line: the key, and the mapping if it is new, are put in front of
the tokens of the key. -/
def valueOfKey (k : KeyStart) : Step Unit := do
  modify fun x => { x with
    keyStarts := x.keyStarts.filter (·.1 ≠ x.flowLevel)
    tokens := x.tokens.insertIdx (k.number - x.taken) .key }
  if !(← get).inFlow then
    if ← indentTo k.column then
      modify fun x => { x with
        tokens := x.tokens.insertIdx (k.number - x.taken) .blockMappingStart }
  allowKey false

def value : Step Unit := do
  let x ← get
  match x.keyStarts.lookup x.flowLevel with
  | some k => valueOfKey k
  | none =>
    if !x.inFlow then
      if !x.allowsKey then throw .token
      openBlock .blockMappingStart
    allowKey !x.inFlow
    dropKey
  take 1 .value

def keyable (scan : Source → Except Fault (Scanned Token)) : Step Unit := do
  saveKey
  allowKey false
  let (t, s) ← scan (← get).source
  setSource s
  emit t

def named (make : String → Token) (s : Source) : Except Fault (Scanned Token) :=
  s.step.anchorName.map fun (name, t) => (make name, t)

def block (folded : Bool) : Step Unit := do
  allowKey true
  dropKey
  let x ← get
  let (t, s) ← x.source.block x.indent folded
  setSource s
  emit t

def plain : Step Unit := do
  saveKey
  let x ← get
  let ((t, broken), s) := x.source.plain x.inFlow x.indent
  allowKey broken
  setSource s
  emit t

def startsPlain (x : Lexer) (c : Char) : Bool :=
  !(isBlankChar c || isBreak c ||
      c ∈ ['-', '?', ':', ',', '[', ']', '\x7b', '\x7d', '#', '&', '*', '!', '|', '>', '\'', '"',
        '%', '@', '\x60']) ||
    (!x.source.atBlank 1 && (c = '-' || (!x.inFlow && (c = '?' || c = ':'))))

def fetch : Step Unit := do
  modify fun x =>
    if x.source.index = 0 && x.source.sees 0 (· = '\ufeff') then
      { x with source := x.source.step }
    else x
  skipToToken ((← get).source.rest.length + 1)
  dropStaleKeys
  unwind (← get).source.column
  let x ← get
  let s := x.source
  let atStart := s.column = 0
  match s.rest with
  | [] => streamEnd
  | c :: _ =>
    if c = '%' && atStart then directive
    else if atStart && s.atTriple '-' then documentMark .documentStart
    else if atStart && s.atTriple '.' then documentMark .documentEnd
    else if c = '[' then flowStart .flowSequenceStart
    else if c = '\x7b' then flowStart .flowMappingStart
    else if c = ']' then flowEnd .flowSequenceEnd
    else if c = '\x7d' then flowEnd .flowMappingEnd
    else if c = ',' then flowEntry
    else if c = '-' && s.atBlank 1 then blockEntry
    else if c = '?' && (x.inFlow || s.atBlank 1) then explicitKey
    else if c = ':' && (x.inFlow || s.atBlank 1) then value
    else if c = '*' then keyable (named .alias)
    else if c = '&' then keyable (named .anchor)
    else if c = '!' then keyable Source.tag
    else if c = '|' && !x.inFlow then block false
    else if c = '>' && !x.inFlow then block true
    else if c = '\'' then keyable (Source.quoted false)
    else if c = '"' then keyable (Source.quoted true)
    else if x.startsPlain c then plain
    else throw .token

/-- The first token cannot be given out yet: there is none, or it may start a key. -/
def needsMore : Step Bool := do
  if (← get).isDone then
    return false
  else if (← get).tokens.isEmpty then
    return true
  else
    dropStaleKeys
    let x ← get
    return x.keyStarts.any fun k => k.2.number = x.taken

/-- Tokens in the order in which they are given out, the latest first. They end with the stream, or
with the fault in the place of the next token. No token is found where the text is cut off by the
fault `cut`. -/
def run (cut : Option Fault) : Nat → List Token → Lexer → List Token × Option Fault
  | 0, out, _ => (out, some .token)
  | fuel + 1, out, x =>
    match needsMore.run x with
    | .error e => (out, some e)
    | .ok (true, x) =>
      match fetch.run x with
      | .error e => (out, some e)
      | .ok (_, x) =>
        match cut, x.source.rest with
        | some e, [] => (out, some e)
        | _, _ => run cut fuel out x
    | .ok (false, x) =>
      match x.tokens with
      | [] => (out, none)
      | .streamEnd :: _ => (.streamEnd :: out, none)
      | t :: ts => run cut fuel (t :: out) { x with tokens := ts, taken := x.taken + 1 }

end Lexer

structure Tokens where
  tokens : List Token
  fault : Option Fault

def Tokens.ofStream (s : Stream) : Tokens :=
  let (ts, fault) := Lexer.run s.fault (10 * s.text.length + 10) [] (.ofText s.text)
  ⟨ts.reverse, fault⟩

end TreePaths.Yaml
