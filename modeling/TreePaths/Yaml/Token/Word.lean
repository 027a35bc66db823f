import TreePaths.Text.Encoded
import TreePaths.Text.Hex
import TreePaths.Yaml.Source
import TreePaths.Yaml.Token

/-!
Tokens made of words: directives, anchors, aliases and tags.
-/

namespace TreePaths.Yaml

abbrev Scanned (α : Type) := α × Source

namespace Source

def word (s : Source) : Except Fault (Scanned String) :=
  match s.takeWhile isWordChar with
  | ([], _) => .error .token
  | (cs, t) => .ok (.ofList cs, t)

def anchorName (s : Source) : Except Fault (Scanned String) := do
  let (name, t) ← s.word
  if t.atBlank 0 || t.sees 0 (· ∈ ['?', ':', ',', ']', '\x7d', '%', '@', '\x60']) then
    return (name, t)
  else
    throw .token

/-- `!`, or a word between two of them; in a directive or a tag. -/
def tagHandle (s : Source) : Except Fault (Scanned String) :=
  if !s.sees 0 (· = '!') then
    .error .token
  else if s.sees 1 (· = ' ') then
    .ok ("!", s.step)
  else
    let (cs, t) := s.step.takeWhile isWordChar
    if t.sees 0 (· = '!') then .ok (.ofList ('!' :: cs ++ ['!']), t.step) else .error .token

def isTagChar (c : Char) : Bool :=
  isWordChar c ||
    c ∈ [';', '/', '?', ':', '@', '&', '=', '+', '$', ',', '.', '!', '~', '*', '\'', '(', ')',
      '[', ']']

/-- The bytes of a row of percent escapes, and the text behind them. -/
def percentBytes : List Char → Option (List UInt8 × List Char)
  | '%' :: a :: b :: cs => do
    let n ← Text.hexNumber? [a, b]
    let (bs, rest) ← percentBytes cs
    return (n.toUInt8 :: bs, rest)
  | '%' :: _ => none
  | cs => some ([], cs)

def tagChars : Nat → Source → Except Fault (Scanned (List Char))
  | 0, s => .ok ([], s)
  | fuel + 1, s =>
    let (cs, t) := s.takeWhile isTagChar
    if t.sees 0 (· = '%') then
      match percentBytes t.rest with
      | none => .error .token
      | some (bs, rest) =>
        match Text.ofBytes bs with
        | none => .error .token
        | some text =>
          (tagChars fuel (t.forward (t.rest.length - rest.length))).map fun (ds, u) =>
            (cs ++ text.toList ++ ds, u)
    else
      .ok (cs, t)

/-- A tag or the start of one, which is not empty. -/
def tagText (s : Source) : Except Fault (Scanned String) := do
  let (cs, t) ← tagChars (s.rest.length + 1) s
  if t.index = s.index then throw .token else return (.ofList cs, t)

def tag (s : Source) : Except Fault (Scanned Token) := do
  let (token, t) ←
    if s.sees 1 (· = '<') then do
      let (suffix, t) ← tagText (s.forward 2)
      if t.sees 0 (· = '>') then pure (Token.tag none suffix, t.step) else throw .token
    else if s.atBlank 1 then
      pure (Token.tag none "!", s.step)
    else if ((s.rest.drop 1).takeWhile fun c => !(c = ' ' || isBreak c)).contains '!' then do
      let (handle, t) ← s.tagHandle
      let (suffix, u) ← tagText t
      pure (Token.tag (some handle) suffix, u)
    else do
      let (suffix, t) ← tagText s.step
      pure (Token.tag (some "!") suffix, t)
  if t.atSpace 0 then return (token, t) else throw .token

def versionNumber (s : Source) : Except Fault (Scanned Nat) :=
  match s.takeWhile Char.isDigit with
  | ([], _) => .error .token
  | (cs, t) =>
    if Text.digitLimit < cs.length then .error (.digits cs.length)
    else .ok (Text.decimalValue cs, t)

def versionDirective (s : Source) : Except Fault (Scanned Directive) := do
  let (major, t) ← s.skipSpaces.versionNumber
  if !t.sees 0 (· = '.') then throw .token
  let (minor, u) ← t.step.versionNumber
  if u.atSpace 0 then return (.version major minor, u) else throw .token

def handleDirective (s : Source) : Except Fault (Scanned Directive) := do
  let (handle, t) ← s.skipSpaces.tagHandle
  if !t.sees 0 (· = ' ') then throw .token
  let (lead, u) ← tagText t.skipSpaces
  if u.atSpace 0 then return (.handle handle lead, u) else throw .token

/-- The rest of a line that may hold nothing but a comment. -/
def ignoredLine (s : Source) : Except Fault Source :=
  let t := s.skipSpaces.skipComment
  if t.atLineEnd 0 then .ok t.lineBreak.2 else .error .token

def directive (s : Source) : Except Fault (Scanned Token) := do
  let (name, t) ← s.step.word
  if !t.atSpace 0 then throw .token
  let (d, u) ←
    match name with
    | "YAML" => t.versionDirective
    | "TAG" => t.handleDirective
    | _ => pure (.other, t.dropWhile (!isBreak ·))
  return (.directive d, ← u.ignoredLine)

end Source

end TreePaths.Yaml
