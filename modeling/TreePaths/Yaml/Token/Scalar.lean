import TreePaths.Yaml.Token.Word

/-!
Scalar tokens: quoted texts, blocks and plain texts.
-/

namespace TreePaths.Yaml

namespace Source

def namedEscape? (c : Char) : Option Char :=
  (List.lookup c [('0', '\x00'), ('a', '\x07'), ('b', '\x08'), ('t', '\t'), ('\t', '\t'),
    ('n', '\n'), ('v', '\x0b'), ('f', '\x0c'), ('r', '\r'), ('e', '\x1b'), (' ', ' '), ('"', '"'),
    ('\\', '\\'), ('/', '/'), ('N', '\u0085'), ('_', '\u00a0'), ('L', '\u2028'), ('P', '\u2029')])

def codeLength? (c : Char) : Option Nat :=
  List.lookup c [('x', 2), ('u', 4), ('U', 8)]

def code (s : Source) (n : Nat) : Except Fault (Scanned Nat) :=
  match Text.hexNumber? (s.rest.take n) with
  | none => .error .token
  | some c =>
    if s.rest.length < n then .error .token
    else if 0x10FFFF < c then .error (.code (0x7FFFFFFF < c))
    else .ok (c, s.forward n)

/-- Line breaks and the blanks around them. A mark of a document may not stand at a line start. -/
def quotedBreaks : Nat → Source → Except Fault (Scanned (List Char))
  | 0, _ => .error .token
  | fuel + 1, s =>
    if s.atDocumentMark then
      .error .token
    else
      match (s.dropWhile isBlankChar).lineBreak with
      | (none, t) => .ok ([], t)
      | (some c, t) => (quotedBreaks fuel t).map fun (cs, u) => (c :: cs, u)

/-- Line breaks between words: one alone becomes a space, of several the first is dropped. -/
def foldBreaks (first : Char) (more : List Char) : List Char :=
  if first ≠ '\n' then first :: more
  else if more.isEmpty then [' ']
  else more

def quotedBlanks (s : Source) : Except Fault (Scanned (List Char)) :=
  let (blanks, t) := s.takeWhile isBlankChar
  if t.rest.isEmpty then
    .error .token
  else
    match t.lineBreak with
    | (none, t) => .ok (blanks, t)
    | (some c, u) => do
      let (more, v) ← quotedBreaks (u.rest.length + 1) u
      return (foldBreaks c more, v)

/-- Characters of a quoted text, as codes, up to a blank or the closing quote. -/
def quotedWord (double : Bool) : Nat → Source → Except Fault (Scanned (List Nat))
  | 0, _ => .error .token
  | fuel + 1, s =>
    let continue' := fun (codes : List Nat) (t : Source) =>
      (quotedWord double fuel t).map fun (more, u) => (codes ++ more, u)
    let stops := fun c => c = '\'' || c = '"' || c = '\\' || isBlankChar c || isBreak c
    match s.takeWhile (!stops ·) with
    | (c :: cs, t) => continue' ((c :: cs).map Char.toNat) t
    | ([], _) =>
      match double, s.rest with
      | false, '\'' :: '\'' :: _ => continue' ['\''.toNat] (s.forward 2)
      | true, '\'' :: _ => continue' ['\''.toNat] s.step
      | false, '"' :: _ => continue' ['"'.toNat] s.step
      | false, '\\' :: _ => continue' ['\\'.toNat] s.step
      | true, '\\' :: c :: _ =>
        match namedEscape? c, codeLength? c with
        | some d, _ => continue' [d.toNat] (s.forward 2)
        | none, some n => do
          let (code, t) ← (s.forward 2).code n
          continue' [code] t
        | none, none =>
          if isBreak c then do
            let t := s.step.lineBreak.2
            let (cs, u) ← quotedBreaks (t.rest.length + 1) t
            continue' (cs.map Char.toNat) u
          else
            .error .token
      | true, ['\\'] => .error .token
      | _, _ => .ok ([], s)

def quotedCodes (double : Bool) : Nat → Source → Except Fault (Scanned (List Nat))
  | 0, _ => .error .token
  | fuel + 1, s => do
    let (codes, t) ← quotedWord double (s.rest.length + 1) s
    if t.sees 0 (· = if double then '"' else '\'') then
      return (codes, t.step)
    else
      let (blanks, u) ← t.quotedBlanks
      let (more, v) ← quotedCodes double fuel u
      return (codes ++ blanks.map Char.toNat ++ more, v)

/-- Codes as characters: a surrogate pair is one character, and half of one is replaced. -/
def charsOfCodes : List Nat → List Char
  | hi :: lo :: cs =>
    if Text.isHighHalf hi && Text.isLowHalf lo then Text.pairChar hi lo :: charsOfCodes cs
    else Text.codeChar hi :: charsOfCodes (lo :: cs)
  | [c] => [Text.codeChar c]
  | [] => []

def quoted (double : Bool) (s : Source) : Except Fault (Scanned Token) :=
  (quotedCodes double (s.rest.length + 1) s.step).map fun (codes, t) =>
    (.scalar (.ofList (charsOfCodes codes)) false, t)

inductive Chomping where
  | strip
  | clip
  | keep
  deriving DecidableEq

def chomping? (s : Source) : Option Chomping :=
  match s.rest with
  | '+' :: _ => some .keep
  | '-' :: _ => some .strip
  | _ => none

/-- The digit that gives the indentation of a block; zero is none. -/
def increment? (s : Source) : Except Fault (Scanned (Option Nat)) :=
  match s.rest with
  | c :: _ =>
    if !c.isDigit then .ok (none, s)
    else if c = '0' then .error .token
    else .ok (some (c.toNat - '0'.toNat), s.step)
  | [] => .ok (none, s)

def blockHeader (s : Source) : Except Fault (Scanned (Chomping × Option Nat)) := do
  let (header, t) ←
    match s.chomping? with
    | some c => do
      let (n, t) ← s.step.increment?
      pure ((c, n), t)
    | none => do
      let (n, t) ← s.increment?
      match n, t.chomping? with
      | some _, some c => pure ((c, n), t.step)
      | _, _ => pure ((.clip, n), t)
  if t.atSpace 0 then return (header, t) else throw .token

/-- Line breaks before the first line of a block, and the greatest indentation among them. -/
def blockIndentation : Nat → Nat → Source → (List Char × Nat) × Source
  | 0, deepest, s => (([], deepest), s)
  | fuel + 1, deepest, s =>
    let t := s.skipSpaces
    let deepest := max deepest (if t.index = s.index then 0 else t.column)
    match t.lineBreak with
    | (none, t) => (([], deepest), t)
    | (some c, t) =>
      let ((cs, n), u) := blockIndentation fuel deepest t
      ((c :: cs, n), u)

def skipIndentation (indent : Nat) (s : Source) : Source :=
  s.forward ((s.rest.take (indent - s.column)).takeWhile (· = ' ')).length

def blockBreaks (indent : Nat) : Nat → Source → List Char × Source
  | 0, s => ([], s)
  | fuel + 1, s =>
    match (s.skipIndentation indent).lineBreak with
    | (none, t) => ([], t)
    | (some c, t) =>
      let (cs, u) := blockBreaks indent fuel t
      (c :: cs, u)

def isInBlock (indent : Nat) (s : Source) : Bool :=
  s.column = indent && !s.rest.isEmpty

/-- Lines of a block. `breaks` are the breaks of the empty lines before. Gives the characters and
the breaks that close the block. -/
def blockLines (folded : Bool) (indent : Nat) :
    Nat → List Char → Source → (List Char × Option Char × List Char) × Source
  | 0, breaks, s => (([], none, breaks), s)
  | fuel + 1, breaks, s =>
    let spaced := s.sees 0 isBlankChar
    let (line, t) := s.takeWhile (!isBreak ·)
    let (lineEnd, u) := t.lineBreak
    let (more, v) := blockBreaks indent (u.rest.length + 1) u
    if v.isInBlock indent then
      let joint :=
        if folded && lineEnd = some '\n' && !spaced && !v.sees 0 isBlankChar then
          if more.isEmpty then [' '] else []
        else
          lineEnd.toList
      let ((cs, closing), w) := blockLines folded indent fuel more v
      ((breaks ++ line ++ joint ++ cs, closing), w)
    else
      ((breaks ++ line, lineEnd, more), v)

/-- A block with its mark; `parent` is the indentation around it. -/
def block (parent : Int) (folded : Bool) (s : Source) : Except Fault (Scanned Token) := do
  let ((chomping, increment), t) ← s.step.blockHeader
  let u ← t.ignoredLine
  let least := (max (parent + 1) 1).toNat
  let (breaks, indent, v) :=
    match increment with
    | none =>
      let ((breaks, deepest), v) := blockIndentation (u.rest.length + 1) 0 u
      (breaks, max least deepest, v)
    | some n =>
      let indent := least + n - 1
      let (breaks, v) := blockBreaks indent (u.rest.length + 1) u
      (breaks, indent, v)
  let ((cs, lineEnd, breaks), w) :=
    if v.isInBlock indent then blockLines folded indent (v.rest.length + 1) breaks v
    else (([], none, breaks), v)
  let tail :=
    match chomping with
    | .strip => []
    | .clip => lineEnd.toList
    | .keep => lineEnd.toList ++ breaks
  return (.scalar (.ofList (cs ++ tail)) false, w)

def isFlowEnd (c : Char) : Bool :=
  c ∈ [',', '?', '[', ']', '\x7b', '\x7d']

/-- How many characters of a plain text stand at the front, up to a blank. -/
def plainLength (inFlow : Bool) : List Char → Nat
  | [] => 0
  | c :: cs =>
    let colonEnds :=
      match cs with
      | [] => true
      | d :: _ =>
        isBlankChar d || isBreak d || (inFlow && d ∈ [',', '[', ']', '\x7b', '\x7d'])
    if isBlankChar c || isBreak c || (c = ':' && colonEnds) || (inFlow && isFlowEnd c) then 0
    else plainLength inFlow cs + 1

/-- Line breaks and spaces behind the first line break in a plain text; none if a mark of a
document follows. -/
def plainBreaks : Nat → Source → Option (List Char) × Source
  | 0, s => (none, s)
  | fuel + 1, s =>
    match s.skipSpaces.lineBreak with
    | (none, t) => (some [], t)
    | (some c, t) =>
      if t.atDocumentMark then
        (none, t)
      else
        let (cs, u) := plainBreaks fuel t
        (cs.map (c :: ·), u)

def plainBlanks (s : Source) : (List Char × Bool) × Source :=
  let (spaces, t) := s.takeWhile (· = ' ')
  match t.lineBreak with
  | (none, t) => ((spaces, false), t)
  | (some c, u) =>
    if u.atDocumentMark then
      (([], true), u)
    else
      match plainBreaks (u.rest.length + 1) u with
      | (none, v) => (([], true), v)
      | (some more, v) => ((foldBreaks c more, true), v)

/-- Words of a plain text. The result also says whether the text ended behind a line break. -/
def plainWords (inFlow : Bool) (indent : Int) :
    Nat → Bool → List Char → Source → (List Char × Bool) × Source
  | 0, broken, _, s => (([], broken), s)
  | fuel + 1, broken, blanks, s =>
    let n := if s.sees 0 (· = '#') then 0 else plainLength inFlow s.rest
    if n = 0 then
      (([], broken), s)
    else
      let cs := blanks ++ s.rest.take n
      let ((next, broken), t) := (s.forward n).plainBlanks
      if next.isEmpty || t.sees 0 (· = '#') || (!inFlow && t.column < indent) then
        ((cs, broken), t)
      else
        let ((more, broken), u) := plainWords inFlow indent fuel broken next t
        ((cs ++ more, broken), u)

/-- A plain text, and whether it ended behind a line break; `parent` is the indentation around it.
-/
def plain (inFlow : Bool) (parent : Int) (s : Source) : (Token × Bool) × Source :=
  let ((cs, broken), t) := plainWords inFlow (parent + 1) (s.rest.length + 1) false [] s
  ((.scalar (.ofList cs) true, broken), t)

end Source

end TreePaths.Yaml
