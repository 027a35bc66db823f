import TreePaths.Yaml.Fault

/-!
Places in a YAML text.
-/

namespace TreePaths.Yaml

def isBreak (c : Char) : Bool :=
  c.toNat ∈ [0xA, 0xD, 0x85, 0x2028, 0x2029]

def isBlankChar (c : Char) : Bool :=
  c = ' ' || c = '\t'

/-- Letters, digits, `-` and `_`, all of them ASCII. -/
def isWordChar (c : Char) : Bool :=
  c.isAlphanum || c = '-' || c = '_'

/-- The text from a place on, and the place: the number of characters before it, and line and
column, counted from zero. -/
structure Source where
  rest : List Char
  index : Nat
  line : Nat
  column : Nat

namespace Source

def ofText (cs : List Char) : Source :=
  ⟨cs, 0, 0, 0⟩

def peek (s : Source) (k : Nat) : Option Char :=
  s.rest[k]?

def sees (s : Source) (k : Nat) (p : Char → Bool) : Bool :=
  (s.peek k).any p

/-- The text ends at `k`, or the character there is in the class. -/
def endsAt (s : Source) (k : Nat) (p : Char → Bool) : Bool :=
  (s.peek k).all p

def atLineEnd (s : Source) (k : Nat) : Bool :=
  s.endsAt k isBreak

/-- At `k` there is a space, a break or the end of the text. -/
def atSpace (s : Source) (k : Nat) : Bool :=
  s.endsAt k fun c => c = ' ' || isBreak c

def atBlank (s : Source) (k : Nat) : Bool :=
  s.endsAt k fun c => isBlankChar c || isBreak c

/-- Goes one character on. A carriage return before a line feed ends no line of its own. -/
def step (s : Source) : Source :=
  match s.rest with
  | [] => s
  | c :: cs =>
    if isBreak c && !(c = '\r' && cs.head? = some '\n') then
      ⟨cs, s.index + 1, s.line + 1, 0⟩
    else
      ⟨cs, s.index + 1, s.line, if c = '\ufeff' then s.column else s.column + 1⟩

def forward : Nat → Source → Source
  | 0, s => s
  | n + 1, s => forward n s.step

def takeWhile (s : Source) (p : Char → Bool) : List Char × Source :=
  let cs := s.rest.takeWhile p
  (cs, s.forward cs.length)

def dropWhile (s : Source) (p : Char → Bool) : Source :=
  (s.takeWhile p).2

def skipSpaces (s : Source) : Source :=
  s.dropWhile (· = ' ')

def skipComment (s : Source) : Source :=
  if s.sees 0 (· = '#') then s.dropWhile (!isBreak ·) else s

/-- Takes a line break, if one stands here. All breaks but the line separator and the paragraph
separator become line feeds. -/
def lineBreak (s : Source) : Option Char × Source :=
  match s.rest with
  | '\r' :: '\n' :: _ => (some '\n', s.forward 2)
  | c :: _ =>
    if c = '\u2028' || c = '\u2029' then (some c, s.step)
    else if isBreak c then (some '\n', s.step)
    else (none, s)
  | [] => (none, s)

def atTriple (s : Source) (c : Char) : Bool :=
  s.rest.take 3 = [c, c, c] && s.atBlank 3

def atDocumentMark (s : Source) : Bool :=
  s.atTriple '-' || s.atTriple '.'

end Source

end TreePaths.Yaml
