import TreePaths.Settings.Fault
import TreePaths.Text.Blank
import TreePaths.Text.Digit
import TreePaths.Text.Encoded

/-!
Settings that are single values. A setting may be written in more than one way: a truth value also
as 0 or 1 or as a word, an integer also as a text, a text also as bytes.
-/

namespace TreePaths.Settings

def readText : Value → Except Cause String
  | .str s => .ok s
  | .bytes bs =>
    match Text.ofBytes bs with
    | some s => .ok s
    | none => .error .textEncoding
  | _ => .error .notText

def readOptionalText : Value → Except Cause (Option String)
  | .null => .ok none
  | v => (readText v).map some

/-- Words for false and for true, compared without regard to the case of ASCII letters. -/
def falseWords : List String := ["0", "f", "n", "no", "off", "false"]

def trueWords : List String := ["1", "t", "y", "on", "yes", "true"]

def truthOfWord (s : String) : Except Cause Bool :=
  let word := s.map Char.toLower
  if falseWords.contains word then .ok false
  else if trueWords.contains word then .ok true
  else .error .unclearTruth

/-- The integer that a floating-point number is, if it lies between the bounds of 64 bits. -/
def wordOfFloat? (x : Double) : Option Int :=
  x.toInt?.filter fun i => -9223372036854775808 < i && i < 9223372036854775808

def truthOfInt (i : Int) : Except Cause Bool :=
  if i = 0 then .ok false else if i = 1 then .ok true else .error .unclearTruth

def readTruth : Value → Except Cause Bool
  | .bool b => .ok b
  | .int i => if fitsWord i then truthOfInt i else .error .notTruth
  | .float x =>
    match wordOfFloat? x with
    | some i => truthOfInt i
    | none => .error .notTruth
  | .str s => truthOfWord s
  | .bytes bs =>
    match Text.ofBytes bs with
    | some s => truthOfWord s
    | none => .error .unclearTruth
  | _ => .error .notTruth

/-- Digits with a sign for negative numbers only, and with no zeros in front. The sign counts as
one of the digits, of which there may not be too many. -/
def readNumeral (cs : List Char) : Except Cause Int :=
  let (isNegative, digits) :=
    match cs with
    | '-' :: ds => (true, ds)
    | ds => (false, ds)
  let count := (digits.takeWhile Char.isDigit).length
  let length := if isNegative then count + 1 else count
  if count = 0 || (digits.head? = some '0' && count ≠ 1) then .error .unclearInteger
  else if Text.digitLimit < length then .error .tooLarge
  else if count < digits.length then .error .unclearInteger
  else if isNegative then .ok (-(Text.decimalValue digits : Int))
  else .ok (Text.decimalValue digits)

/-- What follows zeros and underscores, of which `last` is the latest: a digit or a sign, a point
and the zero before it, or the last of them if nothing follows. -/
def afterZeros (last : Char) : List Char → Option (List Char)
  | [] => some [last]
  | c :: cs =>
    if c = '0' || c = '_' then afterZeros c cs
    else if c = '.' then some (last :: c :: cs)
    else if c.isDigit || c = '-' then some (c :: cs)
    else none

def dropZeros : List Char → Option (List Char)
  | [] => none
  | '0' :: cs => afterZeros '0' cs
  | c :: cs => if c.isDigit then some (c :: cs) else none

def dropFraction (cs : List Char) : List Char :=
  match cs.span (· ≠ '.') with
  | (whole, '.' :: '0' :: ds) => if ds.all (· = '0') then whole else cs
  | _ => cs

def underscoresApart : List Char → Bool
  | '_' :: '_' :: _ => false
  | [] => true
  | _ :: cs => underscoresApart cs

/-- Drops the underscores if they stand between other characters, one at a time. -/
def dropUnderscores (cs : List Char) : List Char :=
  if cs.head? ≠ some '_' && cs.getLast? ≠ some '_' && underscoresApart cs then cs.filter (· ≠ '_')
  else cs

/-- An integer without the blanks, signs, zeros and underscores that numerals do not have. -/
def plainNumeral (cs : List Char) : Option (List Char) :=
  let digits :=
    match Text.trimBy Text.isWhiteSpace cs with
    | '+' :: ds => dropZeros ds
    | '-' :: ds => (dropZeros ds).map ('-' :: ·)
    | ds => dropZeros ds
  digits.map fun ds => dropUnderscores (dropFraction ds)

/-- An integer that a text denotes. Only a plain numeral can be too large; in any other form too
many digits are no integer. -/
def integerOfText (s : String) : Except Cause Int :=
  match readNumeral s.toList with
  | .error .unclearInteger =>
    match (plainNumeral s.toList).map readNumeral with
    | some (.ok i) => .ok i
    | _ => .error .unclearInteger
  | answer => answer

def readInteger : Value → Except Cause Int
  | .int i => .ok i
  | .bool b => .ok b.toNat
  | .float .nan | .float (.infinite _) => .error .notFinite
  | .float x =>
    match x.toInt?, wordOfFloat? x with
    | _, some i => .ok i
    | some _, none => .error .tooLarge
    | none, none => .error .fractional
  | .str s => integerOfText s
  | .bytes bs =>
    match Text.ofBytes bs with
    | some s => integerOfText s
    | none => .error .unclearInteger
  | _ => .error .notInteger

def readCount (v : Value) : Except Cause Nat := do
  let i ← readInteger v
  if i < 0 then throw .negative else return i.toNat

end TreePaths.Settings
