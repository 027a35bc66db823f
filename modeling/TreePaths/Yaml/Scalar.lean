import TreePaths.Value.Basic
import TreePaths.Text.Blank
import TreePaths.Yaml.Fault
import TreePaths.Yaml.Implicit

/-!
The values of scalars: numbers, truth values, timestamps and bytes.
-/

namespace TreePaths.Yaml

def splitSign (cs : List Char) : Bool × List Char :=
  match Text.trimBy Text.isWhiteSpace cs with
  | '-' :: ds => (true, ds)
  | '+' :: ds => (false, ds)
  | ds => (false, ds)

/-- The value of a digit of any script, or of a letter behind the nine. -/
def digitOf? (c : Char) : Option Nat :=
  Text.digitValue? c <|> Text.hexValue? c

def dropBaseMark (base : Nat) : List Char → List Char
  | '0' :: c :: cs =>
    if List.lookup base [(2, 'b'), (8, 'o'), (16, 'x')] = some c.toLower then cs else '0' :: c :: cs
  | cs => cs

def integerOf (base : Nat) (cs : List Char) : Except Fault Int :=
  let (negative, ds) := splitSign cs
  let ds := dropBaseMark base ds
  match ds.mapM digitOf? with
  | none => .error .number
  | some ns =>
    if ns.isEmpty || ns.any (base ≤ ·) then .error .number
    else if base = 10 && Text.digitLimit < ns.length then .error (.digits ns.length)
    else
      let n : Int := Text.digitsValue base 0 ns
      .ok (if negative then -n else n)

/-- The number whose digits in base 60 are given, the highest first. -/
def sexagesimal (ns : List Int) : Int :=
  ns.foldl (fun acc n => acc * 60 + n) 0

/-- Splits off a sign; marks between digits are dropped, and nothing may not be left. -/
def signedText (text : String) : Except Fault (Bool × List Char) :=
  match text.toList.filter (· ≠ '_') with
  | [] => .error .emptyNumber
  | '-' :: cs => .ok (true, cs)
  | '+' :: cs => .ok (false, cs)
  | cs => .ok (false, cs)

/-- The size of an integer: with the mark of base 2 or 16, octal if it starts with a zero, in base
60 if it holds a colon, and decimal otherwise. -/
def integerSize : List Char → Except Fault Int
  | [] => .error .emptyNumber
  | ['0'] => .ok 0
  | '0' :: 'b' :: cs => integerOf 2 cs
  | '0' :: 'x' :: cs => integerOf 16 cs
  | '0' :: cs => integerOf 8 ('0' :: cs)
  | cs =>
    if cs.contains ':' then ((colonParts cs).mapM (integerOf 10)).map sexagesimal
    else integerOf 10 cs

def buildInt (text : String) : Except Fault Value := do
  let (negative, cs) ← signedText text
  let n ← integerSize cs
  return .int (if negative then -n else n)

def takeDigits (cs : List Char) : List Nat × List Char :=
  ((cs.takeWhile Text.isDigit).map fun c => (Text.digitValue? c).getD 0,
    cs.dropWhile Text.isDigit)

def exponentOf : List Char → Option Int
  | [] => some 0
  | e :: cs =>
    let (negative, cs) :=
      match cs with
      | '-' :: ds => (true, ds)
      | '+' :: ds => (false, ds)
      | ds => (false, ds)
    let (ds, rest) := takeDigits cs
    if (e = 'e' || e = 'E') && !ds.isEmpty && rest.isEmpty then
      let n : Int := Text.digitsValue 10 0 ds
      some (if negative then -n else n)
    else
      none

def floatOf (cs : List Char) : Except Fault Double :=
  let (negative, cs) := splitSign cs
  if cs = "inf".toList || cs = "infinity".toList then
    .ok (.infinite negative)
  else if cs = "nan".toList then
    .ok .nan
  else
    let (whole, rest) := takeDigits cs
    let (fraction, rest) :=
      match rest with
      | '.' :: ds => takeDigits ds
      | ds => ([], ds)
    match exponentOf rest with
    | none => .error .number
    | some e =>
      if whole.isEmpty && fraction.isEmpty then .error .number
      else
        let m := Text.digitsValue 10 0 (whole ++ fraction)
        .ok (.ofDecimal negative m (e - fraction.length))

/-- The sum of floating-point digits in base 60, the lowest first, from the digit of `60 ^ k` on. -/
def sexagesimalFloat (total : Double) (k : Nat) : List Double → Except Fault Double
  | [] => .ok total
  | x :: xs =>
    match Double.ofInt (Nat.pow 60 k) with
    | .infinite _ => .error .overflow
    | base => sexagesimalFloat (total.add (x.mul base)) (k + 1) xs

def floatSize (cs : List Char) : Except Fault Double :=
  if cs = ".inf".toList then .ok (.infinite false)
  else if cs = ".nan".toList then .ok .nan
  else if cs.contains ':' then do
    let xs ← (colonParts cs).mapM floatOf
    sexagesimalFloat (.zero false) 0 xs.reverse
  else floatOf cs

def buildFloat (text : String) : Except Fault Value := do
  let (negative, cs) ← signedText text
  let x ← floatSize (cs.map Char.toLower)
  return .float (if negative then x.neg else x)

def buildBool (text : String) : Except Fault Value :=
  match truthWords.lookup (text.map Char.toLower) with
  | some b => .ok (.bool b)
  | none => .error .truth

def buildTimestamp (text : String) : Except Fault Value :=
  match Timestamp.parse? text with
  | none => .error .notTimestamp
  | some t =>
    match t.moment? with
    | none => if t.date.Exists then .ok (.date t.date) else .error .timestamp
    | some m => if m.Exists then .ok (.moment m) else .error .timestamp

def sixBits? (c : Char) : Option Nat :=
  if 'A' ≤ c ∧ c ≤ 'Z' then some (c.toNat - 'A'.toNat)
  else if 'a' ≤ c ∧ c ≤ 'z' then some (c.toNat - 'a'.toNat + 26)
  else if '0' ≤ c ∧ c ≤ '9' then some (c.toNat - '0'.toNat + 52)
  else if c = '+' then some 62
  else if c = '/' then some 63
  else none

/-- The bytes of a text in base 64. `phase` characters of the current four have been read, of which
`left` are the bits not yet used, and `pads` padding marks since the last one. Characters that do
not belong there are skipped, and full padding ends the text. -/
def bytesOf (phase left pads : Nat) : List Char → Option (List UInt8)
  | [] => if phase = 0 then some [] else none
  | c :: cs =>
    if c = '=' then
      if 2 ≤ phase then
        if 4 ≤ phase + pads + 1 then some [] else bytesOf phase left (pads + 1) cs
      else
        bytesOf phase left pads cs
    else
      match sixBits? c with
      | none => bytesOf phase left pads cs
      | some n =>
        match phase with
        | 0 => bytesOf 1 n 0 cs
        | 1 => (bytesOf 2 (n % 16) 0 cs).map ((left * 4 + n / 16).toUInt8 :: ·)
        | 2 => (bytesOf 3 (n % 4) 0 cs).map ((left * 16 + n / 4).toUInt8 :: ·)
        | _ => (bytesOf 0 0 0 cs).map ((left * 64 + n).toUInt8 :: ·)

def buildBytes (text : String) : Except Fault Value :=
  if text.toList.all (·.toNat < 0x80) then
    match bytesOf 0 0 0 text.toList with
    | some bs => .ok (.bytes bs)
    | none => .error .tag
  else
    .error .tag

def scalarReader? : Tag → Option (String → Except Fault Value)
  | .null => some fun _ => .ok .null
  | .bool => some buildBool
  | .int => some buildInt
  | .float => some buildFloat
  | .binary => some buildBytes
  | .timestamp => some buildTimestamp
  | .str => some fun text => .ok (.str text)
  | _ => none

/-- The text is the word for a NaN. All NaN that are written so are one; any other is one of its
own. -/
def isNanWord (text : String) : Bool :=
  match signedText text with
  | .ok (_, cs) => cs.map Char.toLower = ".nan".toList
  | .error _ => false

end TreePaths.Yaml
