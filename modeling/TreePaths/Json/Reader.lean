import TreePaths.Json.Fault
import TreePaths.Text.Hex
import TreePaths.Value.Basic

/-!
Reading JSON. Objects become structs, so that repeated names are kept. `NaN`, `Infinity` and
`-Infinity` are numbers; a number with a fraction or an exponent is a floating-point number.
-/

namespace TreePaths.Json

/-- Why reading stopped. The place is given by the number of characters from there to the end. -/
inductive Stop where
  | fault (f : Fault) (remaining : Nat)
  | digits (count : Nat)

abbrev Reading (α : Type) := Except Stop (α × List Char)

def stopAt {α : Type} (f : Fault) (cs : List Char) : Except Stop α :=
  .error (.fault f cs.length)

def isSpace (c : Char) : Bool :=
  c = ' ' || c = '\t' || c = '\n' || c = '\r'

def skipSpace (cs : List Char) : List Char :=
  cs.dropWhile isSpace

/-- The number that four hexadecimal digits at the front denote; a text that ends right behind
them has none. -/
def codeUnit? : List Char → Option (Nat × List Char)
  | a :: b :: c :: d :: e :: cs => (Text.hexNumber? [a, b, c, d]).map (·, e :: cs)
  | _ => none

def namedEscape? : Char → Option Char
  | '"' => some '"'
  | '\\' => some '\\'
  | '/' => some '/'
  | 'b' => some '\x08'
  | 'f' => some '\x0c'
  | 'n' => some '\n'
  | 'r' => some '\r'
  | 't' => some '\t'
  | _ => none

/-- The character of a `u` escape, of which `cs` are the characters from the `u` on, and the rest.
Two escapes that form a surrogate pair are one character, unless the text ends behind them. -/
def readCode (cs : List Char) : Reading Char :=
  match codeUnit? (cs.drop 1) with
  | none => stopAt .badCodeEscape cs
  | some (hi, rest) =>
    match rest with
    | '\\' :: 'u' :: more =>
      if Text.isHighHalf hi && 5 ≤ more.length then
        match codeUnit? more with
        | none => stopAt .badCodeEscape ('u' :: more)
        | some (lo, behind) =>
          if Text.isLowHalf lo then .ok (Text.pairChar hi lo, behind)
          else .ok (Text.codeChar hi, rest)
      else
        .ok (Text.codeChar hi, rest)
    | _ => .ok (Text.codeChar hi, rest)

/-- Reads a string behind its opening quote. `start` is the text from that quote on and `done` are
the characters read so far, the last one first. -/
def readString (start : List Char) : Nat → List Char → List Char → Reading String
  | 0, _, _ => stopAt .unterminatedString start
  | fuel + 1, done, cs =>
    match cs with
    | [] => stopAt .unterminatedString start
    | '"' :: rest => .ok (.ofList done.reverse, rest)
    | ['\\'] => stopAt .unterminatedString start
    | '\\' :: 'u' :: rest =>
      match readCode ('u' :: rest) with
      | .error e => .error e
      | .ok (c, rest) => readString start fuel (c :: done) rest
    | '\\' :: c :: rest =>
      match namedEscape? c with
      | some d => readString start fuel (d :: done) rest
      | none => stopAt .badEscape cs
    | c :: rest =>
      if c.toNat < 0x20 then stopAt .controlCharacter cs
      else readString start fuel (c :: done) rest

def readQuoted (cs : List Char) : Reading String :=
  readString cs cs.length [] (cs.drop 1)

/-- The whole part of a number: a zero, or digits of which the first is none. -/
def wholeDigits? : List Char → Option (List Char × List Char)
  | '0' :: cs => some (['0'], cs)
  | cs =>
    let ds := cs.takeWhile Char.isDigit
    if ds.isEmpty then none else some (ds, cs.dropWhile Char.isDigit)

/-- The digits behind a point; a point without digits is none. -/
def fractionDigits : List Char → List Char × List Char
  | '.' :: cs =>
    let ds := cs.takeWhile Char.isDigit
    if ds.isEmpty then ([], '.' :: cs) else (ds, cs.dropWhile Char.isDigit)
  | cs => ([], cs)

def exponent? (cs : List Char) : Option (Bool × List Char × List Char) :=
  let digits := fun (negative : Bool) (cs : List Char) =>
    let ds := cs.takeWhile Char.isDigit
    if ds.isEmpty then none else some (negative, ds, cs.dropWhile Char.isDigit)
  match cs with
  | 'e' :: '-' :: cs | 'E' :: '-' :: cs => digits true cs
  | 'e' :: '+' :: cs | 'E' :: '+' :: cs => digits false cs
  | 'e' :: cs | 'E' :: cs => digits false cs
  | _ => none

/-- Reads a number; `start` is the text from its sign on. -/
def readNumber (start : List Char) : Reading Value :=
  let (negative, cs) :=
    match start with
    | '-' :: cs => (true, cs)
    | cs => (false, cs)
  match wholeDigits? cs with
  | none => stopAt .expectedValue start
  | some (whole, cs) =>
    let (fraction, cs) := fractionDigits cs
    match fraction, exponent? cs with
    | [], none =>
      if Text.digitLimit < whole.length then .error (.digits whole.length)
      else
        let n : Int := Text.decimalValue whole
        .ok (.int (if negative then -n else n), cs)
    | fraction, exponent =>
      let (e, cs) :=
        match exponent with
        | none => ((0 : Int), cs)
        | some (below, ds, cs) =>
          let n : Int := Text.decimalValue ds
          (if below then -n else n, cs)
      let m := Text.decimalValue (whole ++ fraction)
      .ok (.float (.ofDecimal negative m (e - fraction.length)), cs)

/-- Reads a value that is neither a string, an array nor an object. -/
def readAtom : List Char → Reading Value
  | 'n' :: 'u' :: 'l' :: 'l' :: cs => .ok (.null, cs)
  | 't' :: 'r' :: 'u' :: 'e' :: cs => .ok (.bool true, cs)
  | 'f' :: 'a' :: 'l' :: 's' :: 'e' :: cs => .ok (.bool false, cs)
  | 'N' :: 'a' :: 'N' :: cs => .ok (.float .nan, cs)
  | 'I' :: 'n' :: 'f' :: 'i' :: 'n' :: 'i' :: 't' :: 'y' :: cs => .ok (.float (.infinite false), cs)
  | '-' :: 'I' :: 'n' :: 'f' :: 'i' :: 'n' :: 'i' :: 't' :: 'y' :: cs =>
    .ok (.float (.infinite true), cs)
  | cs => readNumber cs

mutual

def readValue : Nat → List Char → Reading Value
  | 0, cs => stopAt .expectedValue cs
  | fuel + 1, cs =>
    match cs with
    | '"' :: _ =>
      match readQuoted cs with
      | .error e => .error e
      | .ok (s, rest) => .ok (.str s, rest)
    | '[' :: rest =>
      match skipSpace rest with
      | ']' :: rest => .ok (.list [], rest)
      | rest => readItems fuel [] rest
    | '\x7b' :: rest =>
      match skipSpace rest with
      | '\x7d' :: rest => .ok (.struct [], rest)
      | rest => readMembers fuel [] rest
    | _ => readAtom cs

/-- Reads the items of an array up to its end; `done` are those read so far, the last one first. -/
def readItems : Nat → List Value → List Char → Reading Value
  | 0, _, cs => stopAt .expectedValue cs
  | fuel + 1, done, cs =>
    match readValue fuel cs with
    | .error e => .error e
    | .ok (v, rest) =>
      match skipSpace rest with
      | ']' :: rest => .ok (.list (v :: done).reverse, rest)
      | ',' :: rest => readItems fuel (v :: done) (skipSpace rest)
      | rest => stopAt .expectedComma rest

def readMembers : Nat → List (String × Value) → List Char → Reading Value
  | 0, _, cs => stopAt .expectedName cs
  | fuel + 1, done, cs =>
    match cs with
    | '"' :: _ =>
      match readQuoted cs with
      | .error e => .error e
      | .ok (name, rest) =>
        match skipSpace rest with
        | ':' :: rest =>
          match readValue fuel (skipSpace rest) with
          | .error e => .error e
          | .ok (v, rest) =>
            match skipSpace rest with
            | '\x7d' :: rest => .ok (.struct ((name, v) :: done).reverse, rest)
            | ',' :: rest => readMembers fuel ((name, v) :: done) (skipSpace rest)
            | rest => stopAt .expectedComma rest
        | rest => stopAt .expectedColon rest
    | _ => stopAt .expectedName cs

end

def readDocument (cs : List Char) : Except Stop Value :=
  match cs with
  | '\ufeff' :: _ => stopAt .byteOrderMark cs
  | _ =>
    match readValue (2 * cs.length + 2) (skipSpace cs) with
    | .error e => .error e
    | .ok (v, rest) =>
      match skipSpace rest with
      | [] => .ok v
      | rest => stopAt .extraData rest

def Stop.error (cs : List Char) : Stop → Error
  | .fault f remaining => .malformed f (.after (cs.take (cs.length - remaining)))
  | .digits count => .digits count

def read (cs : List Char) : Except Error Value :=
  match readDocument cs with
  | .ok v => .ok v
  | .error e => .error (e.error cs)

end TreePaths.Json
