import TreePaths.Yaml.Tag
import TreePaths.Yaml.Timestamp

/-!
Which tag a scalar has that is given none: a plain text is read as the first kind of value whose
form it has, and all else is text. One line feed may end the text.
-/

namespace TreePaths.Yaml

def isDigitOrMark (c : Char) : Bool :=
  c.isDigit || c = '_'

def dropSign : List Char → List Char
  | '+' :: cs | '-' :: cs => cs
  | cs => cs

def truthWords : List (String × Bool) :=
  [("yes", true), ("no", false), ("true", true), ("false", false), ("on", true), ("off", false)]

/-- A word in lower case, in upper case or with a capital. -/
def isWordForm (word : String) (cs : List Char) : Bool :=
  let lower := word.toList
  let upper := lower.map Char.toUpper
  cs = lower || cs = upper || cs = upper.take 1 ++ lower.drop 1

def isBoolText (cs : List Char) : Bool :=
  truthWords.any fun w => isWordForm w.1 cs

/-- Digits of which the first is no mark. -/
def isDecimalText : List Char → Bool
  | c :: cs => c.isDigit && cs.all isDigitOrMark
  | [] => false

def isSixtieth : List Char → Bool
  | [c] => c.isDigit
  | [c, d] => '0' ≤ c && c ≤ '5' && d.isDigit
  | _ => false

def colonParts (cs : List Char) : List (List Char) :=
  cs.splitOnP (· = ':')

/-- A fraction with its point, and an exponent with its sign if one is allowed. -/
def isFractionText : List Char → Bool
  | '.' :: cs =>
    match cs.dropWhile isDigitOrMark with
    | [] => true
    | e :: sign :: ds =>
      (e = 'e' || e = 'E') && (sign = '-' || sign = '+') && !ds.isEmpty && ds.all Char.isDigit
    | _ => false
  | _ => false

def isFloatText (cs : List Char) : Bool :=
  let body := dropSign cs
  let whole := body.takeWhile isDigitOrMark
  let rest := body.dropWhile isDigitOrMark
  let isPointed := isDecimalText whole && isFractionText rest
  let startsAtPoint :=
    match cs with
    | '.' :: d :: _ => d.isDigit && isFractionText cs
    | _ => false
  let isSexagesimal :=
    match colonParts body with
    | first :: second :: more =>
      let last := (second :: more).getLast?.getD []
      isDecimalText first && (second :: more).dropLast.all isSixtieth &&
        isSixtieth (last.takeWhile (· ≠ '.')) &&
        (match last.dropWhile (· ≠ '.') with
          | '.' :: ds => ds.all isDigitOrMark
          | _ => false)
    | _ => false
  isPointed || startsAtPoint || isSexagesimal ||
    body ∈ [".inf".toList, ".Inf".toList, ".INF".toList] ||
    cs ∈ [".nan".toList, ".NaN".toList, ".NAN".toList]

def isIntText (cs : List Char) : Bool :=
  let body := dropSign cs
  let rows := fun (p : Char → Bool) (ds : List Char) =>
    !ds.isEmpty && ds.all fun c => p c || c = '_'
  match body with
  | '0' :: 'b' :: ds => rows (fun c => c = '0' || c = '1') ds
  | '0' :: 'x' :: ds => rows (fun c => (Text.hexValue? c).isSome) ds
  | ['0'] => true
  | '0' :: ds => rows (fun c => '0' ≤ c && c ≤ '7') ds
  | _ =>
    match colonParts body with
    | first :: more => isDecimalText first && more.all isSixtieth
    | [] => false

def isNullText (cs : List Char) : Bool :=
  cs ∈ [['~'], "null".toList, "Null".toList, "NULL".toList]

def implicitTag (text : String) : Tag :=
  let cs := dropLineEnd text.toList
  if text.isEmpty then .null
  else if isBoolText cs then .bool
  else if isFloatText cs then .float
  else if isIntText cs then .int
  else if cs = ['<', '<'] then .merge
  else if isNullText cs then .null
  else if Timestamp.isImplicit text then .timestamp
  else if cs = ['='] then .value
  else if cs ∈ [['!'], ['&'], ['*']] then .unknown (Tag.coreSpace ++ "yaml")
  else .str

def scalarTag (text : String) (plain : Bool) : Tag :=
  if plain then implicitTag text else .str

end TreePaths.Yaml
