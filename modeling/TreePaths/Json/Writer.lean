import TreePaths.Text.Hex
import TreePaths.Value.Display

/-!
Writing plain data as JSON, with an indentation of two blanks for each level. Only the quote, the
backslash and the control characters are escaped; dates are written as their ISO texts.
-/

namespace TreePaths.Json

inductive WriteError where
  | unsupported (typeName : String)
  | untold (i : Int)
  deriving DecidableEq, Repr

def WriteError.message : WriteError → String
  | unsupported t => s!"Object of type {t} is not JSON serializable"
  | untold _ => Text.untoldMessage

def escapeChar (c : Char) : List Char :=
  match c with
  | '"' => ['\\', '"']
  | '\\' => ['\\', '\\']
  | '\n' => ['\\', 'n']
  | '\r' => ['\\', 'r']
  | '\t' => ['\\', 't']
  | '\x08' => ['\\', 'b']
  | '\x0c' => ['\\', 'f']
  | c => if c.toNat < 0x20 then '\\' :: 'u' :: Text.hexDigits 4 c.toNat else [c]

def writeString (s : String) : List Char :=
  '"' :: (s.toList.flatMap escapeChar ++ ['"'])

def writeInt (i : Int) : Except WriteError (List Char) :=
  if Text.isWritable i then .ok (toString i).toList else .error (.untold i)

def writeAtom : Value → Except WriteError (List Char)
  | .null => .ok "null".toList
  | .bool b => .ok (if b then "true" else "false").toList
  | .int i => writeInt i
  | .float x => .ok (x.textWith ⟨"NaN", "Infinity"⟩).toList
  | .str s => .ok (writeString s)
  | .date d => .ok (writeString d.iso)
  | .moment t => .ok (writeString t.iso)
  | v => .error (.unsupported v.typeName)

def newLine (level : Nat) : List Char :=
  '\n' :: List.replicate (2 * level) ' '

/-- Parts of a container at `level`, each on a line of its own, between brackets. -/
def block (opening closing : Char) (level : Nat) : List (List Char) → List Char
  | [] => [opening, closing]
  | parts =>
    let line := newLine (level + 1)
    opening :: line ++ (',' :: line).intercalate parts ++ newLine level ++ [closing]

mutual

def writeValue (level : Nat) : Value → Except WriteError (List Char)
  | .list vs => return block '[' ']' level (← writeItems (level + 1) vs)
  | .tuple vs => return block '[' ']' level (← writeItems (level + 1) vs)
  | .map es => return block '\x7b' '\x7d' level (← writeMembers (level + 1) es)
  | v => writeAtom v

def writeItems (level : Nat) : List Value → Except WriteError (List (List Char))
  | [] => return []
  | v :: vs => return (← writeValue level v) :: (← writeItems level vs)

def writeMembers (level : Nat) : List (Value × Value) → Except WriteError (List (List Char))
  | [] => return []
  | (k, v) :: es => do
    let text ← writeValue level v
    return (writeString k.label ++ ':' :: ' ' :: text) :: (← writeMembers level es)

end

def write (v : Value) : Except WriteError String :=
  (writeValue 0 v).map .ofList

end TreePaths.Json
