import TreePaths.Text.Digit
import TreePaths.Text.Quoted

/-!
What can be wrong with a search path, and the words for it.
-/

namespace TreePaths

inductive PathFault where
  | strayCharacter (c : Char) (offset : Nat)
  | danglingSeparator (offset : Nat)
  | notAList
  | unterminated
  | noToken
  | negativeIndex (i : Int)
  | trailing (offset : Nat)
  deriving DecidableEq, Repr

namespace PathFault

def message : PathFault → String
  | strayCharacter c offset =>
    s!"Unexpected character {Text.quoted (.singleton c)} at offset {offset}"
  | danglingSeparator offset => s!"Dangling '::' at offset {offset}"
  | notAList => "Search path must be a parenthesised list"
  | unterminated => "Unterminated search path"
  | noToken => "Annotations must precede a path token"
  | negativeIndex i => s!"Index must be non-negative, got {i}"
  | trailing offset => s!"Unexpected content after search path at offset {offset}"

end PathFault

inductive PathError where
  /-- The text is malformed. -/
  | malformed (fault : PathFault) (text : String)
  /-- An index in the text has more digits than can be read. -/
  | digits (count : Nat)
  | notText (typeName : String)
  | annotationType (typeName : String)
  | nameType (typeName : String)
  | positionType (typeName : String)
  | negativePosition (i : Int)
  /-- Something that is no component stands among the components. -/
  | unsupported (display : String)
  /-- A value that should yield items does not. -/
  | notIterable
  /-- The message would tell an integer that has too many digits. -/
  | untold
  deriving DecidableEq, Repr

namespace PathError

def message : PathError → String
  | malformed fault text => s!"{fault.message}: {Text.quoted text}"
  | digits count => Text.digitsMessage count
  | notText t => s!"Search path must be a string, got {t}"
  | annotationType t => s!"Annotations must be strings, got {t}"
  | nameType t => s!"Field name must be a string, got {t}"
  | positionType t => s!"Index position must be an integer, got {t}"
  | negativePosition i => s!"Index position must be non-negative, got {i}"
  | unsupported d => s!"Unsupported path component {d}"
  | notIterable => "value is not iterable"
  | untold => Text.untoldMessage

end PathError

end TreePaths
