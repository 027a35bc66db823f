/-!
Lines of a text, and the unification of line ends.
-/

namespace TreePaths.Text

/-- Characters that end a line: line feed, vertical tab, form feed, carriage return, three
information separators, next line, line separator, paragraph separator. -/
def isLineEnd (c : Char) : Bool :=
  c.toNat ∈ [0xA, 0xB, 0xC, 0xD, 0x1C, 0x1D, 0x1E, 0x85, 0x2028, 0x2029]

/-- The lines of `line.reverse ++ cs`. A carriage return and a line feed after it are one end, and
an end after which nothing follows opens no line. -/
def linesFrom (line : List Char) : List Char → List (List Char)
  | [] => if line.isEmpty then [] else [line.reverse]
  | '\r' :: '\n' :: cs => line.reverse :: linesFrom [] cs
  | c :: cs => if isLineEnd c then line.reverse :: linesFrom [] cs else linesFrom (c :: line) cs

def lines (cs : List Char) : List (List Char) :=
  linesFrom [] cs

/-- Writes every carriage return, with the line feed after it if there is one, as a line feed. -/
def unifyLineEnds : List Char → List Char
  | [] => []
  | '\r' :: '\n' :: cs => '\n' :: unifyLineEnds cs
  | c :: cs => (if c = '\r' then '\n' else c) :: unifyLineEnds cs

end TreePaths.Text
