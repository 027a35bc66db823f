import TreePaths.Text.Lines

/-!
Texts as bytes in UTF-8.
-/

namespace TreePaths.Text

def ofBytes (bs : List UInt8) : Option String :=
  String.fromUTF8? ⟨bs.toArray⟩

/-- The text that bytes encode that may end within a character. -/
def ofCutBytes (bs : List UInt8) : Option String :=
  (List.range 4).findSome? fun k => ofBytes (bs.take (bs.length - k))

/-- How many bytes of a file are decoded at a time. -/
def decodedAtOnce : Nat := 8192

/-- The text at the start of bytes, in pieces that are decoded at a time, up to the first that
cannot be decoded. -/
def decodable (bs : List UInt8) : String :=
  let counts := (List.range (bs.length / decodedAtOnce + 1)).reverse
  (counts.findSome? fun k => ofCutBytes (bs.take (k * decodedAtOnce))).getD ""

/-- The text that a file with these bytes holds, with every line end as a line feed. -/
def ofFileBytes (bs : List UInt8) : Option (List Char) :=
  (ofBytes bs).map fun s => unifyLineEnds s.toList

end TreePaths.Text
