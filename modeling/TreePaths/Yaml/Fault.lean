/-!
What can be wrong with a YAML text.
-/

namespace TreePaths.Yaml

inductive Fault where
  /-- A character that no text may hold. -/
  | character
  /-- Bytes that encode no character. -/
  | encoding
  /-- No token can be made of what stands here. -/
  | token
  /-- A token does not fit where it stands. -/
  | placement
  | undefinedAlias
  | repeatedAnchor
  /-- A node is needed while it is being built. -/
  | cycle
  | undefinedHandle
  | severalDocuments
  /-- The tag of a node cannot be built from its content, or says nothing about how to. -/
  | tag
  /-- A decimal integer has more digits than can be read. -/
  | digits (count : Nat)
  /-- An escape denotes no character; `wide` if its code does not even fit into 31 bits. -/
  | code (wide : Bool)
  /-- A text under a number tag is no number. -/
  | number
  | emptyNumber
  /-- A text under the truth value tag is no truth value. -/
  | truth
  /-- A number is too large for the arithmetic it takes part in. -/
  | overflow
  /-- A text under the timestamp tag is no timestamp. -/
  | notTimestamp
  /-- A timestamp that does not exist. -/
  | timestamp
  /-- A mapping stands for a timestamp. -/
  | timestampMapping
  /-- A text or a sequence stands where pairs are needed. -/
  | pairsOfText
  | pairsOfSequence
  /-- An annotated key holds something that is no key. -/
  | key
  /-- The name of a field holds an integer with too many digits to be written. -/
  | longName
  /-- The text of a mapping leads back to the mapping. -/
  | endless
  deriving DecidableEq, Repr

/-- The text is malformed YAML, or asks for what cannot be built. -/
def Fault.isMalformed : Fault → Bool
  | character | token | placement | undefinedAlias | repeatedAnchor | cycle | undefinedHandle
  | severalDocuments | tag => true
  | _ => false

end TreePaths.Yaml
