import TreePaths.Text.Hex
import TreePaths.Text.Printable

/-!
Quoted forms of texts and bytes, as they stand in messages. Single quotes are used unless the text
holds a single quote and no double one; the backslash, the quote in use and what is not printable
are escaped.
-/

namespace TreePaths.Text

def quoteFor (cs : List Char) : Char :=
  if cs.contains '\'' && !cs.contains '"' then '"' else '\''

def namedEscape? (q c : Char) : Option (List Char) :=
  if c = '\\' || c = q then some ['\\', c]
  else if c = '\n' then some ['\\', 'n']
  else if c = '\r' then some ['\\', 'r']
  else if c = '\t' then some ['\\', 't']
  else none

def hexEscape (n : Nat) : List Char :=
  if n < 0x100 then '\\' :: 'x' :: hexDigits 2 n
  else if n < 0x10000 then '\\' :: 'u' :: hexDigits 4 n
  else '\\' :: 'U' :: hexDigits 8 n

def escapeChar (q c : Char) : List Char :=
  match namedEscape? q c with
  | some e => e
  | none => if isPrintable c then [c] else hexEscape c.toNat

def quoted (s : String) : String :=
  let cs := s.toList
  let q := quoteFor cs
  .ofList (q :: (cs.flatMap (escapeChar q) ++ [q]))

def escapeByte (q : Char) (b : UInt8) : List Char :=
  let c := Char.ofNat b.toNat
  match namedEscape? q c with
  | some e => e
  | none => if 0x20 ≤ b.toNat && b.toNat ≤ 0x7E then [c] else hexEscape b.toNat

def quotedBytes (bs : List UInt8) : String :=
  let q := quoteFor (bs.map fun b => Char.ofNat b.toNat)
  .ofList ('b' :: q :: (bs.flatMap (escapeByte q) ++ [q]))

end TreePaths.Text
