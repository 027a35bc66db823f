import TreePaths.Yaml.Fault

/-!
The characters of a YAML text as far as they can be read. A text in memory is checked as a whole; a
file is read in portions, and what is wrong in a portion is found when the portion is needed.
-/

namespace TreePaths.Yaml

def isAllowed (c : Char) : Bool :=
  let n := c.toNat
  n ∈ [0x9, 0xA, 0xD, 0x85] || (0x20 ≤ n && n ≤ 0x7E) || (0xA0 ≤ n && n ≤ 0xD7FF) ||
    (0xE000 ≤ n && n ≤ 0xFFFD) || (0x10000 ≤ n && n ≤ 0x10FFFF)

/-- A text as far as it can be read. A fault stands in the place of what follows. -/
structure Stream where
  text : List Char
  fault : Option Fault

namespace Stream

def ofText (cs : List Char) : Stream :=
  if cs.all isAllowed then ⟨cs, none⟩ else ⟨[], some .character⟩

/-- How many of `n` characters lie in whole portions. The first portion is twice as long as the
others. -/
def inPortions (n : Nat) : Nat :=
  if n < 8192 then 0 else n / 4096 * 4096

/-- The stream of a file from which `cs` can be read, and then nothing more if there is a fault. -/
def ofFile (cs : List Char) (fault : Option Fault) : Stream :=
  let good := inPortions (cs.takeWhile isAllowed).length
  let whole := inPortions cs.length
  if !cs.all isAllowed && (fault.isNone || good < whole) then ⟨cs.take good, some .character⟩
  else if fault.isSome then ⟨cs.take whole, fault⟩
  else ⟨cs, none⟩

end Stream

end TreePaths.Yaml
