/-!
Classes and maps of characters given by ranges of code points.
-/

namespace TreePaths.Text

/-- Closed ranges of code points, in ascending order. -/
abbrev Ranges := List (Nat × Nat)

def Ranges.find? (rs : Ranges) (c : Char) : Option (Nat × Nat) :=
  List.find? (fun r => r.1 ≤ c.toNat && c.toNat ≤ r.2) rs

def Ranges.holds (rs : Ranges) (c : Char) : Bool :=
  (rs.find? c).isSome

/-- Every `stride`-th code point from `first` to `last` moves by `shift`. -/
structure ShiftRun where
  first : Nat
  last : Nat
  stride : Nat
  shift : Int

def ShiftRun.covers (r : ShiftRun) (n : Nat) : Bool :=
  r.first ≤ n && n ≤ r.last && (n - r.first) % r.stride == 0

/-- The image of a character under the first run that covers it, or the character itself. -/
def shiftChar (rs : List ShiftRun) (c : Char) : Char :=
  match rs.find? (·.covers c.toNat) with
  | some r => Char.ofNat (c.toNat + r.shift).toNat
  | none => c

end TreePaths.Text
