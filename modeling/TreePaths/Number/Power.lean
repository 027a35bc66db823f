/-!
Powers of the two bases of numbers.
-/

namespace TreePaths

abbrev twoTo (n : Nat) : Nat :=
  Nat.pow 2 n

abbrev tenTo (n : Nat) : Nat :=
  Nat.pow 10 n

end TreePaths
