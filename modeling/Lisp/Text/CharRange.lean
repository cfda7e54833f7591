/-!
# Ranges of characters

A property of characters is given by a table: the ranges of the code
points that have it.
-/

namespace Lisp

/-- Ranges of code points, both ends included. -/
abbrev CharRanges := List (Nat × Nat)

def CharRanges.contains (ranges : CharRanges) (c : Char) : Bool :=
  ranges.any fun (first, last) => first ≤ c.toNat && c.toNat ≤ last

end Lisp
