/-!
Sets of characters given as ranges of code points. A table of a character property is a list of
such ranges in increasing order; membership is a search through the list.
-/

namespace LiteralFill

/-- A code point lies in one of the closed ranges. -/
def inRanges (ranges : List (Nat × Nat)) (c : Char) : Bool :=
  ranges.any fun r => r.1 ≤ c.toNat && c.toNat ≤ r.2

/-- A code point is one of the values `first, first + step, …, last` of a row. -/
def inSteps (rows : List (Nat × Nat × Nat)) (c : Char) : Bool :=
  rows.any fun (first, last, step) =>
    first ≤ c.toNat && c.toNat ≤ last && (c.toNat - first) % step == 0

end LiteralFill
