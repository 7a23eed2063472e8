/-!
How far two names are apart, and the name that was probably meant. The distance is Levenshtein's,
computed row by row of its table.
-/

namespace LiteralFill

/-- The next row of the distance table. `diagonal` is the entry above and to the left, `left` the entry
just written, and the list the remaining entries of the row above with the characters they stand
for. -/
def nextRow (c : Char) (diagonal left : Nat) : List (Char × Nat) → List Nat
  | [] => []
  | (d, above) :: rest =>
    let replaced := diagonal + if c = d then 0 else 1
    let entry := min (min replaced (above + 1)) (left + 1)
    entry :: nextRow c above entry rest

/-- The rows of the table for each character of a text, starting from the row after `seen`
characters. The answer is the last row. -/
def distanceRows (target : List Char) : Nat → List Nat → List Char → List Nat
  | _, row, [] => row
  | seen, row, c :: cs =>
    let next := (seen + 1) :: nextRow c (row.headD 0) (seen + 1) (target.zip row.tail)
    distanceRows target (seen + 1) next cs

/-- The least number of characters to insert, delete or replace to turn one text into the other. -/
def editDistance (a b : String) : Nat :=
  let target := b.toList
  (distanceRows target 0 (List.range (target.length + 1)) a.toList).getLastD 0

/-- How far a suggestion may be from what was written: half the length, but at least one and at
most three edits. -/
def suggestionBudget (needle : String) : Nat := min 3 (max 1 ((needle.length + 1) / 2))

/-- The first of the nearest candidates within `budget`, other than the text itself. -/
def nearest (needle : String) (budget : Nat) : List String → Option (String × Nat)
  | [] => none
  | candidate :: rest =>
    let distance := editDistance needle candidate
    let later := nearest needle budget rest
    if 1 ≤ distance && distance ≤ budget then
      match later with
      | some (other, d) => if d < distance then some (other, d) else some (candidate, distance)
      | none => some (candidate, distance)
    else later

/-- The candidate that was probably meant, if one is near enough. -/
def suggestSimilar (needle : String) (candidates : List String) : Option String :=
  (nearest needle (suggestionBudget needle) candidates).map (·.1)

end LiteralFill
