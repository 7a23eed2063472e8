/-!
A text in pieces.
-/

namespace LiteralFill

/-- The pieces of a text between the places where a character stands. There is one piece more than
there are such places. -/
def splitAround (c : Char) : List Char → List (List Char)
  | [] => [[]]
  | d :: cs =>
    if d = c then [] :: splitAround c cs
    else
      match splitAround c cs with
      | piece :: pieces => (d :: piece) :: pieces
      | [] => [[d]]

end LiteralFill
