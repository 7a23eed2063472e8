/-!
The values of integer literals, up to the largest value of 64 bits.
-/

namespace LiteralFill

/-- The values that fit in 64 bits are below this bound. -/
def wordBound : Nat := Nat.pow 2 64

/-- The value of a digit in bases up to sixteen. -/
def digitValue (c : Char) : Option Nat :=
  if '0' ≤ c ∧ c ≤ '9' then some (c.toNat - '0'.toNat)
  else if 'a' ≤ c ∧ c ≤ 'z' then some (c.toNat - 'a'.toNat + 10)
  else if 'A' ≤ c ∧ c ≤ 'Z' then some (c.toNat - 'A'.toNat + 10)
  else none

/-- The value of digits that follow digits of value `value`. -/
def digitsValue (base : Nat) : Nat → List Char → Option Nat
  | value, [] => some value
  | value, c :: cs =>
    match digitValue c with
    | some d => if d < base then digitsValue base (value * base + d) cs else none
    | none => none

/-- A number in a base: at least one digit, perhaps after a plus sign, and below the bound. -/
def boundedNumber (base : Nat) (cs : List Char) : Option Nat :=
  let digits := if cs.head? = some '+' then cs.drop 1 else cs
  if digits.isEmpty then none
  else (digitsValue base 0 digits).filter (· < wordBound)

/-- The value of an integer literal: decimal, or hexadecimal, octal or binary after its mark, or
octal after a zero. Underscores count for nothing. -/
def integerValue (text : List Char) : Option Nat :=
  match (text.filter (· != '_')).map Char.toLower with
  | '0' :: 'x' :: digits => boundedNumber 16 digits
  | '0' :: 'o' :: digits => boundedNumber 8 digits
  | '0' :: 'b' :: digits => boundedNumber 2 digits
  | '0' :: d :: digits => boundedNumber 8 (d :: digits)
  | digits => boundedNumber 10 digits

end LiteralFill
