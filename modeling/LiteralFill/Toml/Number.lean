import LiteralFill.Syntax.Integer
import LiteralFill.Toml.Line

/-!
Numbers. An integer is decimal, or hexadecimal, octal or binary without a sign, and fits in 64 bits. A
number with a point or an exponent is a float; so are the infinities and the number that is none. Single
underscores may stand between digits.
-/

namespace LiteralFill.Toml

/-- A number. The value of a float does not matter here. -/
inductive Number
  | integer (value : Int)
  | float
  deriving DecidableEq, Repr, Inhabited

/-- A digit in a base. -/
def isDigitIn (base : Nat) (c : Char) : Bool := (digitValue c).any (· < base)

/-- The digits at the start of a text, without the underscores between them, and what follows. -/
def splitDigits (base : Nat) : List Char → List Char × List Char
  | '_' :: c :: cs =>
    if isDigitIn base c then
      let (digits, rest) := splitDigits base cs
      (c :: digits, rest)
    else ([], '_' :: c :: cs)
  | c :: cs =>
    if isDigitIn base c then
      let (digits, rest) := splitDigits base cs
      (c :: digits, rest)
    else ([], c :: cs)
  | [] => ([], [])

/-- Reads at least one digit; the first one stands before every underscore. -/
def readDigits (base : Nat) : Reading (List Char) := fun cs =>
  if (cs.head?.map (isDigitIn base)).getD false then some (splitDigits base cs) else none

/-- Reads the digits of a decimal integer: a zero alone, or digits that begin with another. -/
def readWhole : Reading (List Char)
  | '0' :: cs => some (['0'], cs)
  | cs => readDigits 10 cs

/-- Reads a sign, if there is one, and tells whether it is a minus. -/
def readSign : List Char → Bool × List Char
  | '-' :: cs => (true, cs)
  | '+' :: cs => (false, cs)
  | cs => (false, cs)

/-- The value of digits. -/
def valueOf (base : Nat) (digits : List Char) : Nat := (digitsValue base 0 digits).getD 0

/-- An integer that fits in 64 bits with its sign. -/
def signedWord? (negative : Bool) (value : Nat) : Option Int :=
  if negative then if value ≤ Nat.pow 2 63 then some (-value) else none
  else if value < Nat.pow 2 63 then some value else none

/-! ## Floats -/

/-- The least value that is rounded to infinity: half a unit above the greatest double. -/
def overflowBound : Nat := Nat.pow 2 1024 - Nat.pow 2 970

/-- The digits, shifted by a power of ten, stand for a value that is too large for a double. -/
def overflows (digits : List Char) (exponent : Int) : Bool :=
  let digits := digits.dropWhile (· == '0')
  let magnitude := (digits.length : Int) + exponent
  if digits.isEmpty || magnitude < 300 then false
  else if 320 < magnitude then true
  else if 0 ≤ exponent then overflowBound ≤ valueOf 10 digits * Nat.pow 10 exponent.toNat
  else overflowBound * Nat.pow 10 (-exponent).toNat ≤ valueOf 10 digits

/-- Reads the digits after a point, if there is one. -/
def readFraction : Reading (Option (List Char))
  | '.' :: cs => (readDigits 10 cs).map fun (digits, rest) => (some digits, rest)
  | cs => some (none, cs)

/-- Reads the exponent after its mark. -/
def readExponentAfter : Reading Int := fun cs =>
  let (negative, cs) := readSign cs
  (readDigits 10 cs).map fun (digits, rest) =>
    (if negative then -(valueOf 10 digits : Int) else valueOf 10 digits, rest)

/-- Reads an exponent, if there is one. -/
def readExponent : Reading (Option Int)
  | 'e' :: cs => (readExponentAfter cs).map fun (n, rest) => (some n, rest)
  | 'E' :: cs => (readExponentAfter cs).map fun (n, rest) => (some n, rest)
  | cs => some (none, cs)

/-! ## Reading -/

/-- Reads an integer after the mark of its base. -/
def readBased (base : Nat) : Reading Number := fun cs => do
  let (digits, rest) ← readDigits base cs
  let value ← signedWord? false (valueOf base digits)
  some (.integer value, rest)

/-- Reads a decimal number after its sign. -/
def readDecimal (negative : Bool) : Reading Number := fun cs => do
  let (whole, cs) ← readWhole cs
  let (fraction, cs) ← readFraction cs
  let (exponent, cs) ← readExponent cs
  if fraction.isNone && exponent.isNone then
    let value ← signedWord? negative (valueOf 10 whole)
    some (.integer value, cs)
  else
    let fraction := fraction.getD []
    if !negative && overflows (whole ++ fraction) (exponent.getD 0 - fraction.length) then none
    else some (.float, cs)

/-- Reads a number after its sign. -/
def readUnsigned (negative : Bool) : Reading Number
  | 'i' :: 'n' :: 'f' :: cs => some (.float, cs)
  | 'n' :: 'a' :: 'n' :: cs => some (.float, cs)
  | cs => readDecimal negative cs

/-- Reads a number. -/
def readNumber : Reading Number
  | '0' :: 'x' :: cs => readBased 16 cs
  | '0' :: 'o' :: cs => readBased 8 cs
  | '0' :: 'b' :: cs => readBased 2 cs
  | cs => let (negative, cs) := readSign cs; readUnsigned negative cs

end LiteralFill.Toml
