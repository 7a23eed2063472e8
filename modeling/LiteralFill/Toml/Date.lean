import LiteralFill.Syntax.Integer
import LiteralFill.Toml.Line

/-!
Dates and times of day. A date may have a time after it, and that an offset; a time may stand alone. They
are kept in one spelling: with a `T` before the time, and at most nine places of a second.
-/

namespace LiteralFill.Toml

/-- A decimal digit. -/
def isDecimal (c : Char) : Bool := '0' ≤ c && c ≤ '9'

/-- Reads a number with this many digits and in this range. -/
def readField (count low high : Nat) : Reading Nat := fun cs => do
  let digits := cs.take count
  if digits.length = count ∧ digits.all isDecimal then
    let value ← digitsValue 10 0 digits
    if low ≤ value ∧ value ≤ high then some (value, cs.drop count) else none
  else none

/-- Reads one character. -/
def readMark (mark : Char) : Reading Unit
  | c :: cs => if c = mark then some ((), cs) else none
  | [] => none

/-- The number of days of a month. -/
def daysIn (year month : Nat) : Nat :=
  if month = 2 then if year % 4 = 0 ∧ (year % 100 ≠ 0 ∨ year % 400 = 0) then 29 else 28
  else if month = 4 ∨ month = 6 ∨ month = 9 ∨ month = 11 then 30
  else 31

/-- A number with zeros before it up to a width. -/
def padded (count value : Nat) : String :=
  let digits := toString value
  String.ofList (List.replicate (count - digits.length) '0') ++ digits

/-- Reads a date. -/
def readDate : Reading String := fun cs => do
  let (year, cs) ← readField 4 0 9999 cs
  let (_, cs) ← readMark '-' cs
  let (month, cs) ← readField 2 1 12 cs
  let (_, cs) ← readMark '-' cs
  let (day, cs) ← readField 2 1 (daysIn year month) cs
  some (padded 4 year ++ "-" ++ padded 2 month ++ "-" ++ padded 2 day, cs)

/-- The places of a second, without zeros at their end. -/
def places (digits : List Char) : String :=
  match ((digits.take 9).reverse.dropWhile (· == '0')).reverse with
  | [] => ""
  | kept => String.ofList ('.' :: kept)

/-- Reads the places of a second, if there are any. -/
def readPlaces : Reading String
  | '.' :: cs =>
    let digits := cs.takeWhile isDecimal
    if digits.isEmpty then none else some (places digits, cs.dropWhile isDecimal)
  | cs => some ("", cs)

/-- Reads a time of day. -/
def readTime : Reading String := fun cs => do
  let (hour, cs) ← readField 2 0 23 cs
  let (_, cs) ← readMark ':' cs
  let (minute, cs) ← readField 2 0 59 cs
  let (_, cs) ← readMark ':' cs
  let (second, cs) ← readField 2 0 60 cs
  let (fraction, cs) ← readPlaces cs
  some (padded 2 hour ++ ":" ++ padded 2 minute ++ ":" ++ padded 2 second ++ fraction, cs)

/-- Reads the hours and minutes of an offset. -/
def readOffsetAfter (sign : String) : Reading String := fun cs => do
  let (hour, cs) ← readField 2 0 23 cs
  let (_, cs) ← readMark ':' cs
  let (minute, cs) ← readField 2 0 59 cs
  let sign := if hour = 0 ∧ minute = 0 then "+" else sign
  some (sign ++ padded 2 hour ++ ":" ++ padded 2 minute, cs)

/-- Reads an offset, if there is one. No offset is written with a plus. -/
def readOffset : Reading String
  | 'Z' :: cs => some ("Z", cs)
  | 'z' :: cs => some ("Z", cs)
  | '+' :: cs => readOffsetAfter "+" cs
  | '-' :: cs => readOffsetAfter "-" cs
  | cs => some ("", cs)

/-- What separates a time from the date before it. -/
def isTimeMark (c : Char) : Bool := c == 'T' || c == 't' || c == ' '

/-- Reads a time after a date, if there is one. -/
def readTimeAfter (date : String) : Reading String
  | c :: cs =>
    if isTimeMark c then
      match readTime cs with
      | some (time, rest) =>
        (readOffset rest).map fun (offset, rest) => (date ++ "T" ++ time ++ offset, rest)
      | none => some (date, c :: cs)
    else some (date, c :: cs)
  | [] => some (date, [])

/-- Reads a date, a time, or both. -/
def readMoment : Reading String := fun cs =>
  match readDate cs with
  | some (date, rest) => readTimeAfter date rest
  | none => readTime cs

end LiteralFill.Toml
