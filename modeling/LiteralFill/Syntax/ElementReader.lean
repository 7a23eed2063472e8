import LiteralFill.Syntax.Comment
import LiteralFill.Syntax.Matching
import LiteralFill.Syntax.SourceFile

/-!
The elements of a literal. They are separated by the commas outside inner brackets; the comments
between them go to the element whose line they end, to the element they stand before, or to the end
of the literal.
-/

namespace LiteralFill

/-- The first and last token of the element that starts at `i` and the index of the comma after it, or
of `rbrace`. Semicolons belong to no element. -/
def elementTokens (s : Lexed) (rbrace : Nat) :
    Nat → Nat → Option (Nat × Nat) → Option (Nat × Nat) × Nat
  | 0, i, extent => (extent, i)
  | fuel + 1, i, extent =>
    if i < rbrace then
      match s.kindAt i with
      | some .comma => (extent, i)
      | some .semicolon => elementTokens s rbrace fuel (i + 1) extent
      | _ =>
        let first := (extent.map (·.1)).getD i
        match s.closerOf i with
        | some close =>
          if close ≤ rbrace then elementTokens s rbrace fuel (close + 1) (some (first, close))
          else elementTokens s rbrace fuel (i + 1) (some (first, i))
        | none => elementTokens s rbrace fuel (i + 1) (some (first, i))
    else (extent, i)

/-- The index of the colon that ends the key of the element from `first` through `last`. -/
def keyColon (s : Lexed) (first last : Nat) : Nat → Nat → Option Nat
  | 0, _ => none
  | fuel + 1, i =>
    if i ≤ last then
      match s.kindAt i with
      | some .colon => if first < i then some i else keyColon s first last fuel (i + 1)
      | some (.opener _) => keyColon s first last fuel (s.skipGroup i (last + 1))
      | _ => keyColon s first last fuel (i + 1)
    else none

/-- The key of an element and the first token of its value. -/
def elementKey (s : Lexed) (first last : Nat) : Option Key × Option Nat :=
  match keyColon s first last (last + 1 - first) first with
  | some colon =>
    let key : Key :=
      ⟨s.textBetween first (colon - 1), ⟨s.startAt first, s.stopAt (colon - 1)⟩,
        colon == first + 1 && s.kindAt first == some .ident⟩
    (some key, if colon < last then some (colon + 1) else none)
  | none => (none, some first)

/-- The range of a value. After a key it begins with the first thing after the colon that is not
white space, be it a comment. -/
def valueSpan (s : Lexed) (key : Option Key) (valueFirst : Option Nat) (last : Nat) : Span :=
  let stop := s.stopAt last
  match valueFirst, key with
  | none, _ => .empty stop
  | some v, none => ⟨s.startAt v, stop⟩
  | some v, some _ =>
    let colon := s.stopAt (v - 1)
    let gap := slice s.text ⟨colon, s.startAt v⟩
    ⟨colon + (byteLength gap - byteLength (trimStart gap)), stop⟩

/-- The text after a newline is left to what follows: the position of the first newline of a span, or
its end. -/
def lineEnd (text : List Char) (span : Span) : Nat :=
  let line := (slice text span).takeWhile (· != '\n')
  span.start + byteLength line

/-- The element from `first` through `last`, followed by a token that ends it, and the position from
which comments belong to what comes next. -/
def readElement (s : Lexed) (rbrace gapStart first last : Nat) (comma : Option Nat) :
    Element × Nat :=
  let start := s.startAt first
  let leading := commentTexts s.text ⟨min gapStart start, start⟩
  let (key, valueFirst) := elementKey s first last
  let stop := s.stopAt last
  let after := (comma.map s.stopAt).getD stop
  let next := max (s.startAt ((comma.map (· + 1)).getD rbrace)) after
  let line := lineEnd s.text ⟨after, next⟩
  let trailing := commentTexts s.text ⟨stop, line⟩
  let element : Element :=
    ⟨key, valueSpan s key valueFirst last, ⟨start, stop⟩, leading,
      if trailing.isEmpty then none else some (" ".intercalate trailing)⟩
  (element, if trailing.isEmpty then after else line)

/-- The elements from index `i` on, and the position after which the last comments stand. -/
def readElements (s : Lexed) (rbrace : Nat) : Nat → Nat → Nat → List Element × Nat
  | 0, _, gapStart => ([], gapStart)
  | fuel + 1, i, gapStart =>
    let (extent, stop) := elementTokens s rbrace (rbrace - i) i none
    let comma := if stop < rbrace then some stop else none
    let (found, gapStart) :=
      match extent with
      | some (first, last) =>
        let (element, gapStart) := readElement s rbrace gapStart first last comma
        ([element], gapStart)
      | none => ([], gapStart)
    match comma with
    | some c =>
      let (rest, gapStart) := readElements s rbrace fuel (c + 1) gapStart
      (found ++ rest, gapStart)
    | none => (found, gapStart)

/-- The elements between two braces, and the comments after the last one. -/
def splitElements (s : Lexed) (lbrace rbrace : Nat) : List Element × List String :=
  let (elements, gapStart) := readElements s rbrace (rbrace - lbrace) (lbrace + 1) (s.stopAt lbrace)
  let stop := s.startAt rbrace
  (elements, commentTexts s.text ⟨min gapStart stop, stop⟩)

end LiteralFill
