/-!
Positions in a text are counted in UTF-8 bytes. A text is a list of characters; `takeBytes` and
`dropBytes` cut it at a position, and `slice` gives the characters of a span.
-/

namespace LiteralFill

/-- The length of a text in UTF-8 bytes. -/
def byteLength : List Char → Nat
  | [] => 0
  | c :: cs => c.utf8Size + byteLength cs

/-- The characters before a position. A character that the position cuts is kept whole. -/
def takeBytes : Nat → List Char → List Char
  | _, [] => []
  | n, c :: cs => if n = 0 then [] else c :: takeBytes (n - c.utf8Size) cs

/-- The characters from a position on. A character that the position cuts is dropped whole. -/
def dropBytes : Nat → List Char → List Char
  | _, [] => []
  | n, c :: cs => if n = 0 then c :: cs else dropBytes (n - c.utf8Size) cs

/-- A half-open range of positions. -/
structure Span where
  start : Nat
  stop : Nat
  deriving DecidableEq, Repr, Inhabited

namespace Span

/-- The number of bytes between the ends. -/
def length (s : Span) : Nat := s.stop - s.start

/-- A position at or after the start and before the end. -/
def contains (s : Span) (offset : Nat) : Bool := s.start ≤ offset && offset < s.stop

/-- The span that is empty at a position. -/
def empty (offset : Nat) : Span := ⟨offset, offset⟩

end Span

/-- The characters of a span. -/
def slice (text : List Char) (s : Span) : List Char :=
  takeBytes s.length (dropBytes s.start text)

/-- The text of a span. -/
def sliceText (text : List Char) (s : Span) : String := String.ofList (slice text s)

theorem byteLength_append (s t : List Char) :
    byteLength (s ++ t) = byteLength s + byteLength t := by
  induction s with
  | nil => simp [byteLength]
  | cons c cs ih => simp only [List.cons_append, byteLength, ih]; omega

/-- Cutting a text loses nothing. -/
theorem takeBytes_append_dropBytes (n : Nat) (text : List Char) :
    takeBytes n text ++ dropBytes n text = text := by
  induction text generalizing n with
  | nil => rfl
  | cons c cs ih =>
    by_cases h : n = 0
    · simp [takeBytes, dropBytes, h]
    · simp [takeBytes, dropBytes, h, ih]

theorem takeBytes_byteLength (s t : List Char) : takeBytes (byteLength s) (s ++ t) = s := by
  induction s with
  | nil => cases t <;> simp [takeBytes, byteLength]
  | cons c cs ih =>
    have hne : c.utf8Size ≠ 0 := Nat.pos_iff_ne_zero.mp (Char.utf8Size_pos c)
    simp [takeBytes, byteLength, hne, ih]

theorem dropBytes_byteLength (s t : List Char) : dropBytes (byteLength s) (s ++ t) = t := by
  induction s with
  | nil => cases t <;> simp [dropBytes, byteLength]
  | cons c cs ih =>
    have hne : c.utf8Size ≠ 0 := Nat.pos_iff_ne_zero.mp (Char.utf8Size_pos c)
    simp [dropBytes, byteLength, hne, ih]

end LiteralFill
