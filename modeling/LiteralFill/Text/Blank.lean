import LiteralFill.Text.CharRange

/-!
White space in the sense of the Unicode property White_Space, and texts trimmed of it.
-/

namespace LiteralFill

/-- The ranges of white space. -/
def blankRanges : List (Nat × Nat) :=
  [(0x9, 0xD), (0x20, 0x20), (0x85, 0x85), (0xA0, 0xA0), (0x1680, 0x1680), (0x2000, 0x200A),
   (0x2028, 0x2029), (0x202F, 0x202F), (0x205F, 0x205F), (0x3000, 0x3000)]

/-- A white-space character. -/
def isBlank (c : Char) : Bool := inRanges blankRanges c

/-- A text without the white space before it. -/
def trimStart (cs : List Char) : List Char := cs.dropWhile isBlank

/-- A text without the white space after it. -/
def trimEnd : List Char → List Char
  | [] => []
  | c :: cs =>
    match trimEnd cs with
    | [] => if isBlank c then [] else [c]
    | rest => c :: rest

theorem trimEnd_length_le (cs : List Char) : (trimEnd cs).length ≤ cs.length := by
  induction cs with
  | nil => exact Nat.le_refl _
  | cons c cs ih =>
    rw [trimEnd]
    cases ht : trimEnd cs with
    | nil => by_cases hb : isBlank c <;> simp [hb]
    | cons d ds =>
      rw [ht] at ih
      simpa using ih

theorem trimEnd_eq_self {cs : List Char} {d : Char} (h : cs.getLast? = some d)
    (hd : isBlank d = false) : trimEnd cs = cs := by
  induction cs with
  | nil => rfl
  | cons c cs ih =>
    rw [trimEnd]
    cases cs with
    | nil =>
      simp only [List.getLast?_singleton, Option.some.injEq] at h
      simp [trimEnd, h, hd]
    | cons e es => rw [ih (by simpa [List.getLast?_cons_cons] using h)]

/-- A text without the white space around it. -/
def trim (cs : List Char) : List Char := trimEnd (trimStart cs)

theorem trim_eq_self {cs : List Char} (h : ∀ c ∈ cs, isBlank c = false) : trim cs = cs := by
  cases cs with
  | nil => rfl
  | cons c cs =>
    have hstart : trimStart (c :: cs) = c :: cs := List.dropWhile_cons_of_neg (by simp [h c List.mem_cons_self])
    have hlast := List.getLast?_eq_some_getLast (List.cons_ne_nil c cs)
    rw [trim, hstart, trimEnd_eq_self hlast (h _ (List.getLast_mem _))]

end LiteralFill
