import LiteralFill.Proofs.Brackets
import LiteralFill.Syntax.TypeReader

/-!
The tokens of a type. Outside brackets they are names, points, stars, arrows and keywords; brackets come in
pairs, and braces only after the keyword of a struct or an interface. Such a stretch leaves the brackets
around it alone.
-/

namespace LiteralFill

/-- A token of a type that opens and closes nothing. -/
def TokenKind.isPlain : TokenKind → Bool
  | .ident | .dot | .star | .arrow => true
  | .keyword .mapWord | .keyword .chanWord | .keyword .funcWord => true
  | _ => false

/-- A token that a stretch of types may begin with. -/
def TokenKind.beginsItem : TokenKind → Bool
  | .opener .paren | .opener .square => true
  | .keyword .structWord | .keyword .interfaceWord => true
  | k => k.isPlain

theorem TokenKind.beginsItem_of_isPlain {k : TokenKind} (h : k.isPlain) : k.beginsItem := by
  cases k with
  | keyword w => cases w <;> first | rfl | cases h
  | opener b => cases h
  | _ => exact h

/-- The tokens from one index up to another could be those of types. -/
inductive Items (s : Lexed) : Nat → Nat → Prop
  | none (i : Nat) : Items s i i
  | plain {i j : Nat} {k : TokenKind} (hk : s.kindAt i = some k) (hp : k.isPlain)
      (rest : Items s (i + 1) j) : Items s i j
  | group {i c j : Nat} {b : Bracket} (hk : s.kindAt i = some (.opener b)) (hb : b ≠ .brace)
      (hc : s.closerOf i = some c) (rest : Items s (c + 1) j) : Items s i j
  | body {i c j : Nat} {w : Keyword} (hk : s.kindAt i = some (.keyword w))
      (hw : w = .structWord ∨ w = .interfaceWord) (hb : s.kindAt (i + 1) = some (.opener .brace))
      (hc : s.closerOf (i + 1) = some c) (rest : Items s (c + 1) j) : Items s i j

namespace Items

variable {s : Lexed}

theorem append {i j k : Nat} (h : Items s i j) (h' : Items s j k) : Items s i k := by
  induction h with
  | none => exact h'
  | plain hk hp _ ih => exact .plain hk hp (ih h')
  | group hk hb hc _ ih => exact .group hk hb hc (ih h')
  | body hk hw hb hc _ ih => exact .body hk hw hb hc (ih h')

theorem single {i : Nat} {k : TokenKind} (hk : s.kindAt i = some k) (hp : k.isPlain) :
    Items s i (i + 1) := .plain hk hp (.none _)

theorem le (hm : s.IsMatched) {i j : Nat} (h : Items s i j) : i ≤ j := by
  induction h with
  | none => exact Nat.le_refl _
  | plain hk hp _ ih => omega
  | group hk hb hc _ ih =>
    have := (hm.closer_spec hc).1
    omega
  | body hk hw hb hc _ ih =>
    have := (hm.closer_spec hc).1
    omega

/-- A stretch within brackets does not reach over their end. -/
theorem le_closer (hm : s.IsMatched) {o c i j : Nat} (hc : s.closerOf o = some c) (ho : o < i)
    (hi : i ≤ c) (h : Items s i j) : j ≤ c := by
  obtain ⟨-, -, b, -, hclose⟩ := hm.closer_spec hc
  have hne : ∀ {i k}, s.kindAt i = some k → (∀ b, k ≠ .closer b) → i ≠ c := by
    rintro i k hk hno rfl
    rw [hclose] at hk
    exact hno b (Option.some.inj hk).symm
  induction h with
  | none => exact hi
  | @plain i j k hk hp _ ih =>
    have := hne hk (by rintro b rfl; simp [TokenKind.isPlain] at hp)
    exact ih (by omega) (by omega)
  | @group i d j b' hk hb hd _ ih =>
    have := hne hk (by rintro b ⟨⟩)
    obtain ⟨d', hd', hd''⟩ := hm.inner hc ho (by omega) hk
    rw [hd] at hd''
    cases hd''
    have := (hm.closer_spec hd).1
    exact ih (by omega) (by omega)
  | @body i d j w hk hw hb hd _ ih =>
    have := hne hk (by rintro b ⟨⟩)
    have hne' := hne hb (by rintro b ⟨⟩)
    obtain ⟨d', hd', hd''⟩ := hm.inner hc (show o < i + 1 by omega) (by omega) hb
    rw [hd] at hd''
    cases hd''
    have := (hm.closer_spec hd).1
    exact ih (by omega) (by omega)

/-- A walk with open brackets passes the stretch. -/
theorem closeFrom_eq (hm : s.IsMatched) {stack : List Bracket} (hs : stack ≠ []) {i j : Nat}
    (h : Items s i j) : s.closeFrom stack i = s.closeFrom stack j := by
  have hstep : ∀ {i k}, s.kindAt i = some k → nestStep stack k = stack →
      s.closeFrom stack i = s.closeFrom stack (i + 1) := by
    intro i k hk he
    rw [Lexed.closeFrom_step hk, he, if_neg hs]
  induction h with
  | none => rfl
  | @plain i j k hk hp _ ih =>
    have he : nestStep stack k = stack := by cases k <;> simp_all [TokenKind.isPlain, nestStep]
    rw [hstep hk he, ih]
  | group hk hb hc _ ih => rw [hm.closeFrom_group hs hc, ih]
  | body hk hw hb hc _ ih => rw [hstep hk rfl, hm.closeFrom_group hs hc, ih]

/-- A stretch between an opener and a closer of its kind is what they enclose. -/
theorem closerOf_eq (hm : s.IsMatched) {i j : Nat} {b : Bracket}
    (hi : s.kindAt i = some (.opener b)) (hj : s.kindAt j = some (.closer b))
    (h : Items s (i + 1) j) : s.closerOf i = some j := by
  rw [hm.closerOf_eq_closeFrom hi, closeFrom_eq hm (by simp) h, Lexed.closeFrom_step hj,
    if_pos (by simp [nestStep])]

/-! ### Stretches with one beginning -/

/-- No stretch passes a token that no type begins with. -/
theorem eq_of_kind {i j : Nat} {k : TokenKind} (hk : s.kindAt i = some k) (hno : k.beginsItem = false)
    (h : Items s i j) : i = j := by
  cases h with
  | none => rfl
  | plain hk' hp =>
    rw [hk] at hk'
    cases hk'
    rw [TokenKind.beginsItem_of_isPlain hp] at hno
    cases hno
  | @group _ _ _ b hk' hb =>
    rw [hk] at hk'
    cases hk'
    cases b with
    | brace => exact absurd rfl hb
    | _ => cases hno
  | body hk' hw =>
    rw [hk] at hk'
    cases hk'
    rcases hw with rfl | rfl
    · cases hno
    · cases hno

theorem of_plain {i j : Nat} {k : TokenKind} (hk : s.kindAt i = some k) (hp : k.isPlain)
    (h : Items s i j) : i = j ∨ Items s (i + 1) j := by
  cases h with
  | none => exact .inl rfl
  | plain _ _ rest => exact .inr rest
  | group hk' =>
    rw [hk] at hk'
    cases hk'
    cases hp
  | body hk' hw =>
    rw [hk] at hk'
    cases hk'
    rcases hw with rfl | rfl
    · cases hp
    · cases hp

theorem of_group {i j c : Nat} {b : Bracket} (hk : s.kindAt i = some (.opener b))
    (hc : s.closerOf i = some c) (h : Items s i j) : i = j ∨ Items s (c + 1) j := by
  cases h with
  | none => exact .inl rfl
  | plain hk' hp =>
    rw [hk] at hk'
    cases hk'
    cases hp
  | group _ _ hc' rest =>
    rw [hc] at hc'
    cases hc'
    exact .inr rest
  | body hk' =>
    rw [hk] at hk'
    cases hk'

theorem of_body {i j c : Nat} {w : Keyword} (hk : s.kindAt i = some (.keyword w))
    (hw : w = .structWord ∨ w = .interfaceWord) (hc : s.closerOf (i + 1) = some c) (h : Items s i j) :
    i = j ∨ Items s (c + 1) j := by
  cases h with
  | none => exact .inl rfl
  | plain hk' hp =>
    rw [hk] at hk'
    cases hk'
    rcases hw with rfl | rfl
    · cases hp
    · cases hp
  | group hk' =>
    rw [hk] at hk'
    cases hk'
  | body _ _ _ hc' rest =>
    rw [hc] at hc'
    cases hc'
    exact .inr rest

/-- A stretch ends at one brace at most. -/
theorem unique {i j j' : Nat} (h : Items s i j) (h' : Items s i j')
    (hj : s.kindAt j = some (.opener .brace)) (hj' : s.kindAt j' = some (.opener .brace)) : j = j' := by
  induction h with
  | none => exact h'.eq_of_kind hj rfl
  | plain hk hp rest ih =>
    rcases h'.of_plain hk hp with rfl | rest'
    · exact ((Items.plain hk hp rest).eq_of_kind hj' rfl).symm
    · exact ih rest' hj
  | group hk hb hc rest ih =>
    rcases h'.of_group hk hc with rfl | rest'
    · exact ((Items.group hk hb hc rest).eq_of_kind hj' rfl).symm
    · exact ih rest' hj
  | body hk hw hb hc rest ih =>
    rcases h'.of_body hk hw hc with rfl | rest'
    · exact ((Items.body hk hw hb hc rest).eq_of_kind hj' rfl).symm
    · exact ih rest' hj

end Items

end LiteralFill
