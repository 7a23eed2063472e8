import LiteralFill.Proofs.Elements
import LiteralFill.Proofs.Outline

/-!
The pass over tokens with balanced brackets. It leaves the stretch with the nesting and the literals it came
with; of the headers only those of its own nesting may have changed.
-/

namespace LiteralFill

/-! ## Balanced stretches -/

/-- A keyword that begins a declaration. -/
def TokenKind.isDeclaring : TokenKind → Bool
  | .keyword .packageWord | .keyword .importWord | .keyword .typeWord | .keyword .constWord => true
  | _ => false

/-- A token that is no bracket and begins no declaration. -/
def TokenKind.isOrdinary : TokenKind → Bool
  | .opener _ | .closer _ => false
  | .keyword .packageWord | .keyword .importWord | .keyword .typeWord | .keyword .constWord => false
  | _ => true

theorem TokenKind.not_isOrdinary {k : TokenKind} (h : k.isDeclaring) : ¬ k.isOrdinary := by
  cases k with
  | keyword w => cases w <;> simp_all [isDeclaring, isOrdinary]
  | _ => cases h

theorem TokenKind.isOrdinary_of_isPlain {k : TokenKind} (h : k.isPlain) : k.isOrdinary := by
  cases k with
  | keyword w => cases w <;> simp_all [isPlain, isOrdinary]
  | opener b => cases h
  | closer b => cases h
  | _ => rfl

namespace Lexed

/-- The brackets among the tokens from one index up to another are balanced, and so are those that the
readers of declarations pass over. -/
inductive Balanced (s : Lexed) : Nat → Nat → Prop
  | none (i : Nat) : Balanced s i i
  | single {i j : Nat} {k : TokenKind} (hk : s.kindAt i = some k) (ho : k.isOrdinary)
      (rest : Balanced s (i + 1) j) : Balanced s i j
  | group {i c j : Nat} {b : Bracket} (hk : s.kindAt i = some (.opener b)) (hc : s.closerOf i = some c)
      (inside : Balanced s (i + 1) c) (rest : Balanced s (c + 1) j) : Balanced s i j
  | declaration {i j : Nat} {t : Token} (ht : s.tokens[i]? = some t) (hk : t.kind.isDeclaring)
      (within : Balanced s (i + 1) (Outline.nextIndex s t (.at i)))
      (rest : Balanced s (Outline.nextIndex s t (.at i)) j) : Balanced s i j

namespace Balanced

variable {s : Lexed} {i j k : Nat}

theorem le (hm : s.IsMatched) (h : s.Balanced i j) : i ≤ j := by
  induction h with
  | none => exact Nat.le_refl _
  | single _ _ _ ih => omega
  | group _ hc _ _ _ ih =>
    have := (hm.closer_spec hc).1
    omega
  | declaration _ _ _ _ ih ih' => omega

/-- What follows an ordinary token. -/
theorem tail (h : s.Balanced i j) (hij : i < j) {k : TokenKind} (hk : s.kindAt i = some k)
    (ho : k.isOrdinary) : s.Balanced (i + 1) j := by
  cases h with
  | none => exact absurd hij (Nat.lt_irrefl _)
  | single _ _ rest => exact rest
  | group hk' =>
    rw [hk] at hk'
    cases hk'
    cases ho
  | declaration ht hd =>
    rw [kindAt_of_token ht] at hk
    cases hk
    exact absurd ho (TokenKind.not_isOrdinary hd)

/-- What an opening bracket encloses, and what follows it. -/
theorem parts (h : s.Balanced i j) (hij : i < j) {b : Bracket} (hb : s.kindAt i = some (.opener b)) :
    ∃ c, s.closerOf i = some c ∧ s.Balanced (i + 1) c ∧ s.Balanced (c + 1) j := by
  cases h with
  | none => exact absurd hij (Nat.lt_irrefl _)
  | single hk ho rest =>
    rw [hb] at hk
    cases hk
    cases ho
  | group _ hc inside rest => exact ⟨_, hc, inside, rest⟩
  | declaration ht hd =>
    rw [kindAt_of_token ht] at hb
    rw [Option.some.inj hb] at hd
    cases hd

/-- What follows a type. -/
theorem after_items (hm : s.IsMatched) (hitems : Items s i k) (h : s.Balanced i j) (hkj : k ≤ j) :
    s.Balanced k j := by
  induction hitems with
  | none => exact h
  | plain hk hp rest ih =>
    have := rest.le hm
    exact ih (h.tail (by omega) hk (TokenKind.isOrdinary_of_isPlain hp)) hkj
  | group hk _ hc rest ih =>
    have := rest.le hm
    have := (hm.closer_spec hc).1
    obtain ⟨c, hc', -, hrest⟩ := h.parts (by omega) hk
    rw [hc] at hc'
    cases hc'
    exact ih hrest hkj
  | @body _ _ _ w hk hw hb hc rest ih =>
    have := rest.le hm
    have := (hm.closer_spec hc).1
    have ho : (TokenKind.keyword w).isOrdinary := by
      rcases hw with rfl | rfl
      · rfl
      · rfl
    obtain ⟨c, hc', -, hrest⟩ := (h.tail (by omega) hk ho).parts (by omega) hb
    rw [hc] at hc'
    cases hc'
    exact ih hrest hkj

/-- A stretch within brackets does not reach over their end. -/
theorem le_closer (hm : s.IsMatched) {a c : Nat} (hc : s.closerOf a = some c) (ha : a < i) (hi : i ≤ c)
    (h : s.Balanced i j) : j ≤ c := by
  obtain ⟨-, -, b, -, hclose⟩ := hm.closer_spec hc
  have hne : ∀ {i k}, s.kindAt i = some k → (∀ b, k ≠ .closer b) → i ≠ c := by
    rintro i k hk hno rfl
    rw [hclose] at hk
    exact hno b (Option.some.inj hk).symm
  induction h with
  | none => exact hi
  | single hk ho _ ih =>
    have := hne hk (by rintro b rfl; cases ho)
    exact ih (by omega) (by omega)
  | group hk hd _ _ _ ih =>
    have := hne hk (by rintro b ⟨⟩)
    obtain ⟨d, hdc, hd'⟩ := hm.inner hc ha (by omega) hk
    rw [hd] at hd'
    cases hd'
    have := (hm.closer_spec hd).1
    exact ih (by omega) (by omega)
  | declaration ht hd within _ ih ih' =>
    have := hne (kindAt_of_token ht) (by rintro b hb; rw [hb] at hd; cases hd)
    have := within.le hm
    exact ih' (by omega) (ih (by omega) (by omega))

end Balanced

end Lexed

/-! ## The headers of one nesting -/

namespace Outline

variable {s : Lexed} {base : List Header} {o o' : Outline} {t : Token}

/-- The headers above `base` are those of the present nesting; those of `base` belong to outer ones. -/
structure HeadersOver (base : List Header) (o : Outline) : Prop where
  inner : ∃ inner, o.headers = inner ++ base ∧ ∀ h ∈ inner, h.depth = o.depth ∧ h.level = o.level
  outer : ∀ h ∈ base.head?,
    h.depth ≤ o.depth ∧ h.level ≤ o.level ∧ (h.depth < o.depth ∨ h.level < o.level)

/-- Some headers are taken away, but none of `base`. -/
theorem dropWhile_append {α : Type} (p : α → Bool) (inner : List α) {base : List α}
    (h : ∀ x ∈ base.head?, p x = false) :
    ∃ inner', (inner ++ base).dropWhile p = inner' ++ base ∧ ∀ x ∈ inner', x ∈ inner := by
  induction inner with
  | nil =>
    refine ⟨[], ?_, by simp⟩
    cases base with
    | nil => rfl
    | cons x xs => simp [h x rfl]
  | cons x inner ih =>
    by_cases hx : p x
    · obtain ⟨inner', he, hsub⟩ := ih
      exact ⟨inner', by simp [hx, he], fun y hy => List.mem_cons_of_mem _ (hsub y hy)⟩
    · exact ⟨x :: inner, by simp [hx], fun y hy => hy⟩

/-- All headers above `base` are taken away. -/
theorem dropWhile_append_all {α : Type} (p : α → Bool) {inner base : List α}
    (h : ∀ x ∈ base.head?, p x = false) (hall : ∀ x ∈ inner, p x) :
    (inner ++ base).dropWhile p = base := by
  induction inner with
  | nil =>
    cases base with
    | nil => rfl
    | cons x xs => simp [h x rfl]
  | cons x inner ih =>
    rw [List.cons_append, List.dropWhile_cons_of_pos (hall x (by simp))]
    exact ih fun y hy => hall y (by simp [hy])

/-- No header is of a deeper nesting than the present one. -/
theorem HeadersOver.head_le (h : HeadersOver base o) :
    ∀ x ∈ o.headers.head?, x.depth ≤ o.depth ∧ x.level ≤ o.level := by
  obtain ⟨inner, he, hin⟩ := h.inner
  rw [he]
  cases inner with
  | nil =>
    intro x hx
    obtain ⟨h1, h2, -⟩ := h.outer x hx
    exact ⟨h1, h2⟩
  | cons y inner =>
    rintro x ⟨⟩
    obtain ⟨h1, h2⟩ := hin y (by simp)
    exact ⟨Nat.le_of_eq h1, Nat.le_of_eq h2⟩

/-- In a deeper nesting all present headers are outer ones. -/
theorem HeadersOver.enter (h : HeadersOver base o) {p : Outline} (hh : p.headers = o.headers)
    (hd : o.depth ≤ p.depth) (hl : o.level ≤ p.level) (hlt : o.depth < p.depth ∨ o.level < p.level) :
    HeadersOver o.headers p := by
  refine ⟨⟨[], hh, by simp⟩, fun x hx => ?_⟩
  obtain ⟨h1, h2⟩ := h.head_le x hx
  exact ⟨by omega, by omega, by omega⟩

/-- Another state of the same nesting, with fewer headers or more of this nesting. -/
theorem HeadersOver.change (h : HeadersOver base o) (hd : o'.depth = o.depth)
    (ho : o'.openLiterals = o.openLiterals)
    (hin : ∃ inner, o'.headers = inner ++ base ∧ ∀ x ∈ inner, x.depth = o.depth ∧ x.level = o.level) :
    HeadersOver base o' := by
  have hl : o'.level = o.level := by
    unfold level
    rw [ho]
  refine ⟨?_, ?_⟩
  · rw [hd, hl]
    exact hin
  · rw [hd, hl]
    exact h.outer

theorem HeadersOver.same (h : HeadersOver base o) (hd : o'.depth = o.depth)
    (ho : o'.openLiterals = o.openLiterals) (hh : o'.headers = o.headers) : HeadersOver base o' := by
  apply h.change hd ho
  rw [hh]
  exact h.inner

/-- A header of the present nesting begins. -/
theorem HeadersOver.push (h : HeadersOver base o) (isFunc : Bool) :
    ∃ inner, ⟨o.depth, o.level, isFunc⟩ :: o.headers = inner ++ base ∧
      ∀ x ∈ inner, x.depth = o.depth ∧ x.level = o.level := by
  obtain ⟨inner, he, hin⟩ := h.inner
  refine ⟨⟨o.depth, o.level, isFunc⟩ :: inner, by rw [he]; rfl, fun x hx => ?_⟩
  rcases List.mem_cons.mp hx with rfl | hx
  · exact ⟨rfl, rfl⟩
  · exact hin x hx

/-- What ends some headers of the present nesting leaves the outer ones. -/
theorem HeadersOver.drop (h : HeadersOver base o) (p : Header → Bool)
    (hp : ∀ x, x.depth < o.depth ∨ x.level < o.level → p x = false) :
    ∃ inner, o.headers.dropWhile p = inner ++ base ∧
      ∀ x ∈ inner, x.depth = o.depth ∧ x.level = o.level := by
  obtain ⟨inner, he, hin⟩ := h.inner
  obtain ⟨inner', he', hsub⟩ := dropWhile_append p inner fun x hx => hp x (h.outer x hx).2.2
  exact ⟨inner', by rw [he, he'], fun x hx => hin x (hsub x hx)⟩

/-- What ends all headers of the present nesting leaves the outer ones. -/
theorem HeadersOver.drop_all (h : HeadersOver base o) (p : Header → Bool)
    (hin : ∀ x, x.depth = o.depth → x.level = o.level → p x) (hout : ∀ x ∈ base.head?, p x = false) :
    o.headers.dropWhile p = base := by
  obtain ⟨inner, he, hinner⟩ := h.inner
  rw [he]
  exact dropWhile_append_all p hout fun x hx => hin x (hinner x hx).1 (hinner x hx).2

/-- The header of a block is one of the present nesting. -/
theorem HeadersOver.block (h : HeadersOver base o) :
    ∃ inner, (if o.headerHere.isSome then o.headers.drop 1 else o.headers) = inner ++ base ∧
      ∀ x ∈ inner, x.depth = o.depth ∧ x.level = o.level := by
  obtain ⟨inner, he, hin⟩ := h.inner
  by_cases hhere : o.headerHere.isSome
  · rw [if_pos hhere, he]
    cases inner with
    | nil =>
      unfold headerHere at hhere
      rw [he] at hhere
      cases hb : base with
      | nil => simp [hb] at hhere
      | cons x xs =>
        obtain ⟨h1, h2, h3⟩ := h.outer x (by rw [hb]; rfl)
        simp only [hb, List.nil_append, Option.isSome_ite] at hhere
        omega
    | cons x inner => exact ⟨inner, rfl, fun y hy => hin y (by simp [hy])⟩
  · rw [if_neg hhere]
    exact ⟨inner, he, hin⟩

/-- Ordinary tokens begin and end headers of the present nesting. -/
theorem HeadersOver.ordinary (h : HeadersOver base o) (hk : t.kind.isOrdinary) :
    ∃ inner, nextHeaders t o = inner ++ base ∧
      ∀ x ∈ inner, x.depth = o.depth ∧ x.level = o.level := by
  obtain ⟨kind, start, text⟩ := t
  cases kind with
  | opener b => cases hk
  | closer b => cases hk
  | semicolon =>
    apply h.drop
    rintro x (hd | hl)
    · simp [Nat.not_le.mpr hd]
    · simp [Nat.ne_of_lt hl]
  | keyword w =>
    cases w with
    | funcWord => exact h.push true
    | ifWord => exact h.push false
    | forWord => exact h.push false
    | switchWord => exact h.push false
    | selectWord => exact h.push false
    | _ => exact h.inner
  | _ => exact h.inner

/-! ## From one place to another -/

/-- The pass goes from one place to another. The literals it records on the way begin in between. -/
structure Goes (s : Lexed) (o o' : Outline) : Prop where
  reaches : ∃ n, o' = run s n o
  finish : finish s o = finish s o'
  index : o.index ≤ o'.index
  literals : ∃ new, o'.literals = o.literals ++ new ∧
    ∀ l ∈ new, ∃ i, o.index ≤ i ∧ i < o'.index ∧ l.typeSpan.start = s.startAt i

theorem Goes.refl (s : Lexed) (o : Outline) : Goes s o o :=
  ⟨⟨0, rfl⟩, rfl, Nat.le_refl _, [], by simp, by simp⟩

theorem Goes.trans {o p q : Outline} (h : Goes s o p) (h' : Goes s p q) : Goes s o q := by
  obtain ⟨new, hnew, hbegin⟩ := h.literals
  obtain ⟨new', hnew', hbegin'⟩ := h'.literals
  obtain ⟨n, hn⟩ := h.reaches
  obtain ⟨n', hn'⟩ := h'.reaches
  have h1 := h.index
  have h2 := h'.index
  refine ⟨⟨n + n', ?_⟩, h.finish.trans h'.finish, Nat.le_trans h1 h2, new ++ new', ?_, ?_⟩
  · rw [run_add, ← hn, ← hn']
  · rw [hnew', hnew, List.append_assoc]
  · intro l hl
    rcases List.mem_append.mp hl with hl | hl
    · obtain ⟨i, hi, hi', hs⟩ := hbegin l hl
      exact ⟨i, hi, by omega, hs⟩
    · obtain ⟨i, hi, hi', hs⟩ := hbegin' l hl
      exact ⟨i, by omega, hi', hs⟩

theorem Goes.step (hm : s.IsMatched) (ht : s.tokens[o.index]? = some t) : Goes s o (step s t o) := by
  have hlt := step_lt hm t o
  refine ⟨⟨1, by simp only [run, ht]⟩, finish_step hm ht, Nat.le_of_lt hlt, recorded s t o,
    step_literals_eq s t o, ?_⟩
  intro l hl
  exact ⟨o.index, Nat.le_refl _, hlt, recorded_start hl⟩

/-- A step at a bracket or a token after which no literal begins. -/
theorem step_isNext (hr : beginsLiteral t.kind = false ∨ literalHere s o = none) :
    IsNext s t o (step s t o) := by
  rw [step_eq]
  rcases hr with hb | hn
  · rw [hb]
    exact stepOther_isNext s t o
  · unfold stepLiteral
    rw [hn]
    split
    · exact stepOther_isNext s t o
    · exact stepOther_isNext s t o

/-- A step at the type of a literal. -/
theorem step_literal {l : CompositeLiteral} {lbrace rbrace : Nat} {ds : List Diagnostic}
    (hb : beginsLiteral t.kind) (hl : literalHere s o = some (l, lbrace, rbrace, ds)) :
    step s t o = { o with
      index := lbrace + 1
      openLiterals := rbrace :: o.openLiterals
      literals := o.literals ++ [l]
      diagnostics := ds } := by
  rw [step_eq, if_pos hb]
  unfold stepLiteral
  rw [hl]

/-! ## Through balanced brackets -/

/-- The pass has gone through a stretch at one nesting. -/
structure Passes (s : Lexed) (base : List Header) (o o' : Outline) : Prop extends Goes s o o' where
  depth : o'.depth = o.depth
  openLiterals : o'.openLiterals = o.openLiterals
  headers : HeadersOver base o'

theorem Passes.trans {p : Outline} (h : Passes s base o o') (h' : Passes s base o' p) :
    Passes s base o p :=
  ⟨h.toGoes.trans h'.toGoes, h'.depth.trans h.depth, h'.openLiterals.trans h.openLiterals, h'.headers⟩

/-- The pass comes back to the nesting and the headers it had. -/
structure Returns (s : Lexed) (o o' : Outline) : Prop extends Goes s o o' where
  depth : o'.depth = o.depth
  openLiterals : o'.openLiterals = o.openLiterals
  headers : o'.headers = o.headers

theorem Returns.trans {p : Outline} (h : Returns s o o') (h' : Returns s o' p) : Returns s o p :=
  ⟨h.toGoes.trans h'.toGoes, h'.depth.trans h.depth, h'.openLiterals.trans h.openLiterals,
    h'.headers.trans h.headers⟩

theorem Returns.passes (h : Returns s o o') (ho : HeadersOver base o) : Passes s base o o' :=
  ⟨h.toGoes, h.depth, h.openLiterals, ho.same h.depth h.openLiterals h.headers⟩

theorem beginsLiteral_of_isDeclaring {k : TokenKind} (hk : k.isDeclaring) : beginsLiteral k = false := by
  cases k with
  | keyword w => cases w <;> first | rfl | cases hk
  | _ => cases hk

/-- A declaration changes nothing around the pass. -/
theorem next_of_isDeclaring (hk : t.kind.isDeclaring) (o : Outline) :
    nextDepth t o = o.depth ∧ nextOpen t o = o.openLiterals ∧ nextHeaders t o = o.headers := by
  obtain ⟨kind, start, text⟩ := t
  cases kind with
  | keyword w =>
    cases w with
    | packageWord => exact ⟨rfl, rfl, rfl⟩
    | importWord => exact ⟨rfl, rfl, rfl⟩
    | typeWord => exact ⟨rfl, rfl, rfl⟩
    | constWord => exact ⟨rfl, rfl, rfl⟩
    | _ => cases hk
  | _ => cases hk

/-- An ordinary token is passed, and the body after `struct` and `interface` with it. -/
theorem passes_ordinary (hm : s.IsMatched) (h : HeadersOver base o) (ht : s.tokens[o.index]? = some t)
    (hk : t.kind.isOrdinary) (hr : beginsLiteral t.kind = false ∨ literalHere s o = none) :
    Passes s base o (step s t o) := by
  have hn := step_isNext hr
  have hdepth : nextDepth t o = o.depth := by
    obtain ⟨kind, start, text⟩ := t
    cases kind with
    | opener b => cases hk
    | closer b => cases hk
    | _ => rfl
  have hopen : nextOpen t o = o.openLiterals := by
    obtain ⟨kind, start, text⟩ := t
    cases kind with
    | closer b => cases hk
    | _ => rfl
  rw [← hn.depth] at hdepth
  rw [← hn.openLiterals] at hopen
  refine ⟨Goes.step hm ht, hdepth, hopen, h.change hdepth hopen ?_⟩
  rw [hn.headers]
  exact h.ordinary hk

/-- A declaration is passed as its reader passes it. -/
theorem passes_declaration (hm : s.IsMatched) (h : HeadersOver base o)
    (ht : s.tokens[o.index]? = some t) (hk : t.kind.isDeclaring) : Passes s base o (step s t o) := by
  have hn : IsNext s t o (step s t o) := step_isNext (.inl (beginsLiteral_of_isDeclaring hk))
  obtain ⟨hdepth, hopen, hheaders⟩ := next_of_isDeclaring hk o
  rw [← hn.depth] at hdepth
  rw [← hn.openLiterals] at hopen
  rw [← hn.headers] at hheaders
  exact ⟨Goes.step hm ht, hdepth, hopen, h.same hdepth hopen hheaders⟩

/-- The token at the closer of a bracket. -/
theorem exists_closer (hm : s.IsMatched) {i c : Nat} {b : Bracket}
    (hk : s.kindAt i = some (.opener b)) (hc : s.closerOf i = some c) :
    ∃ u, s.tokens[c]? = some u ∧ u.kind = .closer b := by
  obtain ⟨-, -, b', hb', hclose⟩ := hm.closer_spec hc
  rw [hk] at hb'
  cases hb'
  exact Option.map_eq_some_iff.mp hclose

/-- A brace that ends no literal changes nothing. -/
theorem returns_closeBrace (hm : s.IsMatched) (ht : s.tokens[o.index]? = some t)
    (hk : t.kind = .closer .brace) (hopen : ∀ x ∈ o.openLiterals, x ≠ o.index) :
    Returns s o (step s t o) ∧ (step s t o).index = o.index + 1 := by
  obtain ⟨kind, start, text⟩ := t
  cases hk
  have hn := step_isNext (s := s) (o := o) (t := ⟨.closer .brace, start, text⟩) (.inl rfl)
  have hends : o.endsLiteral = false := by
    unfold endsLiteral
    cases hl : o.openLiterals with
    | nil => rfl
    | cons x xs =>
      have hne : x ≠ o.index := hopen x (by rw [hl]; simp)
      simp [hne]
  refine ⟨⟨Goes.step hm ht, hn.depth, ?_, ?_⟩, hn.index⟩
  · rw [hn.openLiterals]
    simp [nextOpen, hends]
  · rw [hn.headers]
    simp [nextHeaders, hends]

/-- A parenthesis or square bracket opens: the nesting is one deeper. -/
theorem IsNext.opener {b : Bracket} (h : IsNext s t o o') (hk : t.kind = .opener b) (hb : b ≠ .brace) :
    o'.index = o.index + 1 ∧ o'.depth = o.depth + 1 ∧ o'.openLiterals = o.openLiterals ∧
      o'.headers = o.headers := by
  rw [h.index, h.depth, h.openLiterals, h.headers]
  obtain ⟨kind, start, text⟩ := t
  cases hk
  cases b with
  | brace => exact absurd rfl hb
  | _ => exact ⟨rfl, rfl, rfl, rfl⟩

/-- A parenthesis or square bracket closes: the headers of the nesting end. -/
theorem IsNext.closer {b : Bracket} (h : IsNext s t o o') (hk : t.kind = .closer b) (hb : b ≠ .brace) :
    o'.index = o.index + 1 ∧ o'.depth = o.depth - 1 ∧ o'.openLiterals = o.openLiterals ∧
      o'.headers = o.headers.dropWhile fun x => o.depth - 1 < x.depth := by
  rw [h.index, h.depth, h.openLiterals, h.headers]
  obtain ⟨kind, start, text⟩ := t
  cases hk
  cases b with
  | brace => exact absurd rfl hb
  | _ => exact ⟨rfl, rfl, rfl, rfl⟩

/-- The brace of the innermost literal closes: the headers in it end. -/
theorem IsNext.endLiteral (h : IsNext s t o o') (hk : t.kind = .closer .brace) (hends : o.endsLiteral) :
    o'.index = o.index + 1 ∧ o'.depth = o.depth ∧ o'.openLiterals = o.openLiterals.drop 1 ∧
      o'.headers = o.headers.dropWhile fun x => o.level - 1 < x.level := by
  rw [h.index, h.depth, h.openLiterals, h.headers]
  obtain ⟨kind, start, text⟩ := t
  cases hk
  exact ⟨rfl, rfl, if_pos hends, if_pos hends⟩

/-- Parentheses and square brackets are passed if what they enclose is. -/
theorem returns_nested (hm : s.IsMatched) (h : HeadersOver base o) {b : Bracket} {c : Nat}
    (ht : s.tokens[o.index]? = some t) (hk : t.kind = .opener b) (hb : b ≠ .brace)
    (hr : beginsLiteral t.kind = false ∨ literalHere s o = none) (hc : s.closerOf o.index = some c)
    (inside : ∀ p, p.index = o.index + 1 → p.openLiterals = o.openLiterals →
      HeadersOver o.headers p → ∃ q, Passes s o.headers p q ∧ q.index = c) :
    ∃ o', Returns s o o' ∧ o'.index = c + 1 := by
  obtain ⟨hindex, hdepth, hopen, hheaders⟩ := (step_isNext hr).opener hk hb
  have hlevel : (step s t o).level = o.level := congrArg List.length hopen
  obtain ⟨q, hq, rfl⟩ := inside _ hindex hopen
    (h.enter hheaders (by omega) (by omega) (.inl (by omega)))
  obtain ⟨u, hu, huk⟩ := exists_closer hm (hk ▸ Lexed.kindAt_of_token ht) hc
  obtain ⟨hindex', hdepth', hopen', hheaders'⟩ :=
    (step_isNext (s := s) (o := q) (t := u) (.inl (huk ▸ rfl))).closer huk hb
  have hqdepth : q.depth = o.depth + 1 := hq.depth.trans hdepth
  refine ⟨step s u q, ⟨((Goes.step hm ht).trans hq.toGoes).trans (Goes.step hm hu), by omega,
    hopen'.trans (hq.openLiterals.trans hopen), hheaders'.trans ?_⟩, hindex'⟩
  refine hq.headers.drop_all _ (fun x hx _ => decide_eq_true (by omega)) fun x hx => ?_
  have := (h.head_le x hx).1
  exact decide_eq_false (by omega)

/-- A block is passed if what it encloses is. -/
theorem passes_block (hm : s.IsMatched) (h : HeadersOver base o) {c : Nat}
    (ht : s.tokens[o.index]? = some t) (hk : t.kind = .opener .brace)
    (hc : s.closerOf o.index = some c) (hopen : ∀ x ∈ o.openLiterals, x ≠ c)
    (inside : ∀ p, p.index = o.index + 1 → p.openLiterals = o.openLiterals →
      HeadersOver base p → ∃ q, Passes s base p q ∧ q.index = c) :
    ∃ o', Passes s base o o' ∧ o'.index = c + 1 := by
  obtain ⟨kind, start, text⟩ := t
  cases hk
  have hn := step_isNext (s := s) (o := o) (t := ⟨.opener .brace, start, text⟩) (.inl rfl)
  have hover : HeadersOver base (step s ⟨.opener .brace, start, text⟩ o) := by
    apply h.change hn.depth hn.openLiterals
    rw [hn.headers]
    exact h.block
  obtain ⟨q, hq, hqc⟩ := inside _ hn.index hn.openLiterals hover
  obtain ⟨u, hu, huk⟩ := exists_closer hm (Lexed.kindAt_of_token ht) hc
  rw [← hqc] at hu
  have hqopen : q.openLiterals = o.openLiterals := hq.openLiterals.trans hn.openLiterals
  -- no literal around ends with the block
  obtain ⟨hleave, hindex⟩ := returns_closeBrace hm hu huk (by rw [hqopen, hqc]; exact hopen)
  have hin : Passes s base o (step s ⟨.opener .brace, start, text⟩ o) :=
    ⟨Goes.step hm ht, hn.depth, hn.openLiterals, hover⟩
  exact ⟨_, (hin.trans hq).trans (hleave.passes hq.headers), by rw [hindex, hqc]⟩

/-- A literal is passed if what it encloses is. -/
theorem returns_literal (hm : s.IsMatched) (h : HeadersOver base o) {l : CompositeLiteral}
    {lbrace rbrace : Nat} {ds : List Diagnostic} (ht : s.tokens[o.index]? = some t)
    (hb : beginsLiteral t.kind) (hl : literalHere s o = some (l, lbrace, rbrace, ds))
    (inside : ∀ p, p.index = lbrace + 1 → p.openLiterals = rbrace :: o.openLiterals →
      HeadersOver o.headers p → ∃ q, Passes s o.headers p q ∧ q.index = rbrace) :
    ∃ o', Returns s o o' ∧ o'.index = rbrace + 1 := by
  obtain ⟨type, -, hbrace, -, hc, -⟩ := literalHere_eq_some.mp hl
  have hstep := step_literal hb hl
  have hlevel : (step s t o).level = o.level + 1 := by rw [hstep]; rfl
  have hdepth : (step s t o).depth = o.depth := by rw [hstep]
  have hopen : (step s t o).openLiterals = rbrace :: o.openLiterals := by rw [hstep]
  obtain ⟨q, hq, rfl⟩ := inside (step s t o) (by rw [hstep]) hopen
    (h.enter (by rw [hstep]) (by omega) (by omega) (.inr (by omega)))
  obtain ⟨u, hu, huk⟩ := exists_closer hm hbrace hc
  have hqopen : q.openLiterals = q.index :: o.openLiterals := hq.openLiterals.trans hopen
  have hqlevel : q.level = o.level + 1 := (congrArg List.length hqopen).trans (List.length_cons ..)
  have hends : q.endsLiteral = true := by simp [endsLiteral, hqopen]
  obtain ⟨hindex', hdepth', hopen', hheaders'⟩ :=
    (step_isNext (s := s) (o := q) (t := u) (.inl (huk ▸ rfl))).endLiteral huk hends
  refine ⟨step s u q, ⟨((Goes.step hm ht).trans hq.toGoes).trans (Goes.step hm hu),
    hdepth'.trans (hq.depth.trans hdepth), by rw [hopen', hqopen, List.drop_one, List.tail_cons],
    hheaders'.trans ?_⟩, hindex'⟩
  refine hq.headers.drop_all _ (fun x _ hx => decide_eq_true (by omega)) fun x hx => ?_
  have := (h.head_le x hx).2
  exact decide_eq_false (by omega)

/-- Brackets are passed if what they enclose is. -/
theorem passes_group (hm : s.IsMatched) (h : HeadersOver base o) {b : Bracket} {c : Nat}
    (ht : s.tokens[o.index]? = some t) (hk : t.kind = .opener b)
    (hr : beginsLiteral t.kind = false ∨ literalHere s o = none) (hc : s.closerOf o.index = some c)
    (hopen : ∀ x ∈ o.openLiterals, x ≠ c)
    (inside : ∀ base p, p.index = o.index + 1 → p.openLiterals = o.openLiterals →
      HeadersOver base p → ∃ q, Passes s base p q ∧ q.index = c) :
    ∃ o', Passes s base o o' ∧ o'.index = c + 1 := by
  by_cases hb : b = .brace
  · subst hb
    exact passes_block hm h ht hk hc hopen (inside base)
  · obtain ⟨o', hreturns, hindex⟩ := returns_nested hm h ht hk hb hr hc (inside o.headers)
    exact ⟨o', hreturns.passes h, hindex⟩

/-- A literal that begins in a balanced stretch inside brackets ends in it, and so does what it encloses. -/
theorem literalHere_parts (hm : s.IsMatched) {j a lbrace rbrace : Nat} (hb : s.Balanced o.index j)
    (ha : s.closerOf a = some j) (hai : a < o.index) {l : CompositeLiteral} {ds : List Diagnostic}
    (hl : literalHere s o = some (l, lbrace, rbrace, ds)) :
    s.closerOf lbrace = some rbrace ∧ s.Balanced (lbrace + 1) rbrace ∧ s.Balanced (rbrace + 1) j := by
  obtain ⟨type, hread, hbrace, -, hc, -⟩ := literalHere_eq_some.mp hl
  obtain ⟨-, -, b, -, hclose⟩ := hm.closer_spec ha
  have hitems : Items s o.index lbrace := by
    have hreads := readType_reads hm ⟨o.index, o.diagnostics⟩
    rw [hread] at hreads
    exact (hreads.2 rfl).2.1
  have hle := hitems.le_closer hm ha hai (hb.le hm)
  have hne : lbrace ≠ j := by
    rintro rfl
    rw [hbrace] at hclose
    cases hclose
  obtain ⟨c, hc', hinside, hrest⟩ := (hb.after_items hm hitems hle).parts (by omega) hbrace
  cases hc.symm.trans hc'
  exact ⟨hc, hinside, hrest⟩

/-- After an ordinary token the rest of the stretch is balanced, also behind a body that follows it. -/
theorem balanced_ordinary (hm : s.IsMatched) {j : Nat} {b : Bracket}
    (hclose : s.kindAt j = some (.closer b)) (hk : t.kind.isOrdinary)
    (h : s.Balanced (o.index + 1) j) : o.index < nextIndex s t o ∧ s.Balanced (nextIndex s t o) j := by
  refine ⟨lt_nextIndex hm t o, ?_⟩
  have hbody : s.Balanced (bodyEnd s o.index) j := by
    unfold bodyEnd
    by_cases hbrace : s.kindAt (o.index + 1) = some (.opener .brace)
    · have hle := h.le hm
      have hne : o.index + 1 ≠ j := by
        rintro rfl
        rw [hbrace] at hclose
        cases hclose
      obtain ⟨c, hc, -, hafter⟩ := h.parts (by omega) hbrace
      rw [if_pos hbrace]
      unfold Lexed.skipGroup
      rw [hc]
      exact hafter
    · rw [if_neg hbrace]
      exact h
  obtain ⟨kind, start, text⟩ := t
  cases kind with
  | keyword w =>
    cases w with
    | packageWord => cases hk
    | importWord => cases hk
    | typeWord => cases hk
    | constWord => cases hk
    | structWord => exact hbody
    | interfaceWord => exact hbody
    | _ => exact h
  | _ => exact h

/-- The pass goes through a balanced stretch inside brackets. -/
theorem passes_balanced (hm : s.IsMatched) {i j a : Nat} (hb : s.Balanced i j)
    (ha : s.closerOf a = some j) (hai : a < i) (hi : o.index = i) (h : HeadersOver base o)
    (hopen : ∀ x ∈ o.openLiterals, x < i ∨ j ≤ x) : ∃ o', Passes s base o o' ∧ o'.index = j := by
  induction hk : j - i using Nat.strongRecOn generalizing i j a o base with
  | ind k ih =>
    subst hi
    obtain ⟨-, hj, b, -, hclose⟩ := hm.closer_spec ha
    -- the rest of the stretch, from further on
    have rest : ∀ {m : Nat}, (∃ p, Passes s base o p ∧ p.index = m) → o.index < m → s.Balanced m j →
        ∃ o', Passes s base o o' ∧ o'.index = j := by
      rintro m ⟨p, hp, hpm⟩ hlt hrest
      have := hrest.le hm
      have hopen' : ∀ x ∈ p.openLiterals, x < m ∨ j ≤ x := by
        intro x hx
        have := hopen x (hp.openLiterals ▸ hx)
        omega
      obtain ⟨o', hp', ho'⟩ := ih _ (by omega) hrest ha (by omega) hpm hp.headers hopen' rfl
      exact ⟨o', hp.trans hp', ho'⟩
    rcases Nat.eq_or_lt_of_le (hb.le hm) with heq | hlt
    · exact ⟨o, ⟨Goes.refl s o, rfl, rfl, h⟩, heq⟩
    obtain ⟨t, ht⟩ := Lexed.exists_token (show o.index < s.size by omega)
    by_cases hr : beginsLiteral t.kind = false ∨ literalHere s o = none
    · cases hb with
      | none => exact absurd hlt (Nat.lt_irrefl _)
      | single hkind ho hrest =>
        cases Lexed.kind_of_token ht hkind
        obtain ⟨hm₁, hafter⟩ := balanced_ordinary hm hclose ho hrest
        rw [← (step_isNext hr).index] at hm₁ hafter
        exact rest ⟨_, passes_ordinary hm h ht ho hr, rfl⟩ hm₁ hafter
      | declaration hu hd hwithin hrest =>
        cases ht.symm.trans hu
        have hnext : (step s t o).index = nextIndex s t (.at o.index) := by
          rw [(step_isNext hr).index, nextIndex_at hm ht]
        have hle := hwithin.le hm
        exact rest ⟨_, passes_declaration hm h ht hd, hnext⟩ (by omega) hrest
      | @group _ c _ b' hkind hc hinside hrest =>
        have hic := (hm.closer_spec hc).1
        have hcj := hrest.le hm
        have hopen' : ∀ x ∈ o.openLiterals, x < o.index + 1 ∨ c < x := fun x hx => by
          have := hopen x hx
          omega
        refine rest (passes_group hm h ht (Lexed.kind_of_token ht hkind) hr hc (fun x hx => ?_)
          fun base p hpi hpo hph => ?_) (Nat.lt_succ_of_lt hic) hrest
        · have := hopen' x hx
          omega
        · exact ih _ (by omega) hinside hc (Nat.lt_succ_self _) hpi hph
            (fun x hx => (hopen' x (hpo ▸ hx)).imp_right Nat.le_of_lt) rfl
    · rw [not_or, Bool.not_eq_false] at hr
      obtain ⟨hbegins, hsome⟩ := hr
      obtain ⟨⟨l, lb, rb, ds⟩, hl⟩ := Option.ne_none_iff_exists'.mp hsome
      obtain ⟨hlt₁, hlt₂⟩ := literalHere_lt hm hl
      obtain ⟨hc, hinside, hrest⟩ := literalHere_parts hm hb ha hai hl
      have hrbj := hrest.le hm
      refine rest ?_ (by omega) hrest
      refine (returns_literal hm h ht hbegins hl ?_).imp fun _ hp => ⟨hp.1.passes h, hp.2⟩
      intro p hpi hpo hph
      refine ih _ (by omega) hinside hc (Nat.lt_succ_self _) hpi hph (fun x hx => ?_) rfl
      rw [hpo] at hx
      rcases List.mem_cons.mp hx with rfl | hx
      · exact .inr (Nat.le_refl _)
      · have := hopen x hx
        omega

end Outline

end LiteralFill
