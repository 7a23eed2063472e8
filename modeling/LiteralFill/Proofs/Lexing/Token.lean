import LiteralFill.Proofs.Lexing.Lexeme
import LiteralFill.Syntax.Outline

/-!
The tokens of lexemes, one lexeme at a time. What a lexeme gives depends on its place and on whether the
token before it still waits for a newline, so the tokens of two texts in a row are those of the first and
then those of the second, and tokens move with their text.
-/

namespace LiteralFill

/-! ## One lexeme at a time -/

/-- The tokens that a lexeme gives, and whether the last token then waits for a newline. -/
def lexemeTokens (offset : Nat) (pending : Bool) (l : Lexeme) : List Token × Bool :=
  match l.kind with
  | .blank | .lineComment => ([], pending)
  | .newline | .blockComment =>
    match pending, newlineAt offset l.text with
    | true, some line => ([.impliedSemicolon line], false)
    | _, _ => ([], pending)
  | .openComment => ([⟨.invalid, offset, l.text⟩], false)
  | .byteOrderMark => ([], false)
  | .token kind => ([⟨kind, offset, l.text⟩], kind.endsStatement)

/-- The tokens of lexemes without the semicolon at the end of the text, and whether it is due. -/
def tokensWithin (offset : Nat) (pending : Bool) : List Lexeme → List Token × Bool
  | [] => ([], pending)
  | l :: ls =>
    let (ts, p) := lexemeTokens offset pending l
    let (more, q) := tokensWithin (offset + byteLength l.text) p ls
    (ts ++ more, q)

@[simp] theorem tokensWithin_nil (offset : Nat) (pending : Bool) :
    tokensWithin offset pending [] = ([], pending) := rfl

theorem tokensWithin_cons (offset : Nat) (pending : Bool) (l : Lexeme) (ls : List Lexeme) :
    tokensWithin offset pending (l :: ls) =
      ((lexemeTokens offset pending l).1 ++
        (tokensWithin (offset + byteLength l.text) (lexemeTokens offset pending l).2 ls).1,
       (tokensWithin (offset + byteLength l.text) (lexemeTokens offset pending l).2 ls).2) := rfl

theorem tokensFrom_cons (offset : Nat) (pending : Bool) (l : Lexeme) (ls : List Lexeme) :
    tokensFrom offset pending (l :: ls) =
      (lexemeTokens offset pending l).1 ++
        tokensFrom (offset + byteLength l.text) (lexemeTokens offset pending l).2 ls := by
  obtain ⟨kind, text⟩ := l
  cases kind <;> simp only [tokensFrom, lexemeTokens] <;> try rfl
  all_goals cases pending <;> cases newlineAt offset text <;> rfl

/-- The tokens of two runs of lexemes in a row. -/
theorem tokensFrom_append (offset : Nat) (pending : Bool) (ls ms : List Lexeme) :
    tokensFrom offset pending (ls ++ ms) =
      (tokensWithin offset pending ls).1 ++
        tokensFrom (offset + byteLength (lexemesText ls)) (tokensWithin offset pending ls).2 ms := by
  induction ls generalizing offset pending with
  | nil => rfl
  | cons l ls ih =>
    rw [List.cons_append, tokensFrom_cons, ih, tokensWithin_cons, lexemesText_cons,
      byteLength_append, List.append_assoc, Nat.add_assoc]

theorem tokensWithin_append (offset : Nat) (pending : Bool) (ls ms : List Lexeme) :
    tokensWithin offset pending (ls ++ ms) =
      ((tokensWithin offset pending ls).1 ++
        (tokensWithin (offset + byteLength (lexemesText ls)) (tokensWithin offset pending ls).2 ms).1,
       (tokensWithin (offset + byteLength (lexemesText ls)) (tokensWithin offset pending ls).2 ms).2) := by
  induction ls generalizing offset pending with
  | nil => rfl
  | cons l ls ih =>
    rw [List.cons_append, tokensWithin_cons, ih, tokensWithin_cons, lexemesText_cons,
      byteLength_append, List.append_assoc, Nat.add_assoc]

/-- The tokens of a text: those of its lexemes, and a semicolon at the end if one is due. -/
theorem tokensFrom_eq (offset : Nat) (pending : Bool) (ls : List Lexeme) :
    tokensFrom offset pending ls =
      (tokensWithin offset pending ls).1 ++
        if (tokensWithin offset pending ls).2 then
          [.impliedSemicolon (offset + byteLength (lexemesText ls))]
        else [] := by
  have h := tokensFrom_append offset pending ls []
  rwa [List.append_nil] at h

/-! ## Lexemes that give no token of their own -/

/-- A blank, a newline, a comment or a byte order mark. -/
def Lexeme.isTrivia (l : Lexeme) : Bool :=
  match l.kind with
  | .token _ | .openComment => false
  | _ => true

theorem tokensWithin_trivia {gs : List Lexeme} (h : ∀ l ∈ gs, l.isTrivia) (p : Nat) :
    tokensWithin p false gs = ([], false) := by
  induction gs generalizing p with
  | nil => rfl
  | cons l gs ih =>
    have htrivia := h l (by simp)
    rw [tokensWithin_cons]
    have hfirst : lexemeTokens p false l = ([], false) := by
      obtain ⟨kind, text⟩ := l
      cases kind with
      | token k => cases htrivia
      | openComment => cases htrivia
      | _ => rfl
    rw [hfirst]
    exact ih (fun m hm => h m (by simp [hm])) _

@[simp] theorem isImplied_impliedSemicolon (p : Nat) : (Token.impliedSemicolon p).isImplied = true := rfl

@[simp] theorem impliedSemicolon_inj {p q : Nat} :
    Token.impliedSemicolon p = .impliedSemicolon q ↔ p = q := by
  simp [Token.impliedSemicolon]

/-- What a lexeme gives: nothing that is written, or one token with its text. -/
theorem lexemeTokens_written (offset : Nat) (pending : Bool) {l : Lexeme} (hl : l.text ≠ []) :
    (l.isTrivia ∧ ∀ t ∈ (lexemeTokens offset pending l).1, t.isImplied) ∨
      ∃ kind, lexemeTokens offset pending l = ([⟨kind, offset, l.text⟩], kind.endsStatement) ∧
        Token.isImplied ⟨kind, offset, l.text⟩ = false := by
  obtain ⟨kind, text⟩ := l
  have hwritten : ∀ k, Token.isImplied ⟨k, offset, text⟩ = false := fun k => by
    simpa [Token.isImplied] using fun _ => hl
  cases kind with
  | token k => exact .inr ⟨k, rfl, hwritten k⟩
  | openComment => exact .inr ⟨.invalid, rfl, hwritten _⟩
  | blank | lineComment | byteOrderMark => exact .inl ⟨rfl, fun t ht => by cases ht⟩
  | newline | blockComment =>
    refine .inl ⟨rfl, fun t ht => ?_⟩
    simp only [lexemeTokens] at ht
    cases pending <;> cases hline : newlineAt offset text <;> simp only [hline, List.not_mem_nil] at ht
    obtain rfl := List.mem_singleton.mp ht
    rfl

/-! ## Moving tokens -/

/-- A token further on in its text. -/
def Token.shift (d : Nat) (t : Token) : Token := { t with start := t.start + d }

@[simp] theorem Token.shift_kind (d : Nat) (t : Token) : (t.shift d).kind = t.kind := rfl

@[simp] theorem Token.shift_text (d : Nat) (t : Token) : (t.shift d).text = t.text := rfl

@[simp] theorem Token.shift_start (d : Nat) (t : Token) : (t.shift d).start = t.start + d := rfl

@[simp] theorem Token.shift_stop (d : Nat) (t : Token) : (t.shift d).stop = t.stop + d := by
  simp only [Token.stop, Token.shift_text, Token.shift_start]
  omega

theorem newlineAt_shift (offset d : Nat) (cs : List Char) :
    newlineAt (offset + d) cs = (newlineAt offset cs).map (· + d) := by
  induction cs generalizing offset with
  | nil => rfl
  | cons c cs ih =>
    by_cases hc : c = '\n'
    · simp [newlineAt, hc]
    · simp only [newlineAt, hc, ↓reduceIte]
      rw [← ih]
      congr 1
      omega

theorem lexemeTokens_shift (offset d : Nat) (pending : Bool) (l : Lexeme) :
    lexemeTokens (offset + d) pending l =
      ((lexemeTokens offset pending l).1.map (.shift d), (lexemeTokens offset pending l).2) := by
  obtain ⟨kind, text⟩ := l
  cases kind <;> simp only [lexemeTokens, newlineAt_shift] <;> try rfl
  all_goals cases pending <;> cases newlineAt offset text <;> rfl

theorem tokensWithin_shift (offset d : Nat) (pending : Bool) (ls : List Lexeme) :
    tokensWithin (offset + d) pending ls =
      ((tokensWithin offset pending ls).1.map (.shift d), (tokensWithin offset pending ls).2) := by
  induction ls generalizing offset pending with
  | nil => rfl
  | cons l ls ih =>
    rw [tokensWithin_cons, tokensWithin_cons, lexemeTokens_shift,
      show offset + d + byteLength l.text = offset + byteLength l.text + d by omega, ih,
      List.map_append]

/-- The tokens of a text further on are its tokens further on. -/
theorem tokensFrom_shift (offset d : Nat) (pending : Bool) (ls : List Lexeme) :
    tokensFrom (offset + d) pending ls = (tokensFrom offset pending ls).map (.shift d) := by
  rw [tokensFrom_eq, tokensFrom_eq, tokensWithin_shift]
  by_cases hp : (tokensWithin offset pending ls).2
  · simp only [hp, ↓reduceIte, List.map_append, List.map_cons, List.map_nil]
    rw [show offset + d + byteLength (lexemesText ls) = offset + byteLength (lexemesText ls) + d by
      omega]
    rfl
  · simp only [hp, Bool.false_eq_true, ↓reduceIte, List.append_nil]

/-! ## Newlines -/

/-- The first newline of a text. -/
theorem newlineAt_eq_some {offset line : Nat} {cs : List Char} :
    newlineAt offset cs = some line ↔
      ∃ cut rest, cs = cut ++ '\n' :: rest ∧ '\n' ∉ cut ∧ line = offset + byteLength cut := by
  induction cs generalizing offset with
  | nil => simp [newlineAt]
  | cons c cs ih =>
    rw [newlineAt]
    split
    · next hc =>
      subst hc
      constructor
      · rintro ⟨⟩
        exact ⟨[], cs, rfl, List.not_mem_nil, rfl⟩
      · rintro ⟨cut, rest, heq, hcut, rfl⟩
        cases cut with
        | nil => rfl
        | cons d cut => simp [← (List.cons.inj heq).1] at hcut
    · next hc =>
      rw [ih]
      constructor
      · rintro ⟨cut, rest, rfl, hcut, rfl⟩
        exact ⟨c :: cut, rest, rfl, by simp [hcut, Ne.symm hc], by rw [byteLength]; omega⟩
      · rintro ⟨cut, rest, heq, hcut, rfl⟩
        cases cut with
        | nil => exact absurd (List.cons.inj heq).1 hc
        | cons d cut =>
          obtain ⟨rfl, rfl⟩ := List.cons.inj heq
          exact ⟨cut, rest, rfl, fun h => hcut (List.mem_cons_of_mem _ h), by rw [byteLength]; omega⟩

theorem newlineAt_eq_none {offset : Nat} {cs : List Char} :
    newlineAt offset cs = none ↔ '\n' ∉ cs := by
  induction cs generalizing offset with
  | nil => simp [newlineAt]
  | cons c cs ih =>
    rw [newlineAt]
    split
    · next hc => simp [hc]
    · next hc => simp [ih, Ne.symm hc]

theorem newlineAt_append (offset : Nat) (cs ds : List Char) :
    newlineAt offset (cs ++ ds) = (newlineAt offset cs).or (newlineAt (offset + byteLength cs) ds) := by
  induction cs generalizing offset with
  | nil => rfl
  | cons c cs ih =>
    rw [List.cons_append, newlineAt, newlineAt]
    split
    · rfl
    · rw [ih, byteLength, Nat.add_assoc]

/-! ## The places of tokens -/

theorem lexemeTokens_place {offset : Nat} {pending : Bool} {l : Lexeme} {t : Token}
    (h : t ∈ (lexemeTokens offset pending l).1) :
    ∃ before after, l.text = before ++ (t.text ++ after) ∧ t.start = offset + byteLength before := by
  obtain ⟨kind, text⟩ := l
  cases kind <;> simp only [lexemeTokens] at h
  case newline | blockComment =>
    cases pending <;> cases hline : newlineAt offset text <;> simp only [hline, List.not_mem_nil] at h
    obtain ⟨before, after, htext, -, hstart⟩ := newlineAt_eq_some.mp hline
    obtain rfl := List.mem_singleton.mp h
    exact ⟨before, _, htext, hstart⟩
  case openComment | token =>
    obtain rfl := List.mem_singleton.mp h
    exact ⟨[], [], (List.append_nil _).symm, rfl⟩
  all_goals cases h

/-- A token stands in its text at the place where it says. -/
theorem tokensFrom_place {offset : Nat} {pending : Bool} {ls : List Lexeme} {t : Token}
    (h : t ∈ tokensFrom offset pending ls) :
    ∃ before after, lexemesText ls = before ++ (t.text ++ after) ∧
      t.start = offset + byteLength before := by
  induction ls generalizing offset pending with
  | nil =>
    rw [tokensFrom] at h
    split at h
    · obtain rfl := List.mem_singleton.mp h
      exact ⟨[], [], rfl, rfl⟩
    · cases h
  | cons l ls ih =>
    rw [tokensFrom_cons, List.mem_append] at h
    rw [lexemesText_cons]
    rcases h with h | h
    · obtain ⟨before, after, htext, hstart⟩ := lexemeTokens_place h
      exact ⟨before, after ++ lexemesText ls, by simp [htext], hstart⟩
    · obtain ⟨before, after, htext, hstart⟩ := ih h
      exact ⟨l.text ++ before, after, by simp [htext], by rw [hstart, byteLength_append, Nat.add_assoc]⟩

/-! ## The order of tokens -/

theorem newlineAt_bounds {offset line : Nat} {cs : List Char} (h : newlineAt offset cs = some line) :
    offset ≤ line ∧ line + 1 ≤ offset + byteLength cs := by
  obtain ⟨cut, rest, rfl, -, rfl⟩ := newlineAt_eq_some.mp h
  have hone : '\n'.utf8Size = 1 := rfl
  simp only [byteLength_append, byteLength, hone]
  omega

/-- A token that stands within a stretch of text. -/
def Token.IsWithin (t : Token) (start stop : Nat) : Prop := start ≤ t.start ∧ t.stop ≤ stop

theorem lexemeTokens_isWithin {offset : Nat} {pending : Bool} {l : Lexeme} {t : Token}
    (h : t ∈ (lexemeTokens offset pending l).1) : t.IsWithin offset (offset + byteLength l.text) := by
  obtain ⟨kind, text⟩ := l
  have himplied : ∀ {line}, newlineAt offset text = some line →
      (Token.impliedSemicolon line).IsWithin offset (offset + byteLength text) := by
    intro line hline
    have := newlineAt_bounds hline
    exact ⟨this.1, by simp only [Token.stop, Token.impliedSemicolon, byteLength]; omega⟩
  have hwhole : ∀ k, (⟨k, offset, text⟩ : Token).IsWithin offset (offset + byteLength text) :=
    fun k => ⟨Nat.le_refl _, Nat.le_refl _⟩
  cases kind <;> simp only [lexemeTokens] at h
  case newline | blockComment =>
    cases pending <;> cases hn : newlineAt offset text <;> simp [hn] at h
    subst h
    exact himplied hn
  case openComment | token =>
    simp only [List.mem_singleton] at h
    subst h
    exact hwhole _
  all_goals simp at h

theorem tokensWithin_isWithin {offset : Nat} {pending : Bool} {ls : List Lexeme} {t : Token}
    (h : t ∈ (tokensWithin offset pending ls).1) :
    t.IsWithin offset (offset + byteLength (lexemesText ls)) := by
  induction ls generalizing offset pending with
  | nil => simp at h
  | cons l ls ih =>
    rw [tokensWithin_cons, List.mem_append] at h
    rw [lexemesText_cons, byteLength_append]
    rcases h with h | h
    · obtain ⟨h1, h2⟩ := lexemeTokens_isWithin h
      exact ⟨h1, by omega⟩
    · obtain ⟨h1, h2⟩ := ih h
      exact ⟨by omega, by omega⟩

theorem tokensFrom_isWithin {offset : Nat} {pending : Bool} {ls : List Lexeme} {t : Token}
    (h : t ∈ tokensFrom offset pending ls) :
    t.IsWithin offset (offset + byteLength (lexemesText ls)) := by
  rw [tokensFrom_eq, List.mem_append] at h
  rcases h with h | h
  · exact tokensWithin_isWithin h
  · by_cases hp : (tokensWithin offset pending ls).2
    · simp only [hp, ↓reduceIte, List.mem_singleton] at h
      subst h
      simp [Token.IsWithin, Token.stop, Token.impliedSemicolon, byteLength]
    · simp [hp] at h

theorem lexemeTokens_length (offset : Nat) (pending : Bool) (l : Lexeme) :
    (lexemeTokens offset pending l).1.length ≤ 1 := by
  obtain ⟨kind, text⟩ := l
  cases kind <;> simp only [lexemeTokens] <;> try simp
  all_goals cases pending <;> cases newlineAt offset text <;> simp

/-- Each token stops before the next ones start. -/
theorem tokensFrom_pairwise (offset : Nat) (pending : Bool) (ls : List Lexeme) :
    (tokensFrom offset pending ls).Pairwise fun a b => a.stop ≤ b.start := by
  induction ls generalizing offset pending with
  | nil => cases pending <;> simp [tokensFrom]
  | cons l ls ih =>
    rw [tokensFrom_cons, List.pairwise_append]
    refine ⟨?_, ih _ _, ?_⟩
    · have := lexemeTokens_length offset pending l
      match (lexemeTokens offset pending l).1, this with
      | [], _ => exact List.Pairwise.nil
      | [t], _ => exact List.pairwise_singleton _ _
    · intro a ha b hb
      have h1 := lexemeTokens_isWithin ha
      have h2 := tokensFrom_isWithin hb
      exact Nat.le_trans h1.2 h2.1

end LiteralFill
