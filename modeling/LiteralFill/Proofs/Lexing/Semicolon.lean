import LiteralFill.Proofs.Lexing.Comment

/-!
Where semicolons stand that are not written. A token that can end a statement has one behind it when a newline
comes before the next token, be it bare, behind a line comment or within a block comment, and when no token
follows. Nothing else has one.
-/

namespace LiteralFill

/-! ## The text behind a token -/

/-- The text between a token and the one that is written next, or the end of the text. -/
def gapAfter (text : List Char) (t : Token) (next : Option Token) : List Char :=
  slice text ⟨t.stop, (next.map (·.start)).getD (byteLength text)⟩

/-- Where a statement ends that `t` is the last token of: at the first newline before the next token, or at
the end of the text. -/
inductive EndsStatementAt (text : List Char) (t : Token) (next : Option Token) : Nat → Prop
  | newline {before rest : List Char} (h : gapAfter text t next = before ++ '\n' :: rest)
      (first : '\n' ∉ before) : EndsStatementAt text t next (t.stop + byteLength before)
  | textEnd (last : next = none) (h : '\n' ∉ gapAfter text t next) :
      EndsStatementAt text t next (byteLength text)

theorem endsStatementAt_iff {text : List Char} {t : Token} {next : Option Token} {p : Nat} :
    EndsStatementAt text t next p ↔
      (newlineAt t.stop (gapAfter text t next)).or (if next = none then some (byteLength text) else none) =
        some p := by
  rw [Option.or_eq_some_iff, newlineAt_eq_some, newlineAt_eq_none]
  constructor
  · rintro (⟨h, hfirst⟩ | ⟨hlast, h⟩)
    · exact .inl ⟨_, _, h, hfirst, rfl⟩
    · exact .inr ⟨h, if_pos hlast⟩
  · rintro (⟨before, rest, h, hfirst, rfl⟩ | ⟨h, hend⟩)
    · exact .newline h hfirst
    · split at hend
      · next hlast =>
        cases hend
        exact .textEnd hlast h
      · cases hend

/-! ## Lexemes between tokens -/

/-- A lexeme between two tokens stands for a semicolon at its first newline, if one is due. -/
theorem lexemeTokens_trivia {p : Nat} {l : Lexeme} {rest : List Lexeme} (h : l.IsFormed rest)
    (hl : l.isTrivia) (hmark : '\uFEFF' ∉ l.text) :
    lexemeTokens p true l =
      ((newlineAt p l.text).toList.map .impliedSemicolon, (newlineAt p l.text).isNone) := by
  obtain ⟨kind, text⟩ := l
  have hnone : '\n' ∉ text → ([], true) =
      ((newlineAt p text).toList.map Token.impliedSemicolon, (newlineAt p text).isNone) := fun hno => by
    rw [newlineAt_eq_none.mpr hno]
    rfl
  cases kind with
  | token k => cases hl
  | openComment => cases hl
  | byteOrderMark =>
    obtain rfl : text = ['\uFEFF'] := h
    exact absurd (List.mem_singleton.mpr rfl) hmark
  | blank => exact hnone fun hmem => absurd (h _ hmem) (by decide)
  | lineComment =>
    obtain ⟨body, rfl, hbody, -⟩ := h
    refine hnone fun hmem => ?_
    simp only [List.mem_cons, show ('\n' : Char) ≠ '/' by decide, false_or] at hmem
    exact hbody _ hmem rfl
  | newline | blockComment =>
    simp only [lexemeTokens]
    cases newlineAt p text <;> rfl

/-- Several lexemes between two tokens stand for one semicolon, at the first newline among them. -/
theorem tokensWithin_gap {p : Nat} {gs rest : List Lexeme}
    (h : lexemes (lexemesText (gs ++ rest)) = gs ++ rest) (hgs : ∀ l ∈ gs, l.isTrivia)
    (hmark : '\uFEFF' ∉ lexemesText gs) :
    tokensWithin p true gs =
      ((newlineAt p (lexemesText gs)).toList.map .impliedSemicolon,
        (newlineAt p (lexemesText gs)).isNone) := by
  induction gs generalizing p with
  | nil => rfl
  | cons l gs ih =>
    rw [lexemesText_cons, List.mem_append, not_or] at hmark
    have hl := lexemeTokens_trivia (p := p) (isFormed_of_lexemes h) (hgs l (by simp)) hmark.1
    have hrest := fun m (hm : m ∈ gs) => hgs m (List.mem_cons_of_mem _ hm)
    rw [tokensWithin_cons, hl, lexemesText_cons, newlineAt_append]
    cases hline : newlineAt p l.text with
    | some line => simp [tokensWithin_trivia hrest]
    | none => simp [ih (p := p + byteLength l.text) (lexemes_of_append [l] h) hrest hmark.2]

/-! ## Behind a token -/

/-- Lexemes that begin with a token give a written token first. -/
theorem tokensFrom_written (p : Nat) (pending : Bool) {m : Lexeme} (ms : List Lexeme) (hm : m.isTrivia = false)
    (hne : m.text ≠ []) :
    ∃ u us, tokensFrom p pending (m :: ms) = u :: us ∧ u.isImplied = false ∧ u.start = p := by
  rcases lexemeTokens_written p pending hne with ⟨htrivia, -⟩ | ⟨kind, htoken, hwritten⟩
  · rw [hm] at htrivia
    cases htrivia
  · exact ⟨_, _, by rw [tokensFrom_cons, htoken]; rfl, hwritten, rfl⟩

/-- What a text begins with: lexemes that are no tokens, and then a token or the end of the text. The first
token of the text is a semicolon that is not written if one is due, and a newline or the end of the text comes
before any token. -/
theorem tokensFrom_head (p : Nat) (pending : Bool) {ls : List Lexeme}
    (h : lexemes (lexemesText ls) = ls) (hmark : '\uFEFF' ∉ lexemesText ls) :
    ∃ gs rest, ls = gs ++ rest ∧
      ((tokensFrom p pending ls).find? (!·.isImplied) = none → rest = []) ∧
      (∀ u, (tokensFrom p pending ls).find? (!·.isImplied) = some u →
        u.start = p + byteLength (lexemesText gs)) ∧
      ∀ q, (tokensFrom p pending ls).head? = some (.impliedSemicolon q) ↔ pending = true ∧
        (newlineAt p (lexemesText gs)).or
          (if (tokensFrom p pending ls).find? (!·.isImplied) = none then
            some (p + byteLength (lexemesText gs)) else none) = some q := by
  obtain ⟨gs, rest, rfl, hgs, hrest⟩ : ∃ gs rest, ls = gs ++ rest ∧ (∀ l ∈ gs, l.isTrivia) ∧
      (rest = [] ∨ ∃ m ms, rest = m :: ms ∧ m.isTrivia = false) := by
    refine ⟨ls.takeWhile (·.isTrivia), ls.dropWhile (·.isTrivia), List.takeWhile_append_dropWhile.symm,
      fun l hl => List.all_eq_true.mp List.all_takeWhile l hl, ?_⟩
    have := List.head?_dropWhile_not (·.isTrivia) ls
    cases hd : ls.dropWhile (·.isTrivia) with
    | nil => exact .inl rfl
    | cons m ms => exact .inr ⟨m, ms, rfl, by simpa [hd] using this⟩
  rw [lexemesText_append, List.mem_append, not_or] at hmark
  refine ⟨gs, rest, rfl, ?_⟩
  rw [tokensFrom_append]
  rcases hrest with rfl | ⟨m, ms, rfl, hm⟩
  · -- the text ends
    cases pending with
    | false => simp [tokensWithin_trivia hgs, tokensFrom]
    | true =>
      rw [tokensWithin_gap h hgs hmark.1]
      cases newlineAt p (lexemesText gs) <;> simp [tokensFrom]
  · -- a token comes
    have hne : m.text ≠ [] := text_ne_nil_of_mem (h ▸ List.mem_append_right _ List.mem_cons_self)
    obtain ⟨u, us, htokens, hu, hstart⟩ := tokensFrom_written (p + byteLength (lexemesText gs))
      (tokensWithin p pending gs).2 ms hm hne
    have hno : ∀ q, u ≠ .impliedSemicolon q := by
      rintro q rfl
      cases hu
    rw [htokens]
    cases pending with
    | false => simp [tokensWithin_trivia hgs, hu, hstart, hno]
    | true =>
      rw [tokensWithin_gap h hgs hmark.1]
      cases newlineAt p (lexemesText gs) <;> simp [hu, hstart, hno]

/-- What stands behind a token that is written. -/
theorem tokensFrom_split {offset : Nat} {pending : Bool} {ls : List Lexeme} {before after : List Token}
    {t : Token} (h : tokensFrom offset pending ls = before ++ t :: after) (ht : t.isImplied = false)
    (hls : ∀ l ∈ ls, l.text ≠ []) :
    ∃ ls₁ l ls₂, ls = ls₁ ++ l :: ls₂ ∧ l.text = t.text ∧ t.start = offset + byteLength (lexemesText ls₁) ∧
      after = tokensFrom t.stop t.kind.endsStatement ls₂ := by
  induction ls generalizing offset pending before with
  | nil =>
    have hmem : t ∈ tokensFrom offset pending [] := by simp [h]
    cases pending with
    | false => cases hmem
    | true =>
      obtain rfl := List.mem_singleton.mp hmem
      cases ht
  | cons l ls ih =>
    rw [tokensFrom_cons] at h
    have hl : l.text ≠ [] := hls l List.mem_cons_self
    have hmore : ∀ before', tokensFrom (offset + byteLength l.text) (lexemeTokens offset pending l).2 ls =
        before' ++ t :: after → ∃ ls₁ m ls₂, l :: ls = ls₁ ++ m :: ls₂ ∧ m.text = t.text ∧
          t.start = offset + byteLength (lexemesText ls₁) ∧
          after = tokensFrom t.stop t.kind.endsStatement ls₂ := by
      intro before' h'
      obtain ⟨ls₁, m, ls₂, rfl, htext, hstart, hafter⟩ :=
        ih h' fun m hm => hls m (List.mem_cons_of_mem _ hm)
      refine ⟨l :: ls₁, m, ls₂, rfl, htext, ?_, hafter⟩
      rw [hstart, lexemesText_cons, byteLength_append, Nat.add_assoc]
    rcases lexemeTokens_written offset pending hl with ⟨-, himplied⟩ | ⟨kind, htoken, -⟩
    · rcases List.append_eq_append_iff.mp h with ⟨before', -, h'⟩ | ⟨front, hfront, h'⟩
      · exact hmore before' h'
      · cases front with
        | nil => exact hmore [] h'.symm
        | cons u front =>
          obtain rfl := (List.cons.inj h').1
          have := himplied t (by simp [hfront])
          rw [ht] at this
          cases this
    · rw [htoken, List.singleton_append] at h
      cases before with
      | nil =>
        obtain ⟨rfl, rfl⟩ := List.cons.inj h
        exact ⟨[], l, ls, rfl, rfl, rfl, rfl⟩
      | cons u before =>
        refine hmore before ?_
        rw [htoken]
        exact (List.cons.inj h).2

/-- The text behind a token up to the one that is written next is that of the lexemes in between. -/
theorem gapAfter_eq {text : List Char} {before gs rest : List Lexeme} {t : Token} {next : Option Token}
    (h : lexemes text = before ++ gs ++ rest) (hstop : t.stop = byteLength (lexemesText before))
    (hlast : next = none → rest = [])
    (hnext : ∀ u, next = some u → u.start = t.stop + byteLength (lexemesText gs)) :
    gapAfter text t next = lexemesText gs := by
  have hend : (next.map (·.start)).getD (byteLength text) = byteLength (lexemesText (before ++ gs)) := by
    rw [lexemesText_append, byteLength_append, ← hstop]
    cases next with
    | none =>
      have htext := lexemesText_lexemes text
      rw [h, hlast rfl, List.append_nil, lexemesText_append] at htext
      rw [← htext, hstop, ← byteLength_append]
      rfl
    | some u => exact hnext u rfl
  rw [gapAfter, hend, hstop]
  exact slice_eq rest h

/-- A token that is not written comes right after one that is. -/
theorem getLast?_of_isImplied {text : List Char} {before after : List Token} {t : Token}
    (h : (tokenize text).1 = before ++ t :: after) (ht : t.isImplied) :
    ∃ u, before.getLast? = some u ∧ u.isImplied = false := by
  have hne : ∀ l ∈ lexemes text, l.text ≠ [] := fun l hl => text_ne_nil_of_mem hl
  obtain ⟨hfirst, hmore⟩ := tokensFrom_implied 0 false hne
  have h : tokensFrom 0 false (lexemes text) = before ++ t :: after := h
  rw [h] at hfirst hmore
  have hempty : t.text = [] := by
    simp only [Token.isImplied, Bool.and_eq_true, List.isEmpty_iff] at ht
    exact ht.2
  rcases List.eq_nil_or_concat before with rfl | ⟨front, u, rfl⟩
  · exact absurd (hfirst t rfl hempty) Bool.false_ne_true
  · have hends : u.kind.endsStatement := hmore front.length u t (by simp) (by simp) hempty
    refine ⟨u, by simp, ?_⟩
    -- a semicolon ends no statement
    rw [Token.isImplied, Bool.and_eq_false_iff, beq_eq_false_iff_ne]
    left
    intro hkind
    rw [hkind] at hends
    cases hends

/-- A semicolon that is not written stands behind a written token, right after it, if and only if the token
can end a statement, and a newline comes before the next written token or there is none; it stands at the first
such newline, else at the end of the text. It stands nowhere else, and never behind another one. -/
theorem impliedSemicolon_iff (text : List Char) (hmark : '\uFEFF' ∉ text.tail) :
    ∀ before t after, (tokenize text).1 = before ++ t :: after →
      (t.isImplied = false → ∀ p, after.head? = some (.impliedSemicolon p) ↔
        t.kind.endsStatement ∧ EndsStatementAt text t (after.find? (!·.isImplied)) p) ∧
      (t.isImplied = true → ∃ u, before.getLast? = some u ∧ u.isImplied = false) := by
  intro before t after h
  refine ⟨fun ht p => ?_, getLast?_of_isImplied h⟩
  obtain ⟨ls₁, l, ls₂, hsplit, htext, hstart, rfl⟩ :=
    tokensFrom_split h ht fun l hl => text_ne_nil_of_mem hl
  replace hsplit : lexemes text = (ls₁ ++ [l]) ++ ls₂ := by simpa using hsplit
  have hstop : t.stop = byteLength (lexemesText (ls₁ ++ [l])) := by
    simp [Token.stop, hstart, htext, byteLength_append]
  have hmark₂ : '\uFEFF' ∉ lexemesText ls₂ := by
    obtain ⟨c, cs, hfront⟩ : ∃ c cs, lexemesText (ls₁ ++ [l]) = c :: cs := by
      refine List.exists_cons_of_ne_nil ?_
      have hmem : l ∈ lexemes text := by simp [hsplit]
      simp [text_ne_nil_of_mem hmem]
    intro hmem
    rw [← lexemesText_lexemes text, hsplit, lexemesText_append, hfront] at hmark
    exact hmark (List.mem_append_right _ hmem)
  obtain ⟨gs, rest, rfl, hlast, hnext, hhead⟩ := tokensFrom_head t.stop
    t.kind.endsStatement (lexemes_of_append (ls₁ ++ [l]) hsplit) hmark₂
  have hgap := gapAfter_eq (hsplit.trans (List.append_assoc _ _ _).symm) hstop hlast hnext
  rw [hhead, endsStatementAt_iff, hgap]
  split
  · next hnone =>
    have : byteLength text = t.stop + byteLength (lexemesText gs) := by
      rw [← lexemesText_lexemes text, hsplit, hlast hnone, List.append_nil, lexemesText_append,
        byteLength_append, hstop]
    rw [this]
  · exact Iff.rfl

/-- The newline is in a comment, behind a byte order mark at the beginning. -/
theorem impliedSemicolon_iff_comment :
    '\uFEFF' ∉ "\uFEFFa /* \n */ b".toList.tail ∧
      EndsStatementAt "\uFEFFa /* \n */ b".toList ⟨.ident, 3, ['a']⟩ (some ⟨.ident, 13, ['b']⟩) 8 := by
  have hmark : '\uFEFF' ∉ "\uFEFFa /* \n */ b".toList.tail := by decide
  have htokens : (tokenize "\uFEFFa /* \n */ b".toList).1 =
      [] ++ ⟨.ident, 3, ['a']⟩ ::
        [.impliedSemicolon 8, ⟨.ident, 13, ['b']⟩, .impliedSemicolon 14] := by
    decide +kernel
  exact ⟨hmark, (((impliedSemicolon_iff _ hmark _ _ _ htokens).1 rfl 8).mp rfl).2⟩

end LiteralFill
