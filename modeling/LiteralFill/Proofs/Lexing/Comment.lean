import LiteralFill.Proofs.Lexing.Place
import LiteralFill.Syntax.Comment

/-!
The comments of a stretch of text between tokens, found again by a search of its characters. The search
agrees with the lexemes as long as no comment begins with the characters of a block comment's end.
-/

namespace LiteralFill

/-! ## How lexemes are written -/

theorem throughClose_take {cs : List Char} {n : Nat} (h : throughClose cs = some n) :
    throughClose (cs.take n) = some (cs.take n).length := by
  have hle := throughClose_le h
  have hlen : (cs.take n).length = n := by simp; omega
  rw [← List.take_append_drop n cs] at h
  have := throughClose_append [] h (by omega)
  rw [List.append_nil] at this
  rw [this, hlen]

theorem throughClose_getLast {cs : List Char} (h : throughClose cs = some cs.length) :
    cs.getLast? = some '/' := by
  induction cs with
  | nil => simp [throughClose] at h
  | cons c cs ih =>
    rw [throughClose_cons] at h
    by_cases hc : c = '*' ∧ cs.head? = some '/'
    · rw [if_pos hc, Option.some.injEq] at h
      obtain ⟨d, rfl⟩ := List.length_eq_one_iff.mp (show cs.length = 1 by simpa using h.symm)
      simpa using hc.2
    · rw [if_neg hc, Option.map_eq_some_iff] at h
      obtain ⟨n, hn, hlen⟩ := h
      simp only [List.length_cons, Nat.add_right_cancel_iff] at hlen
      have := ih (hlen ▸ hn)
      cases cs with
      | nil => simp at this
      | cons d ds => simpa [List.getLast?_cons_cons] using this

/-- A block comment ends in its own last slash, with no white space behind it. -/
theorem trimEnd_blockComment {body : List Char} (h : throughClose body = some body.length) :
    trimEnd ('/' :: '*' :: body) = '/' :: '*' :: body := by
  have hlast := throughClose_getLast h
  cases body with
  | nil => cases hlast
  | cons c cs => exact trimEnd_eq_self (d := '/') (by simpa [List.getLast?_cons_cons] using hlast) (by decide)

theorem take_runLength (p : Char → Bool) (cs : List Char) :
    cs.take (runLength p cs) = cs.takeWhile p := by
  induction cs with
  | nil => rfl
  | cons c cs ih =>
    rw [runLength_cons]
    by_cases hc : p c <;> simp [hc, ih]

theorem drop_runLength (p : Char → Bool) (cs : List Char) :
    cs.drop (runLength p cs) = cs.dropWhile p := by
  induction cs with
  | nil => rfl
  | cons c cs ih =>
    rw [runLength_cons]
    by_cases hc : p c <;> simp [hc, ih]

/-- What the text of a lexeme between tokens looks like, with the lexemes after it. -/
def Lexeme.IsFormed (l : Lexeme) (rest : List Lexeme) : Prop :=
  match l.kind with
  | .blank => ∀ d ∈ l.text, isLineBlank d
  | .newline => l.text = ['\n']
  | .byteOrderMark => l.text = ['\uFEFF']
  | .lineComment =>
    ∃ body, l.text = '/' :: '/' :: body ∧ (∀ d ∈ body, d ≠ '\n') ∧
      ∀ d ∈ (lexemesText rest).head?, d = '\n'
  | .blockComment => ∃ body, l.text = '/' :: '*' :: body ∧ throughClose body = some body.length
  | .token .comma => l.text = [',']
  | .token .semicolon => l.text = [';']
  | _ => True

theorem fixedToken_text {cs : List Char} {kind : TokenKind} {n : Nat}
    (h : fixedToken cs = some (kind, n)) : (cs.take n, kind) ∈ fixedTokens := by
  simp only [fixedToken, Option.map_eq_some_iff, Prod.mk.injEq] at h
  obtain ⟨⟨text, k⟩, hfind, rfl, rfl⟩ := h
  have hpre : text <+: cs := by
    have := List.find?_some hfind
    exact List.isPrefixOf_iff_prefix.mp this
  simp only
  rw [← List.prefix_iff_eq_take.mp hpre]
  exact List.mem_of_find?_eq_some hfind

theorem isFormed_of_quotedToken {kind : TokenKind} {body : Nat × Bool} {text : List Char}
    (h1 : kind ≠ .comma) (h2 : kind ≠ .semicolon) (rest : List Lexeme) :
    Lexeme.IsFormed ⟨(quotedToken kind body).1, text⟩ rest := by
  cases hb : body.2 with
  | false => simp [quotedToken, hb, Lexeme.IsFormed]
  | true =>
    simp only [quotedToken, hb, ↓reduceIte, Lexeme.IsFormed]
    cases kind <;> simp at h1 h2 ⊢

/-- Every lexeme of a text is formed. -/
theorem isFormed_of_lexemes {text : List Char} {l : Lexeme} {rest : List Lexeme}
    (h : lexemes text = l :: rest) : l.IsFormed rest := by
  cases text with
  | nil => simp [lexemes_nil] at h
  | cons c cs =>
    have hrest := lexemesText_lexemes ((c :: cs).drop (lexemeAt c cs).2)
    rw [lexemes_cons, List.cons.injEq] at h
    obtain ⟨rfl, rfl⟩ := h
    cases lexeme_cases c cs with
    | blank hc =>
      simp only [lexemeAt_blank _ hc, Lexeme.IsFormed, Nat.add_comm 1, List.take_succ_cons,
        take_runLength, List.mem_cons]
      rintro d (rfl | hd)
      · exact hc
      · exact List.all_eq_true.mp (List.all_takeWhile) d hd
    | newline => simp [lexemeAt_newline, Lexeme.IsFormed]
    | byteOrderMark => simp [lexemeAt_byteOrderMark, Lexeme.IsFormed]
    | word hc =>
      simp only [lexemeAt_word _ hc, wordKind]
      split
      · split <;> simp [Lexeme.IsFormed]
      · simp [Lexeme.IsFormed]
    | number hc => simp [lexemeAt_number _ hc, Lexeme.IsFormed]
    | fraction hc => simp [lexemeAt_fraction _ hc, Lexeme.IsFormed]
    | string =>
      rw [lexemeAt_string]
      exact isFormed_of_quotedToken (by decide) (by decide) _
    | rawString =>
      rw [lexemeAt_rawString]
      exact isFormed_of_quotedToken (by decide) (by decide) _
    | rune =>
      rw [lexemeAt_rune]
      by_cases hq : quotedBody '\x27' cs = (0, true)
      · simp [hq, Lexeme.IsFormed]
      · rw [if_neg hq]
        exact isFormed_of_quotedToken (by decide) (by decide) _
    | @lineComment s hs =>
      subst hs
      simp only [lexemeAt_lineComment, Nat.add_comm 2, List.drop_succ_cons, drop_runLength] at hrest
      simp only [lexemeAt_lineComment, Lexeme.IsFormed, Nat.add_comm 2, List.take_succ_cons,
        List.drop_succ_cons, take_runLength, drop_runLength, hrest]
      refine ⟨_, rfl, ?_, ?_⟩
      · intro d hd
        simpa using List.all_eq_true.mp (List.all_takeWhile) d hd
      · intro d hd
        have := List.head?_dropWhile_not (· != '\n') s
        rw [hd] at this
        simpa using this
    | @blockComment s hs =>
      subst hs
      rw [lexemeAt_blockComment]
      cases ht : throughClose s with
      | none => simp [Lexeme.IsFormed]
      | some n =>
        simp only [Lexeme.IsFormed, Nat.add_comm 2, List.take_succ_cons]
        exact ⟨_, rfl, throughClose_take ht⟩
    | fixed hc =>
      rw [lexemeAt_fixed hc]
      cases hf : fixedToken (c :: cs) with
      | none => simp [Lexeme.IsFormed]
      | some e =>
        obtain ⟨kind, n⟩ := e
        have hmem := fixedToken_text hf
        have hcomma : ∀ e ∈ fixedTokens, e.2 = .comma → e.1 = [','] := by decide
        have hsemi : ∀ e ∈ fixedTokens, e.2 = .semicolon → e.1 = [';'] := by decide
        simp only [Lexeme.IsFormed]
        cases kind <;> simp only
        · exact hcomma _ hmem rfl
        · exact hsemi _ hmem rfl

/-! ## The search of a stretch -/

/-- The comment that a lexeme is. -/
def commentOf (e : Nat × Lexeme) : Option Comment :=
  match e.2.kind with
  | .lineComment | .blockComment => some ⟨e.1, String.ofList (trimEnd e.2.text)⟩
  | _ => none

/-- A lexeme that may stand between the elements of a literal. -/
def Lexeme.isBetween (l : Lexeme) : Bool :=
  match l.kind with
  | .token .comma | .token .semicolon => true
  | .token _ | .openComment => false
  | _ => true

/-- The characters of a block comment's end directly after those of its beginning. -/
def Lexeme.beginsWithEnd (l : Lexeme) : Bool :=
  l.kind == .blockComment && "/*/".toList.isPrefixOf l.text

/-- A block comment that does not begin with the characters of its end has no slash behind its star. -/
theorem head?_ne_of_beginsWithEnd {body : List Char}
    (h : Lexeme.beginsWithEnd ⟨.blockComment, '/' :: '*' :: body⟩ = false) : body.head? ≠ some '/' := by
  intro hhead
  cases body with
  | nil => cases hhead
  | cons d cs =>
    obtain rfl : d = '/' := by simpa using hhead
    simp [Lexeme.beginsWithEnd] at h

/-- A comment that begins with the characters of its end goes on behind them, and all of it is recorded. -/
theorem commentOf_beginsWithEnd {l : Lexeme} {rest : List Lexeme} (h : l.IsFormed rest)
    (hl : l.beginsWithEnd = true) (p : Nat) :
    ∃ cs, l.text = '/' :: '*' :: '/' :: cs ∧ cs ≠ [] ∧ commentOf (p, l) = some ⟨p, String.ofList l.text⟩ := by
  obtain ⟨kind, text⟩ := l
  simp only [Lexeme.beginsWithEnd, Bool.and_eq_true, beq_iff_eq] at hl
  obtain ⟨rfl, hpre⟩ := hl
  obtain ⟨body, rfl, hbody⟩ := h
  obtain ⟨cs, hcs⟩ := List.isPrefixOf_iff_prefix.mp hpre
  obtain rfl : '/' :: cs = body := by simpa using hcs
  have hne : cs ≠ [] := by
    rintro rfl
    cases hbody
  exact ⟨cs, rfl, hne, by simp [commentOf, trimEnd_blockComment hbody]⟩

/-- What may stand between elements: a line break, a lexeme that holds neither a line break nor a comment, or
a comment. -/
theorem Lexeme.IsFormed.between_cases {l : Lexeme} {rest : List Lexeme} (h : l.IsFormed rest)
    (hl : l.isBetween) :
    l = ⟨.newline, ['\n']⟩ ∨
    ('/' ∉ l.text ∧ '\n' ∉ l.text ∧ l.kind ≠ .newline ∧ l.kind ≠ .lineComment ∧ l.kind ≠ .blockComment) ∨
    (∃ body, l = ⟨.lineComment, '/' :: '/' :: body⟩ ∧ (∀ d ∈ body, d ≠ '\n') ∧
      ∀ d ∈ (lexemesText rest).head?, d = '\n') ∨
    ∃ body, l = ⟨.blockComment, '/' :: '*' :: body⟩ ∧ throughClose body = some body.length := by
  obtain ⟨kind, text⟩ := l
  cases kind with
  | blank =>
    exact .inr (.inl ⟨fun hmem => absurd (h _ hmem) (by decide), fun hmem => absurd (h _ hmem) (by decide),
      by simp⟩)
  | newline => exact .inl (congrArg _ h)
  | byteOrderMark =>
    obtain rfl : text = ['\uFEFF'] := h
    exact .inr (.inl (by decide))
  | openComment => cases hl
  | token kind =>
    cases kind with
    | comma =>
      obtain rfl : text = [','] := h
      exact .inr (.inl (by decide))
    | semicolon =>
      obtain rfl : text = [';'] := h
      exact .inr (.inl (by decide))
    | _ => cases hl
  | lineComment =>
    obtain ⟨body, rfl, hbody, hnext⟩ := h
    exact .inr (.inr (.inl ⟨body, rfl, hbody, hnext⟩))
  | blockComment =>
    obtain ⟨body, rfl, hbody⟩ := h
    exact .inr (.inr (.inr ⟨body, rfl, hbody⟩))

theorem commentOf_of_ne {e : Nat × Lexeme} (hline : e.2.kind ≠ .lineComment) (hblock : e.2.kind ≠ .blockComment) :
    commentOf e = none := by
  unfold commentOf
  split
  · exact absurd ‹_› hline
  · exact absurd ‹_› hblock
  · rfl

theorem commentsFrom_skip (offset n : Nat) (cs : List Char) (h : n ≤ cs.length) :
    commentsFrom offset n cs = commentsFrom (offset + byteLength (cs.take n)) 0 (cs.drop n) := by
  induction cs generalizing offset n with
  | nil => cases n <;> simp [commentsFrom, byteLength]
  | cons c cs ih =>
    cases n with
    | zero => simp [byteLength]
    | succ n =>
      rw [commentsFrom, ih _ n (by simpa using h)]
      simp [byteLength, Nat.add_assoc]

theorem commentsFrom_cons_of_ne {c : Char} (offset : Nat) (cs : List Char) (h : c ≠ '/') :
    commentsFrom offset 0 (c :: cs) = commentsFrom (offset + c.utf8Size) 0 cs := by
  have : commentLength (c :: cs) = none := by
    unfold commentLength
    split
    · rename_i heq
      simp only [List.cons.injEq] at heq
      exact absurd heq.1 h
    · rename_i heq
      simp only [List.cons.injEq] at heq
      exact absurd heq.1 h
    · rfl
  rw [commentsFrom, this]

/-- Characters that begin no comment are passed over. -/
theorem commentsFrom_append_of_not_mem {cs : List Char} (offset : Nat) (r : List Char)
    (h : '/' ∉ cs) :
    commentsFrom offset 0 (cs ++ r) = commentsFrom (offset + byteLength cs) 0 r := by
  induction cs generalizing offset with
  | nil => rfl
  | cons c cs ih =>
    simp only [List.mem_cons, not_or] at h
    rw [List.cons_append, commentsFrom_cons_of_ne _ _ (Ne.symm h.1), ih _ h.2, byteLength,
      Nat.add_assoc]

/-- A comment that the search measures right is found, and the search goes on after it. -/
theorem commentsFrom_append_of_length (cs : List Char) (offset : Nat) (r : List Char)
    (hne : cs ≠ []) (h : commentLength (cs ++ r) = some cs.length) :
    commentsFrom offset 0 (cs ++ r) =
      ⟨offset, String.ofList (trimEnd cs)⟩ :: commentsFrom (offset + byteLength cs) 0 r := by
  obtain ⟨c, s, rfl⟩ := List.exists_cons_of_ne_nil hne
  rw [List.cons_append] at h ⊢
  rw [commentsFrom, h]
  simp only [List.length_cons, List.take_succ_cons, List.take_left', Nat.add_sub_cancel]
  rw [commentsFrom_skip _ _ _ (by simp)]
  simp [byteLength, Nat.add_assoc]

theorem commentLength_lineComment {body r : List Char} (hbody : ∀ d ∈ body, d ≠ '\n')
    (hr : ∀ d ∈ r.head?, d = '\n') :
    commentLength ('/' :: '/' :: body ++ r) = some ('/' :: '/' :: body).length := by
  have hrun : runLength (· != '\n') (body ++ r) = body.length := by
    induction body with
    | nil =>
      cases r with
      | nil => rfl
      | cons d s => simp [runLength_cons, hr d rfl]
    | cons d body ih =>
      have hd : d ≠ '\n' := hbody d (by simp)
      simp only [List.cons_append, runLength_cons, bne_iff_ne, ne_eq, hd, not_false_eq_true,
        ↓reduceIte, List.length_cons]
      rw [ih fun e he => hbody e (by simp [he])]
  simp only [List.cons_append, commentLength, runLength_cons, hrun, List.length_cons]
  rfl

theorem commentLength_blockComment {body : List Char} (r : List Char)
    (hbody : throughClose body = some body.length) (hslash : body.head? ≠ some '/') :
    commentLength ('/' :: '*' :: body ++ r) = some ('/' :: '*' :: body).length := by
  have hclose : throughClose (body ++ r) = some body.length := by
    have h := hbody
    rw [← List.append_nil body] at h
    have := throughClose_append r h (by simp)
    simpa using this
  have hhead : (body ++ r).head? ≠ some '/' := by
    cases body with
    | nil => simp [throughClose] at hbody
    | cons d s => simpa using hslash
  simp only [List.cons_append, commentLength, List.length_cons]
  rw [throughClose_cons, if_neg (fun hc => absurd hc.1 (by decide)), throughClose_cons,
    if_neg (fun hc => hhead hc.2), hclose]
  rfl

/-- The first character behind a text is that of the text that it begins. -/
theorem mem_head?_of_prefix {cs r s : List Char} (hr : r <+: s) {d : Char} (hd : d ∈ (cs ++ r).head?) :
    d ∈ (cs ++ s).head? := by
  obtain ⟨t, rfl⟩ := hr
  cases cs with
  | nil =>
    cases r with
    | nil => cases hd
    | cons e r => exact hd
  | cons e cs => exact hd

/-- The search finds the comments among the lexemes of a stretch and goes on after it. -/
theorem commentsFrom_lexemes {ms after : List Lexeme} {r : List Char} (offset : Nat)
    (h : lexemes (lexemesText (ms ++ after)) = ms ++ after) (hr : r <+: lexemesText after)
    (hbetween : ∀ l ∈ ms, l.isBetween) (hend : ∀ l ∈ ms, l.beginsWithEnd = false) :
    commentsFrom offset 0 (lexemesText ms ++ r) =
      (placed offset ms).filterMap commentOf ++
        commentsFrom (offset + byteLength (lexemesText ms)) 0 r := by
  induction ms generalizing offset with
  | nil => rfl
  | cons l ms ih =>
    have hrest : lexemes (lexemesText (ms ++ after)) = ms ++ after :=
      lexemes_of_append [l] h
    have ih := ih (offset + byteLength l.text) hrest (fun m hm => hbetween m (by simp [hm]))
      fun m hm => hend m (by simp [hm])
    rw [lexemesText_cons, List.append_assoc, byteLength_append, placed_cons, ← Nat.add_assoc]
    -- a lexeme without a slash is passed over, a comment is measured whole
    have hplain : '/' ∉ l.text → commentOf (offset, l) = none →
        commentsFrom offset 0 (l.text ++ (lexemesText ms ++ r)) =
          ((offset, l) :: placed (offset + byteLength l.text) ms).filterMap commentOf ++
            commentsFrom (offset + byteLength l.text + byteLength (lexemesText ms)) 0 r := by
      intro hno hnone
      rw [commentsFrom_append_of_not_mem _ _ hno, ih, List.filterMap_cons_none hnone]
    have hcomment : l.text ≠ [] → commentLength (l.text ++ (lexemesText ms ++ r)) = some l.text.length →
        commentOf (offset, l) = some ⟨offset, String.ofList (trimEnd l.text)⟩ →
        commentsFrom offset 0 (l.text ++ (lexemesText ms ++ r)) =
          ((offset, l) :: placed (offset + byteLength l.text) ms).filterMap commentOf ++
            commentsFrom (offset + byteLength l.text + byteLength (lexemesText ms)) 0 r := by
      intro hne hlen hsome
      rw [commentsFrom_append_of_length _ _ _ hne hlen, ih, List.filterMap_cons_some hsome]
      rfl
    rcases (isFormed_of_lexemes h).between_cases (hbetween l (by simp)) with
      rfl | ⟨hno, -, -, hline, hblock⟩ | ⟨body, rfl, hbody, hnext⟩ | ⟨body, rfl, hbody⟩
    · exact hplain (by decide) rfl
    · exact hplain hno (commentOf_of_ne hline hblock)
    · refine hcomment (by simp) (commentLength_lineComment hbody fun d hd => hnext d ?_) rfl
      show d ∈ (lexemesText (ms ++ after)).head?
      rw [lexemesText_append]
      exact mem_head?_of_prefix hr hd
    · exact hcomment (by simp)
        (commentLength_blockComment _ hbody (head?_ne_of_beginsWithEnd (hend _ (by simp)))) rfl

end LiteralFill
