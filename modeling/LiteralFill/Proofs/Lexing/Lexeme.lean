import LiteralFill.Proofs.Lexing.Separator

/-!
The lexemes of a text make it up again, can be cut anywhere between two of them, and stay the same before
a separator whatever follows it.
-/

namespace LiteralFill

/-- A lexeme that is no problem: it is closed, and it is not a reserved word taken for an
identifier. -/
def Lexeme.isSound (l : Lexeme) : Bool :=
  match l.kind with
  | .openComment | .token .invalid => false
  | .token .ident => (Keyword.ofText? l.text).isNone
  | _ => true

/-- A text that does not lengthen a lexeme of a kind: blanks take more blanks, and a line comment takes
the rest of its line. -/
def LexemeKind.stopsBefore (k : LexemeKind) (r : List Char) : Prop :=
  match k with
  | .blank => ∀ d ∈ r.head?, isLineBlank d = false
  | .lineComment => ∀ d ∈ r.head?, d = '\n'
  | _ => True

theorem beginsLikeIdent_separated {r : List Char} (hr : Separated r) :
    r.head?.any beginsLikeIdent = false := by
  have hascii : ∀ d ∈ separators, d.toNat < 0x80 := by
    have hall : separators.all fun d => d.toNat < 0x80 := by decide
    simpa only [List.all_eq_true, decide_eq_true_eq] using hall
  cases r with
  | nil => rfl
  | cons d s => simpa using beginsLikeIdent_ascii (hascii d (hr d rfl))

/-! ## The cases of a first character -/

theorem isAlpha_iff {c : Char} :
    c.isAlpha = true ↔ 65 ≤ c.toNat ∧ c.toNat ≤ 90 ∨ 97 ≤ c.toNat ∧ c.toNat ≤ 122 := by
  show (decide (c.val ≥ 'A'.val ∧ c.val ≤ 'Z'.val) || decide (c.val ≥ 'a'.val) && decide (c.val ≤ 'z'.val)) = true ↔ _
  simp only [Bool.or_eq_true, Bool.and_eq_true, decide_eq_true_eq, ge_iff_le, UInt32.le_iff_toNat_le]
  rfl

theorem startsIdent_facts {c : Char} (h : startsIdent c) :
    isLineBlank c = false ∧ c ≠ '\n' ∧ c ≠ '\uFEFF' := by
  refine ⟨?_, ?_, ?_⟩
  · simp only [isLineBlank, Bool.or_eq_false_iff, beq_eq_false_iff_ne]
    refine ⟨⟨⟨?_, ?_⟩, ?_⟩, ?_⟩ <;> rintro rfl <;> revert h <;> decide
  · rintro rfl; revert h; decide
  · rintro rfl; revert h; decide +kernel

theorem isDigit_facts {c : Char} (h : c.isDigit) :
    isLineBlank c = false ∧ c ≠ '\n' ∧ c ≠ '\uFEFF' ∧ startsIdent c = false := by
  have hn : 48 ≤ c.val.toNat ∧ c.val.toNat ≤ 57 := by
    simpa [Char.isDigit, UInt32.le_iff_toNat_le] using h
  refine ⟨?_, ?_, ?_, ?_⟩
  · simp only [isLineBlank, Bool.or_eq_false_iff, beq_eq_false_iff_ne]
    refine ⟨⟨⟨?_, ?_⟩, ?_⟩, ?_⟩ <;> rintro rfl <;> revert h <;> decide
  · rintro rfl; revert h; decide
  · rintro rfl; revert h; decide
  · have hlow : c.toNat < 0x80 := by show c.val.toNat < 0x80; omega
    have halpha : c.isAlpha = false := by
      rw [← Bool.not_eq_true, isAlpha_iff, Char.toNat]
      omega
    have hunder : c ≠ '_' := by rintro rfl; revert h; decide
    simp [startsIdent, isLetter, hlow, halpha, hunder]

theorem lexemeAt_blank {c : Char} (cs : List Char) (h : isLineBlank c) :
    lexemeAt c cs = (.blank, 1 + runLength isLineBlank cs) := by
  simp [lexemeAt, h]

theorem lexemeAt_newline (cs : List Char) : lexemeAt '\n' cs = (.newline, 1) := rfl

theorem lexemeAt_byteOrderMark (cs : List Char) : lexemeAt '\uFEFF' cs = (.byteOrderMark, 1) := rfl

theorem lexemeAt_word {c : Char} (cs : List Char) (h : startsIdent c) :
    lexemeAt c cs =
      (.token (wordKind (c :: cs.take (runLength continuesIdent cs))
        (cs.drop (runLength continuesIdent cs)).head?), 1 + runLength continuesIdent cs) := by
  obtain ⟨h1, h2, h3⟩ := startsIdent_facts h
  simp [lexemeAt, h, h1, h2, h3, Nat.add_comm 1]

theorem lexemeAt_number {c : Char} (cs : List Char) (h : c.isDigit) :
    lexemeAt c cs = (.token .number, numberLength (c :: cs)) := by
  obtain ⟨h1, h2, h3, h4⟩ := isDigit_facts h
  simp [lexemeAt, h, h1, h2, h3, h4]

theorem lexemeAt_fraction (cs : List Char) (h : (cs.head?.map Char.isDigit).getD false) :
    lexemeAt '.' cs = (.token .number, 1 + fractionLength cs) := by
  simp [lexemeAt, h, show isLineBlank '.' = false from rfl, show startsIdent '.' = false from rfl,
    show Char.isDigit '.' = false from rfl]

theorem lexemeAt_string (cs : List Char) :
    lexemeAt '\x22' cs = quotedToken .string (quotedBody '\x22' cs) := rfl

theorem lexemeAt_rawString (cs : List Char) :
    lexemeAt '\x60' cs = quotedToken .rawString (rawBody '\x60' cs) := rfl

theorem lexemeAt_quote (cs : List Char) :
    lexemeAt '\x27' cs =
      match quotedBody '\x27' cs with
      | (0, true) => (.token .invalid, 1)
      | body => quotedToken .rune body := rfl

theorem lexemeAt_rune (cs : List Char) :
    lexemeAt '\x27' cs =
      if quotedBody '\x27' cs = (0, true) then (.token .invalid, 1)
      else quotedToken .rune (quotedBody '\x27' cs) := by
  rw [lexemeAt_quote]
  split
  · rename_i h; simp [h]
  · rename_i h; rw [if_neg h]

theorem lexemeAt_lineComment (cs : List Char) :
    lexemeAt '/' ('/' :: cs) = (.lineComment, 2 + runLength (· != '\n') cs) := by
  show (LexemeKind.lineComment, 1 + runLength (· != '\n') ('/' :: cs)) = _
  rw [runLength_cons]
  simp only [show ('/' != '\n') = true from rfl, ↓reduceIte]
  congr 1
  omega

theorem lexemeAt_blockComment (cs : List Char) :
    lexemeAt '/' ('*' :: cs) =
      match throughClose cs with
      | some length => (.blockComment, 2 + length)
      | none => (.openComment, 2 + cs.length) := by
  show (match throughClose cs with
    | some length => (LexemeKind.blockComment, 2 + length)
    | none => (.openComment, 1 + ('*' :: cs).length)) = _
  cases throughClose cs with
  | none => simp; omega
  | some n => rfl

/-- A character that begins neither blanks nor a word, number, quote or comment. -/
def BeginsFixed (c : Char) (cs : List Char) : Prop :=
  isLineBlank c = false ∧ c ≠ '\n' ∧ c ≠ '\uFEFF' ∧ startsIdent c = false ∧ c.isDigit = false ∧
    (c = '.' → (cs.head?.map Char.isDigit).getD false = false) ∧
    c ≠ '\x22' ∧ c ≠ '\x60' ∧ c ≠ '\x27' ∧
    (c = '/' → cs.head? ≠ some '/' ∧ cs.head? ≠ some '*')

theorem lexemeAt_fixed {c : Char} {cs : List Char} (h : BeginsFixed c cs) :
    lexemeAt c cs =
      match fixedToken (c :: cs) with
      | some (kind, length) => (.token kind, length)
      | none => (.token .invalid, 1) := by
  obtain ⟨h1, h2, h3, h4, h5, h6, h7, h8, h9, h10⟩ := h
  have h6' : (c = '.' && (cs.head?.map Char.isDigit).getD false) = false := by
    by_cases hc : c = '.' <;> simp [hc, h6]
  have h10' : (c = '/' && cs.head? = some '/') = false := by
    by_cases hc : c = '/' <;> simp [hc, h10]
  have h11' : (c = '/' && cs.head? = some '*') = false := by
    by_cases hc : c = '/' <;> simp [hc, h10]
  cases hf : fixedToken (c :: cs) <;>
    simp [lexemeAt, h1, h2, h3, h4, h5, h6', h7, h8, h9, h10', h11', hf]

/-- How a lexeme begins: one case for each form of lexeme. -/
inductive LexemeBegins (cs : List Char) : Char → Prop
  | blank {c : Char} (h : isLineBlank c) : LexemeBegins cs c
  | newline : LexemeBegins cs '\n'
  | byteOrderMark : LexemeBegins cs '\uFEFF'
  | word {c : Char} (h : startsIdent c) : LexemeBegins cs c
  | number {c : Char} (h : c.isDigit) : LexemeBegins cs c
  | fraction (h : (cs.head?.map Char.isDigit).getD false) : LexemeBegins cs '.'
  | string : LexemeBegins cs '\x22'
  | rawString : LexemeBegins cs '\x60'
  | rune : LexemeBegins cs '\x27'
  | lineComment {s : List Char} (h : cs = '/' :: s) : LexemeBegins cs '/'
  | blockComment {s : List Char} (h : cs = '*' :: s) : LexemeBegins cs '/'
  | fixed {c : Char} (h : BeginsFixed c cs) : LexemeBegins cs c

theorem lexeme_cases (c : Char) (cs : List Char) : LexemeBegins cs c := by
  by_cases hblank : isLineBlank c
  · exact .blank hblank
  by_cases hnewline : c = '\n'
  · exact hnewline ▸ .newline
  by_cases hmark : c = '\uFEFF'
  · exact hmark ▸ .byteOrderMark
  by_cases hword : startsIdent c
  · exact .word hword
  by_cases hdigit : c.isDigit
  · exact .number hdigit
  by_cases hfraction : c = '.' ∧ (cs.head?.map Char.isDigit).getD false
  · exact hfraction.1 ▸ .fraction hfraction.2
  by_cases hstring : c = '\x22'
  · exact hstring ▸ .string
  by_cases hraw : c = '\x60'
  · exact hraw ▸ .rawString
  by_cases hrune : c = '\x27'
  · exact hrune ▸ .rune
  by_cases hline : c = '/' ∧ cs.head? = some '/'
  · obtain ⟨s, hs⟩ := List.head?_eq_some_iff.mp hline.2
    exact hline.1 ▸ .lineComment hs
  by_cases hblock : c = '/' ∧ cs.head? = some '*'
  · obtain ⟨s, hs⟩ := List.head?_eq_some_iff.mp hblock.2
    exact hblock.1 ▸ .blockComment hs
  refine .fixed ⟨by simpa using hblank, hnewline, hmark, by simpa using hword, by simpa using hdigit, fun hc => ?_,
    hstring, hraw, hrune, fun hc => ⟨fun hs => hline ⟨hc, hs⟩, fun hs => hblock ⟨hc, hs⟩⟩⟩
  simpa [hc] using hfraction

/-! ## A lexeme before a separator -/

theorem quotedToken_append (body : List Char → Nat × Bool) {kind : TokenKind}
    {q r text : List Char} (hsound : Lexeme.isSound ⟨(quotedToken kind (body (q ++ r))).1, text⟩)
    (hlen : (quotedToken kind (body (q ++ r))).2 ≤ q.length + 1) :
    (body (q ++ r)).2 = true ∧ (body (q ++ r)).1 + 1 ≤ q.length := by
  cases hc : (body (q ++ r)).2 with
  | false => simp [quotedToken, hc, Lexeme.isSound] at hsound
  | true =>
    simp only [quotedToken, hc, ↓reduceIte] at hlen
    exact ⟨rfl, by omega⟩

theorem wordKind_append {word q r r' : List Char} {n : Nat} (hn : n ≤ q.length)
    (hsound : Lexeme.isSound ⟨.token (wordKind word ((q ++ r).drop n).head?), word⟩)
    (hr : Separated r') :
    wordKind word ((q ++ r').drop n).head? = wordKind word ((q ++ r).drop n).head? := by
  rw [List.drop_append_of_le_length hn, List.drop_append_of_le_length hn] at *
  cases hd : q.drop n with
  | cons d s => rfl
  | nil =>
    rw [hd] at hsound
    simp only [List.nil_append] at hsound ⊢
    cases hk : Keyword.ofText? word with
    | none => simp [wordKind, hk]
    | some k =>
      by_cases hb : r.head?.any beginsLikeIdent
      · simp [wordKind, hk, hb, Lexeme.isSound] at hsound
      · simp [wordKind, hk, hb, beginsLikeIdent_separated hr]

theorem BeginsFixed.append {c : Char} {q r r' : List Char} (h : BeginsFixed c (q ++ r))
    (hr : Separated r') : BeginsFixed c (q ++ r') := by
  obtain ⟨h1, h2, h3, h4, h5, h6, h7, h8, h9, h10⟩ := h
  cases q with
  | cons d q => exact ⟨h1, h2, h3, h4, h5, h6, h7, h8, h9, h10⟩
  | nil =>
    have hdigit : (r'.head?.map Char.isDigit).getD false = false := by
      cases r' with
      | nil => rfl
      | cons d s =>
        have hd := (separator_facts (hr d rfl)).2.2.2.1
        simp only [isNumberDigit, Bool.or_eq_false_iff] at hd
        simpa using hd.1
    have hslash : ∀ d, r'.head? = some d → d ≠ '/' ∧ d ≠ '*' := fun d hd =>
      ⟨(separator_facts (hr d hd)).2.2.2.2.2.2.2.1, (separator_facts (hr d hd)).2.2.2.2.2.2.2.2.1⟩
    exact ⟨h1, h2, h3, h4, h5, fun _ => hdigit, h7, h8, h9,
      fun _ => ⟨fun hd => (hslash _ hd).1 rfl, fun hd => (hslash _ hd).2 rfl⟩⟩

/-- What a lexeme is does not depend on the text behind a separator after it. -/
theorem lexemeAt_append {c : Char} {q r r' : List Char}
    (hsound : Lexeme.isSound ⟨(lexemeAt c (q ++ r)).1, (c :: (q ++ r)).take (lexemeAt c (q ++ r)).2⟩)
    (hlen : (lexemeAt c (q ++ r)).2 ≤ q.length + 1) (hr : Separated r')
    (hstop : (lexemeAt c (q ++ r)).2 = q.length + 1 → (lexemeAt c (q ++ r)).1.stopsBefore r') :
    lexemeAt c (q ++ r') = lexemeAt c (q ++ r) := by
  cases lexeme_cases c (q ++ r) with
  | blank h =>
    simp only [lexemeAt_blank _ h] at hlen hstop ⊢
    by_cases hlt : runLength isLineBlank (q ++ r) < q.length
    · rw [runLength_append_of_lt r' hlt]
    · rw [runLength_append (r := r) (by omega) (hstop (by omega))]
  | newline => rw [lexemeAt_newline, lexemeAt_newline]
  | byteOrderMark => rw [lexemeAt_byteOrderMark, lexemeAt_byteOrderMark]
  | word h =>
    simp only [lexemeAt_word _ h] at hsound hlen ⊢
    have hrun := runLength_append (q := q) (r := r) (by omega)
      fun d hd => (separator_facts (hr d hd)).1
    rw [hrun]
    generalize runLength continuesIdent (q ++ r) = n at hsound hlen ⊢
    have hn : n ≤ q.length := by omega
    rw [Nat.add_comm, List.take_succ_cons] at hsound
    rw [List.take_append_of_le_length hn] at hsound ⊢
    rw [List.take_append_of_le_length hn, wordKind_append hn hsound hr]
  | number h =>
    simp only [lexemeAt_number _ h] at hlen ⊢
    have hnum := numberLength_append (p := c :: q) (r := r) (by simp) hlen hr
    simp only [List.cons_append] at hnum
    rw [hnum]
  | fraction h =>
    rw [lexemeAt_fraction _ h] at hlen ⊢
    have hpos := fractionLength_pos h
    have hq : q ≠ [] := by
      rintro rfl
      simp only [List.nil_append, List.length_nil] at hlen hpos
      omega
    obtain ⟨d, q, rfl⟩ := List.exists_cons_of_ne_nil hq
    rw [lexemeAt_fraction (d :: q ++ r') h, fractionLength_append (r := r) (by omega) hr]
  | string =>
    simp only [lexemeAt_string] at hsound hlen ⊢
    obtain ⟨h1, h2⟩ := quotedToken_append (quotedBody '\x22') hsound hlen
    rw [quotedBody_append (by decide) q r r' h1 h2]
  | rawString =>
    simp only [lexemeAt_rawString] at hsound hlen ⊢
    obtain ⟨h1, h2⟩ := quotedToken_append (rawBody '\x60') hsound hlen
    rw [rawBody_append r' h1 h2]
  | rune =>
    simp only [lexemeAt_rune] at hsound hlen ⊢
    by_cases hz : quotedBody '\x27' (q ++ r) = (0, true)
    · simp [hz, Lexeme.isSound] at hsound
    · rw [if_neg hz] at hsound hlen ⊢
      obtain ⟨h1, h2⟩ := quotedToken_append (quotedBody '\x27') hsound hlen
      rw [quotedBody_append (by decide) q r r' h1 h2, if_neg hz]
  | lineComment h =>
    cases q with
    | nil =>
      simp only [List.nil_append] at h
      subst h
      simp [lexemeAt_lineComment] at hlen
      omega
    | cons d q =>
      simp only [List.cons_append, List.cons.injEq] at h
      obtain ⟨rfl, -⟩ := h
      simp only [List.cons_append, lexemeAt_lineComment, List.length_cons] at hlen hstop ⊢
      by_cases hlt : runLength (· != '\n') (q ++ r) < q.length
      · rw [runLength_append_of_lt r' hlt]
      · rw [runLength_append (r := r) (by omega) fun d hd => by simpa using hstop (by omega) d hd]
  | @blockComment s h =>
    cases q with
    | nil =>
      simp only [List.nil_append] at h
      subst h
      rw [List.nil_append, lexemeAt_blockComment] at hlen
      cases ht : throughClose s <;> simp [ht] at hlen <;> omega
    | cons d q =>
      simp only [List.cons_append, List.cons.injEq] at h
      obtain ⟨rfl, -⟩ := h
      simp only [List.cons_append, lexemeAt_blockComment, List.length_cons] at hsound hlen ⊢
      cases ht : throughClose (q ++ r) with
      | none => simp [ht, Lexeme.isSound] at hsound
      | some n =>
        simp only [ht] at hlen
        rw [throughClose_append r' ht (by omega)]
  | fixed h =>
    rw [lexemeAt_fixed h] at hsound hlen ⊢
    rw [lexemeAt_fixed (h.append hr)]
    cases hf : fixedToken (c :: (q ++ r)) with
    | none => simp [hf, Lexeme.isSound] at hsound
    | some e =>
      obtain ⟨kind, n⟩ := e
      simp only [hf] at hlen
      have := fixedToken_append (p := c :: q) (r := r) (by simp) hf hlen hr
      simp only [List.cons_append] at this
      rw [this]

/-! ## The lexemes of a text -/

theorem quotedToken_length (kind : TokenKind) {body : Nat × Bool} {cs : List Char}
    (h : body.1 + (if body.2 then 1 else 0) ≤ cs.length) :
    0 < (quotedToken kind body).2 ∧ (quotedToken kind body).2 ≤ cs.length + 1 := by
  cases hb : body.2 <;> simp only [quotedToken, hb, ↓reduceIte, Bool.false_eq_true] at h ⊢ <;> omega

/-- A lexeme has at least one character, and no more than there are. -/
theorem lexemeAt_length (c : Char) (cs : List Char) :
    0 < (lexemeAt c cs).2 ∧ (lexemeAt c cs).2 ≤ cs.length + 1 := by
  cases lexeme_cases c cs with
  | blank h =>
    have := runLength_le isLineBlank cs
    rw [lexemeAt_blank _ h]
    omega
  | newline => simp [lexemeAt_newline]
  | byteOrderMark => simp [lexemeAt_byteOrderMark]
  | word h =>
    have := runLength_le continuesIdent cs
    rw [lexemeAt_word _ h]
    simp only
    omega
  | number h =>
    have h1 := plainNumberLength_le (c :: cs)
    have h2 := signedNumberLength_le (c :: cs)
    have h3 : 0 < plainNumberLength (c :: cs) := by
      have hw : isNumberWord c = true := by simp [isNumberWord, Char.isAlphanum, h]
      rw [plainNumberLength_eq, runLength_cons, hw]
      simp only [↓reduceIte]
      omega
    rw [lexemeAt_number _ h]
    simp only [numberLength, List.length_cons] at *
    omega
  | fraction h =>
    have := fractionLength_le cs
    rw [lexemeAt_fraction _ h]
    simp only
    omega
  | string =>
    rw [lexemeAt_string]
    exact quotedToken_length _ (quotedBody_le _ cs)
  | rawString =>
    rw [lexemeAt_rawString]
    refine quotedToken_length _ ?_
    have := runLength_le (· != '\x60') cs
    by_cases hlt : runLength (· != '\x60') cs < cs.length <;> simp [rawBody, hlt] <;> omega
  | rune =>
    rw [lexemeAt_rune]
    split
    · simp
    · exact quotedToken_length _ (quotedBody_le _ cs)
  | @lineComment s hs =>
    subst hs
    have := runLength_le (· != '\n') s
    rw [lexemeAt_lineComment]
    simp only [List.length_cons]
    omega
  | @blockComment s hs =>
    subst hs
    rw [lexemeAt_blockComment]
    cases ht : throughClose s with
    | none => simp; omega
    | some n =>
      have := throughClose_le ht
      simp only [List.length_cons]
      omega
  | fixed h =>
    rw [lexemeAt_fixed h]
    cases hf : fixedToken (c :: cs) with
    | none => simp
    | some e =>
      obtain ⟨kind, n⟩ := e
      simp only [fixedToken, Option.map_eq_some_iff] at hf
      obtain ⟨⟨text, k⟩, hfind, he⟩ := hf
      simp only [Prod.mk.injEq] at he
      obtain ⟨-, rfl⟩ := he
      have hpre := List.find?_some hfind
      have hmem := List.mem_of_find?_eq_some hfind
      have hle := (List.isPrefixOf_iff_prefix.mp hpre).length_le
      exact ⟨List.length_pos_iff.mpr (fixedTokens_nonempty hmem), by simpa using hle⟩

theorem lexemesFrom_eq (n : Nat) (cs : List Char) : lexemesFrom n cs = lexemes (cs.drop n) := by
  induction cs generalizing n with
  | nil => cases n <;> rfl
  | cons c cs ih =>
    cases n with
    | zero => rfl
    | succ n => exact ih n

theorem lexemes_nil : lexemes [] = [] := rfl

theorem lexemes_cons (c : Char) (cs : List Char) :
    lexemes (c :: cs) =
      ⟨(lexemeAt c cs).1, (c :: cs).take (lexemeAt c cs).2⟩ ::
        lexemes ((c :: cs).drop (lexemeAt c cs).2) := by
  have hpos := (lexemeAt_length c cs).1
  obtain ⟨m, hm⟩ : ∃ m, (lexemeAt c cs).2 = m + 1 := ⟨(lexemeAt c cs).2 - 1, by omega⟩
  simp only [lexemes, lexemesFrom, hm, List.drop_succ_cons, Nat.add_sub_cancel]
  rw [lexemesFrom_eq]
  rfl

/-- The text that lexemes make up. -/
def lexemesText (ls : List Lexeme) : List Char := ls.flatMap (·.text)

@[simp] theorem lexemesText_nil : lexemesText [] = [] := rfl

@[simp] theorem lexemesText_cons (l : Lexeme) (ls : List Lexeme) :
    lexemesText (l :: ls) = l.text ++ lexemesText ls := rfl

@[simp] theorem lexemesText_append (ls ms : List Lexeme) :
    lexemesText (ls ++ ms) = lexemesText ls ++ lexemesText ms := List.flatMap_append

/-- Nothing is lost between lexemes. -/
theorem lexemesText_lexemes (text : List Char) : lexemesText (lexemes text) = text := by
  match text with
  | [] => rfl
  | c :: cs =>
    have hpos := (lexemeAt_length c cs).1
    have hlt : ((c :: cs).drop (lexemeAt c cs).2).length < (c :: cs).length := by
      simp only [List.length_drop, List.length_cons]
      omega
    rw [lexemes_cons, lexemesText_cons, lexemesText_lexemes ((c :: cs).drop (lexemeAt c cs).2)]
    exact List.take_append_drop _ _
termination_by text.length

theorem byteLength_pos {cs : List Char} (h : cs ≠ []) : 0 < byteLength cs := by
  cases cs with
  | nil => exact absurd rfl h
  | cons c cs =>
    have := Char.utf8Size_pos c
    simp only [byteLength]
    omega

theorem text_ne_nil_of_mem {text : List Char} {l : Lexeme} (h : l ∈ lexemes text) : l.text ≠ [] := by
  match text with
  | [] => simp [lexemes_nil] at h
  | c :: cs =>
    have hpos := (lexemeAt_length c cs).1
    have hlt : ((c :: cs).drop (lexemeAt c cs).2).length < (c :: cs).length := by
      simp only [List.length_drop, List.length_cons]
      omega
    rw [lexemes_cons, List.mem_cons] at h
    rcases h with rfl | h
    · simp; omega
    · exact text_ne_nil_of_mem h
termination_by text.length

/-- A text can be cut before each of its lexemes. -/
theorem lexemes_of_append {text : List Char} (ls : List Lexeme) {ms : List Lexeme}
    (h : lexemes text = ls ++ ms) :
    lexemes (lexemesText ms) = ms := by
  induction ls generalizing text with
  | nil =>
    have := lexemesText_lexemes text
    rw [h, List.nil_append] at this
    rw [this, h, List.nil_append]
  | cons l ls ih =>
    cases text with
    | nil => simp [lexemes_nil] at h
    | cons c cs =>
      rw [lexemes_cons, List.cons_append] at h
      exact ih (List.cons.inj h).2

/-- The text of a list of lexemes that holds none without characters is empty only if the list is. -/
theorem lexemesText_eq_nil {text : List Char} {ls : List Lexeme} (h : ∀ l ∈ ls, l ∈ lexemes text)
    (hnil : lexemesText ls = []) : ls = [] := by
  cases ls with
  | nil => rfl
  | cons l ls =>
    have hne := text_ne_nil_of_mem (h l (by simp))
    simp [hne] at hnil

/-- The first of the lexemes that make up the beginning of a text, and what it leaves of that beginning. -/
theorem lexemes_cons_cut {c : Char} {q u : List Char} {l : Lexeme} {ls ms : List Lexeme}
    (h : lexemes (c :: (q ++ u)) = l :: (ls ++ ms)) (htext : l.text ++ lexemesText ls = c :: q) :
    ∃ n, lexemeAt c (q ++ u) = (l.kind, n) ∧ n ≤ q.length + 1 ∧ l.text = (c :: q).take n ∧
      lexemesText ls = (c :: q).drop n ∧ lexemes ((c :: q).drop n ++ u) = ls ++ ms := by
  rw [lexemes_cons, List.cons.injEq] at h
  obtain ⟨rfl, hrest⟩ := h
  generalize hn : (lexemeAt c (q ++ u)).2 = n at htext hrest
  have hlen : n ≤ q.length + 1 := by
    have h1 := (lexemeAt_length c (q ++ u)).2
    have h2 := congrArg List.length htext
    simp only [List.length_append, List.length_take, List.length_cons] at h1 h2
    omega
  have htake : (c :: (q ++ u)).take n = (c :: q).take n := by
    rw [← List.cons_append, List.take_append_of_le_length (by simpa using hlen)]
  refine ⟨n, Prod.ext rfl hn, hlen, htake, ?_, ?_⟩
  · simp only [htake] at htext
    exact List.append_cancel_left (htext.trans (List.take_append_drop n (c :: q)).symm)
  · rw [← List.drop_append_of_le_length (by simpa using hlen)]
    exact hrest

/-- Lexemes of a text stay the same when what follows them later on changes and a separator stands there. -/
theorem lexemes_append_of_cut {p t r r' : List Char} {ls ms : List Lexeme} (h : lexemes (p ++ (t ++ r)) = ls ++ ms)
    (htext : lexemesText ls = p) (hsound : ∀ l ∈ ls, l.isSound) (hr : Separated r')
    (hstop : t = [] → ∀ l ∈ ls.getLast?, l.kind.stopsBefore r') :
    lexemes (p ++ (t ++ r')) = ls ++ lexemes (t ++ r') := by
  induction ls generalizing p with
  | nil =>
    simp only [lexemesText_nil] at htext
    subst htext
    rfl
  | cons l ls ih =>
    have hmem : ∀ m ∈ l :: ls, m ∈ lexemes (p ++ (t ++ r)) := by
      intro m hm
      rw [h]
      exact List.mem_append_left _ hm
    obtain ⟨c, q, rfl⟩ : ∃ c q, p = c :: q := by
      refine List.exists_cons_of_ne_nil ?_
      rw [← htext]
      simp [text_ne_nil_of_mem (hmem l (by simp))]
    obtain ⟨n, hat, hlen, hl, hcut, hrest⟩ := lexemes_cons_cut h htext
    have hat' : lexemeAt c (q ++ (t ++ r')) = (l.kind, n) := by
      rw [← List.append_assoc] at hat ⊢
      rw [← hat]
      refine lexemeAt_append ?_ ?_ hr fun hall => ?_
      · rw [hat, List.append_assoc, ← List.cons_append, List.take_append_of_le_length (by simpa using hlen), ← hl]
        exact hsound l (by simp)
      · rw [hat, List.length_append]
        omega
      · -- the lexeme is the last one, and nothing stands between it and what changes
        rw [hat, List.length_append] at hall
        rw [hat]
        change n = q.length + t.length + 1 at hall
        have hnone : t = [] := List.eq_nil_of_length_eq_zero (by omega)
        have hnil : ls = [] := by
          refine lexemesText_eq_nil (fun m hm => hmem m (by simp [hm])) ?_
          rw [hcut]
          exact List.drop_eq_nil_of_le (by rw [List.length_cons]; omega)
        exact hstop hnone l (by simp [hnil])
    rw [List.cons_append, lexemes_cons, hat', ← List.cons_append, List.take_append_of_le_length (by simpa using hlen),
      List.drop_append_of_le_length (by simpa using hlen), ih hrest hcut (fun m hm => hsound m (by simp [hm])) ?_, ← hl]
    · rfl
    · intro hnone m hm
      refine hstop hnone m ?_
      cases ls with
      | nil => simp at hm
      | cons l' ls => simpa [List.getLast?_cons_cons] using hm

/-- The lexemes of a text stay the same when another text follows it, if the one that follows now begins
with a separator that does not lengthen the last of them. -/
theorem lexemes_append_of_append {p r r' : List Char} {ls : List Lexeme}
    (h : lexemes (p ++ r) = ls ++ lexemes r) (hsound : ∀ l ∈ ls, l.isSound) (hr : Separated r')
    (hstop : ∀ l ∈ ls.getLast?, l.kind.stopsBefore r') : lexemes (p ++ r') = ls ++ lexemes r' := by
  have htext : lexemesText ls = p := by
    have := congrArg lexemesText h
    simpa [lexemesText_lexemes] using this.symm
  exact lexemes_append_of_cut (t := []) h htext hsound hr fun _ => hstop

end LiteralFill
