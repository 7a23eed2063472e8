import LiteralFill.Proofs.Lexing.Token

/-!
A text without lexical problems has sound lexemes only. The one lexeme that is unsound and no problem itself
is a reserved word that breaks off, and the character that breaks it off is a problem.
-/

namespace LiteralFill

/-- The problem that a lexeme is. -/
def lexemeDiagnostics (offset : Nat) (l : Lexeme) : List Diagnostic :=
  let span : Span := ⟨offset, offset + byteLength l.text⟩
  match l.kind with
  | .openComment => [⟨.lexical, span, "unterminated comment"⟩]
  | .token .invalid => [⟨.lexical, span, "invalid token"⟩]
  | .byteOrderMark => if offset = 0 then [] else [⟨.lexical, span, "invalid token"⟩]
  | _ => []

theorem lexicalDiagnostics_cons (offset : Nat) (l : Lexeme) (ls : List Lexeme) :
    lexicalDiagnostics offset (l :: ls) =
      lexemeDiagnostics offset l ++ lexicalDiagnostics (offset + byteLength l.text) ls := by
  obtain ⟨kind, text⟩ := l
  match kind with
  | .blank | .newline | .lineComment | .blockComment | .openComment => rfl
  | .byteOrderMark =>
    simp only [lexicalDiagnostics, lexemeDiagnostics]
    by_cases h : offset = 0 <;> simp [h]
  | .token k => cases k <;> rfl

/-! ## Words that break off -/

theorem le_of_beginsLikeIdent {c : Char} (h : beginsLikeIdent c) : 0x80 ≤ c.toNat := by
  by_cases hlt : c.toNat < 0x80
  · rw [beginsLikeIdent_ascii hlt] at h
    cases h
  · omega

theorem fixedToken_of_beginsLikeIdent {c : Char} (cs : List Char) (h : beginsLikeIdent c) :
    fixedToken (c :: cs) = none := by
  have hascii : ∀ e ∈ fixedTokens, ∀ d ∈ e.1.head?, d.toNat < 0x80 := by
    have hall : fixedTokens.all fun e => e.1.head?.all fun d => d.toNat < 0x80 := by decide
    simpa only [List.all_eq_true, Option.all_eq_true, decide_eq_true_eq, Option.mem_def] using hall
  simp only [fixedToken, Option.map_eq_none_iff, List.find?_eq_none]
  rintro ⟨text, kind⟩ hmem hpre
  obtain ⟨d, s, rfl⟩ := List.exists_cons_of_ne_nil (fixedTokens_nonempty hmem)
  simp only [List.isPrefixOf, Bool.and_eq_true, beq_iff_eq] at hpre
  have hd := hascii _ hmem d rfl
  have := le_of_beginsLikeIdent h
  rw [hpre.1] at hd
  omega

/-- A character that could begin one more letter and is none is no token. -/
theorem lexemeAt_of_beginsLikeIdent {c : Char} (cs : List Char) (h : beginsLikeIdent c)
    (hword : continuesIdent c = false) :
    lexemeAt c cs = (.token .invalid, 1) ∨ lexemeAt c cs = (.byteOrderMark, 1) := by
  have hle := le_of_beginsLikeIdent h
  have hne : ∀ d : Char, d.toNat < 0x80 → c ≠ d := by
    rintro d hd rfl
    omega
  cases lexeme_cases c cs with
  | blank hc =>
    simp only [isLineBlank, Bool.or_eq_true, beq_iff_eq] at hc
    rcases hc with ((rfl | rfl) | rfl) | rfl <;> exact absurd hle (by decide)
  | newline => exact absurd rfl (hne _ (by decide))
  | byteOrderMark => exact .inr rfl
  | word hc => simp [continuesIdent, hc] at hword
  | number hc =>
    have hn : c.val.toNat ≤ 57 := by
      have : 48 ≤ c.val.toNat ∧ c.val.toNat ≤ 57 := by
        simpa [Char.isDigit, UInt32.le_iff_toNat_le] using hc
      exact this.2
    have hle' : 0x80 ≤ c.val.toNat := hle
    omega
  | fraction _ => exact absurd rfl (hne _ (by decide))
  | string => exact absurd rfl (hne _ (by decide))
  | rawString => exact absurd rfl (hne _ (by decide))
  | rune => exact absurd rfl (hne _ (by decide))
  | lineComment _ => exact absurd rfl (hne _ (by decide))
  | blockComment _ => exact absurd rfl (hne _ (by decide))
  | fixed hc =>
    left
    rw [lexemeAt_fixed hc, fixedToken_of_beginsLikeIdent cs h]

theorem continuesIdent_drop (cs : List Char) :
    ∀ d ∈ (cs.drop (runLength continuesIdent cs)).head?, continuesIdent d = false := by
  induction cs with
  | nil => simp
  | cons c cs ih =>
    rw [runLength_cons]
    by_cases hc : continuesIdent c
    · simpa [hc] using ih
    · simp [hc]

/-- A lexeme read as an identifier begins like one. -/
theorem startsIdent_of_lexemeAt {c : Char} {cs : List Char} (hkind : (lexemeAt c cs).1 = .token .ident) :
    startsIdent c := by
  cases lexeme_cases c cs with
  | blank hc => simp [lexemeAt_blank _ hc] at hkind
  | newline => simp [lexemeAt_newline] at hkind
  | byteOrderMark => simp [lexemeAt_byteOrderMark] at hkind
  | word hc => exact hc
  | number hc => simp [lexemeAt_number _ hc] at hkind
  | fraction hc => simp [lexemeAt_fraction _ hc] at hkind
  | string =>
    rw [lexemeAt_string] at hkind
    simp only [quotedToken] at hkind
    split at hkind <;> simp at hkind
  | rawString =>
    rw [lexemeAt_rawString] at hkind
    simp only [quotedToken] at hkind
    split at hkind <;> simp at hkind
  | rune =>
    rw [lexemeAt_rune] at hkind
    simp only [quotedToken] at hkind
    split at hkind
    · simp at hkind
    · split at hkind <;> simp at hkind
  | lineComment hs =>
    subst hs
    simp [lexemeAt_lineComment] at hkind
  | blockComment hs =>
    subst hs
    rw [lexemeAt_blockComment] at hkind
    split at hkind <;> simp at hkind
  | fixed hc =>
    rw [lexemeAt_fixed hc] at hkind
    have hnone : ∀ e ∈ fixedTokens, e.2 ≠ .ident := by decide
    cases hf : fixedToken (c :: cs) with
    | none => simp [hf] at hkind
    | some e =>
      obtain ⟨kind, n⟩ := e
      simp only [hf, LexemeKind.token.injEq] at hkind
      subst hkind
      simp only [fixedToken, Option.map_eq_some_iff, Prod.mk.injEq] at hf
      obtain ⟨e, hfind, he, -⟩ := hf
      exact absurd he (hnone e (List.mem_of_find?_eq_some hfind))

/-- The lexeme after an unsound word is a problem. -/
theorem diagnostics_of_brokenWord {c : Char} {cs : List Char} {offset : Nat} (hoffset : 0 < offset)
    (hkind : (lexemeAt c cs).1 = .token .ident)
    (hword : (Keyword.ofText? ((c :: cs).take (lexemeAt c cs).2)).isSome) :
    lexicalDiagnostics offset (lexemes ((c :: cs).drop (lexemeAt c cs).2)) ≠ [] := by
  have hstart := startsIdent_of_lexemeAt hkind
  rw [lexemeAt_word _ hstart] at hkind hword ⊢
  simp only [Nat.add_comm 1, List.take_succ_cons, List.drop_succ_cons, LexemeKind.token.injEq]
    at hkind hword ⊢
  generalize hn : runLength continuesIdent cs = n at hkind hword ⊢
  obtain ⟨k, hk⟩ := Option.isSome_iff_exists.mp hword
  have hdrop := continuesIdent_drop cs
  rw [hn] at hdrop
  cases hr : cs.drop n with
  | nil => simp [wordKind, hk, hr] at hkind
  | cons d s =>
    have hd : beginsLikeIdent d := by
      cases hb : beginsLikeIdent d with
      | true => rfl
      | false => simp [wordKind, hk, hr, hb] at hkind
    have hcont : continuesIdent d = false := hdrop d (by simp [hr])
    have hne : offset ≠ 0 := by omega
    rw [lexemes_cons, lexicalDiagnostics_cons]
    rcases lexemeAt_of_beginsLikeIdent s hd hcont with h | h <;>
      simp [h, lexemeDiagnostics, hne]

/-- A text without lexical problems has sound lexemes only. -/
theorem isSound_of_diagnostics {offset : Nat} {text : List Char}
    (h : lexicalDiagnostics offset (lexemes text) = []) : ∀ l ∈ lexemes text, l.isSound := by
  match text with
  | [] => simp [lexemes_nil]
  | c :: cs =>
    have hpos := (lexemeAt_length c cs).1
    have hlt : ((c :: cs).drop (lexemeAt c cs).2).length < (c :: cs).length := by
      simp only [List.length_drop, List.length_cons]
      omega
    rw [lexemes_cons] at h ⊢
    rw [lexicalDiagnostics_cons, List.append_eq_nil_iff] at h
    obtain ⟨hhead, hrest⟩ := h
    intro l hl
    rcases List.mem_cons.mp hl with rfl | hl
    · have hne : (c :: cs).take (lexemeAt c cs).2 ≠ [] := by simp; omega
      have hlen := byteLength_pos hne
      cases hk : (lexemeAt c cs).1 with
      | openComment => simp [lexemeDiagnostics, hk] at hhead
      | token kind =>
        cases kind with
        | invalid => simp [lexemeDiagnostics, hk] at hhead
        | ident =>
          cases hw : Keyword.ofText? ((c :: cs).take (lexemeAt c cs).2) with
          | none => simp [Lexeme.isSound, hw]
          | some k =>
            refine absurd hrest (diagnostics_of_brokenWord ?_ hk (by simp [hw]))
            simp only
            omega
        | _ => rfl
      | _ => rfl
    · exact isSound_of_diagnostics hrest l hl
termination_by text.length

end LiteralFill
