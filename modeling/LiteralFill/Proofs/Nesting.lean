import LiteralFill.Proofs.Elements
import LiteralFill.Proofs.Outline
import Mathlib.Data.List.Pairwise

/-!
How the literals of a file lie in one another. The pass records a literal at its type and goes on behind its
opening brace; a type that begins within braces also ends there, and so do the braces behind it. Two literals
are therefore apart, or one of them stands between the braces of the other, whatever brackets of the text stay
open. The literals around a position form a chain.
-/

namespace LiteralFill

/-! ## How brackets are written -/

/-- A lexeme that is a bracket is one of the fixed tokens. -/
theorem mem_fixedTokens_of_bracket {text : List Char} {l : Lexeme} {rest : List Lexeme}
    (h : lexemes text = l :: rest) {k : TokenKind} (hl : l.kind = .token k) (hk : k.isBracket) :
    (l.text, k) ∈ fixedTokens := by
  have hno : ∀ kind : TokenKind, kind.isBracket = false → LexemeKind.token kind ≠ .token k := by
    rintro kind hkind ⟨⟩
    rw [hk] at hkind
    cases hkind
  have hquoted : ∀ (kind : TokenKind) (body : Nat × Bool), kind.isBracket = false →
      (quotedToken kind body).1 ≠ .token k := by
    intro kind body hkind
    unfold quotedToken
    split
    · exact hno _ hkind
    · exact hno _ rfl
  cases text with
  | nil => simp [lexemes_nil] at h
  | cons c cs =>
    rw [lexemes_cons, List.cons.injEq] at h
    obtain ⟨rfl, -⟩ := h
    simp only at hl
    cases lexeme_cases c cs with
    | blank hc => simp [lexemeAt_blank _ hc] at hl
    | newline => simp [lexemeAt_newline] at hl
    | byteOrderMark => simp [lexemeAt_byteOrderMark] at hl
    | word hc =>
      rw [lexemeAt_word _ hc] at hl
      refine absurd hl (hno _ ?_)
      unfold wordKind
      split
      · split <;> rfl
      · rfl
    | number hc =>
      rw [lexemeAt_number _ hc] at hl
      exact absurd hl (hno _ rfl)
    | fraction hc =>
      rw [lexemeAt_fraction _ hc] at hl
      exact absurd hl (hno _ rfl)
    | string =>
      rw [lexemeAt_string] at hl
      exact absurd hl (hquoted _ _ rfl)
    | rawString =>
      rw [lexemeAt_rawString] at hl
      exact absurd hl (hquoted _ _ rfl)
    | rune =>
      rw [lexemeAt_rune] at hl
      split at hl
      · exact absurd hl (hno _ rfl)
      · exact absurd hl (hquoted _ _ rfl)
    | lineComment hs =>
      subst hs
      simp [lexemeAt_lineComment] at hl
    | blockComment hs =>
      subst hs
      rw [lexemeAt_blockComment] at hl
      split at hl <;> simp at hl
    | fixed hc =>
      rw [lexemeAt_fixed hc] at hl ⊢
      cases hf : fixedToken (c :: cs) with
      | none =>
        rw [hf] at hl
        exact absurd hl (hno _ rfl)
      | some e =>
        rw [hf] at hl
        simp only [LexemeKind.token.injEq] at hl
        subst hl
        exact fixedToken_text hf

theorem byteLength_bracket {e : List Char × TokenKind} (he : e ∈ fixedTokens) (hk : e.2.isBracket) :
    byteLength e.1 = 1 := by
  have hall : ∀ e ∈ fixedTokens, e.2.isBracket = true → byteLength e.1 = 1 := by decide
  exact hall e he hk

namespace Lexed

variable {s : Lexed} (hs : s.IsRead)
include hs

/-- The lexeme of a bracket, with the lexemes before and behind it. -/
theorem IsRead.lexeme_bracket {i : Nat} {k : TokenKind} (h : s.kindAt i = some k) (hk : k.isBracket) :
    ∃ before cs after, lexemes s.text = before ++ ⟨.token k, cs⟩ :: after ∧ (cs, k) ∈ fixedTokens ∧
      s.startAt i = byteLength (lexemesText before) ∧ s.stopAt i = s.startAt i + byteLength cs := by
  obtain ⟨t, ht⟩ := exists_token (kindAt_lt h)
  have hkind := kind_of_token ht h
  subst hkind
  have hsemicolon : t.kind ≠ .semicolon := fun hc => by simp [hc, TokenKind.isBracket] at hk
  obtain ⟨kind, hmem, hcase⟩ := lexeme_of_token (hs.mem ht) (hs.text_ne_nil ht hsemicolon)
  have hlexeme : kind = .token t.kind := by
    rcases hcase with hc | ⟨-, hc⟩
    · exact hc
    · simp [hc, TokenKind.isBracket] at hk
  subst hlexeme
  obtain ⟨before, after, hsplit, hstart⟩ := mem_placed hmem
  refine ⟨before, t.text, after, hsplit, mem_fixedTokens_of_bracket (lexemes_of_append before hsplit) rfl hk,
    ?_, by simp [startAt, stopAt, ht, Token.stop]⟩
  simpa [startAt, ht] using hstart

/-- A bracket is one character. -/
theorem IsRead.stopAt_bracket {i : Nat} {k : TokenKind} (h : s.kindAt i = some k) (hk : k.isBracket) :
    s.stopAt i = s.startAt i + 1 := by
  obtain ⟨before, cs, after, -, htext, -, hstop⟩ := hs.lexeme_bracket h hk
  rw [hstop, byteLength_bracket htext hk]

/-- The character at the place of a bracket is that bracket. -/
theorem IsRead.slice_bracket {i : Nat} {k : TokenKind} (h : s.kindAt i = some k) (hk : k.isBracket) :
    (slice s.text ⟨s.startAt i, s.stopAt i⟩, k) ∈ fixedTokens := by
  obtain ⟨before, cs, after, hsplit, htext, hstart, hstop⟩ := hs.lexeme_bracket h hk
  have hslice : slice s.text ⟨byteLength (lexemesText before),
      byteLength (lexemesText (before ++ [⟨.token k, cs⟩]))⟩ = lexemesText [⟨.token k, cs⟩] :=
    slice_eq after (by rw [hsplit, List.append_assoc]; rfl)
  rw [lexemesText_append, byteLength_append, ← hstart] at hslice
  simp only [lexemesText_cons, lexemesText_nil, List.append_nil] at hslice
  rw [hstop, hslice]
  exact htext

/-- What stands before a token that is written starts before it. -/
theorem IsRead.start_lt_start {i j : Nat} {k : TokenKind} (hij : i < j) (hj : j < s.size)
    (hi : s.kindAt i = some k) (hk : k ≠ .semicolon) : s.startAt i < s.startAt j := by
  obtain ⟨t, ht⟩ := exists_token (kindAt_lt hi)
  have hkind := kind_of_token ht hi
  have hpos := byteLength_pos (hs.text_ne_nil ht (hkind ▸ hk))
  have hle := hs.stop_le_start hij hj
  simp only [startAt, stopAt, ht, Option.map_some, Option.getD_some, Token.stop] at hle ⊢
  omega

/-- Of the tokens that are written no two start at one position. -/
theorem IsRead.eq_of_startAt_eq {i j : Nat} {k k' : TokenKind} (hi : s.kindAt i = some k) (hk : k ≠ .semicolon)
    (hj : s.kindAt j = some k') (hk' : k' ≠ .semicolon) (h : s.startAt i = s.startAt j) : i = j := by
  rcases Nat.lt_trichotomy i j with hlt | heq | hgt
  · exact absurd h (Nat.ne_of_lt (hs.start_lt_start hlt (kindAt_lt hj) hi hk))
  · exact heq
  · exact absurd h (Nat.ne_of_gt (hs.start_lt_start hgt (kindAt_lt hi) hj hk'))

end Lexed

/-! ## Two literals -/

namespace CompositeLiteral

/-- No position belongs to both literals. -/
def Apart (l m : CompositeLiteral) : Prop := l.span.stop ≤ m.span.start ∨ m.span.stop ≤ l.span.start

/-- The second literal stands between the braces of the first. -/
def Encloses (l m : CompositeLiteral) : Prop := l.lbrace < m.span.start ∧ m.span.stop ≤ l.rbrace

/-- What stands between the braces of a literal is shorter. -/
theorem Encloses.length_lt {l m : CompositeLiteral} (h : l.Encloses m)
    (hl : l.span.start < l.lbrace ∧ l.lbrace < l.rbrace) (hm : m.span.start < m.lbrace ∧ m.lbrace < m.rbrace) :
    m.span.length < l.span.length := by
  obtain ⟨hstart, hstop⟩ := h
  simp only [Span.length, span] at *
  omega

end CompositeLiteral

/-- The tokens of a literal: its type begins at one, and its braces are two others. -/
structure CompositeLiteral.StandsAt (s : Lexed) (l : CompositeLiteral) (first lbrace rbrace : Nat) :
    Prop where
  begins : ∃ k, s.kindAt first = some k ∧ Outline.beginsLiteral k
  type : Items s first lbrace
  opens : s.kindAt lbrace = some (.opener .brace)
  closes : s.closerOf lbrace = some rbrace
  start_eq : l.typeSpan.start = s.startAt first
  stop_eq : l.typeSpan.stop = s.stopBefore lbrace
  lbrace_eq : l.lbrace = s.startAt lbrace
  rbrace_eq : l.rbrace = s.startAt rbrace

namespace CompositeLiteral.StandsAt

variable {s : Lexed} {l m : CompositeLiteral} {i lb rb i' lb' rb' : Nat}

theorem first_lt (hm : s.IsMatched) (h : StandsAt s l i lb rb) : i < lb := by
  have hle := h.type.le hm
  obtain ⟨k, hk, hb⟩ := h.begins
  rcases Nat.lt_or_eq_of_le hle with hlt | rfl
  · exact hlt
  · rw [h.opens] at hk
    cases hk
    cases hb

theorem closer (hm : s.IsMatched) (h : StandsAt s l i lb rb) :
    lb < rb ∧ rb < s.size ∧ s.kindAt rb = some (.closer .brace) := by
  obtain ⟨hlt, hsize, b, hb, hclose⟩ := hm.closer_spec h.closes
  rw [h.opens] at hb
  cases hb
  exact ⟨hlt, hsize, hclose⟩

/-- The type begins before the braces. -/
theorem start_lt_lbrace (hs : s.IsRead) (h : StandsAt s l i lb rb) :
    l.span.start < l.lbrace ∧ l.lbrace < l.rbrace := by
  obtain ⟨k, hk, hb⟩ := h.begins
  obtain ⟨hlt, hsize, -⟩ := h.closer hs.matched
  have hne : k ≠ .semicolon := by
    rintro rfl
    cases hb
  have h1 := hs.start_lt_start (h.first_lt hs.matched) (by omega) hk hne
  have h2 := hs.start_lt_start hlt hsize h.opens (by simp)
  rw [← h.start_eq, ← h.lbrace_eq] at h1
  rw [← h.lbrace_eq, ← h.rbrace_eq] at h2
  exact ⟨h1, h2⟩

/-- A literal whose type begins behind the opening brace of another one is apart from it, or stands between
its braces. -/
theorem apart_or_encloses (hs : s.IsRead) (h : StandsAt s l i lb rb) (h' : StandsAt s m i' lb' rb')
    (hlt : lb < i') : l.lbrace < m.lbrace ∧ (l.span.stop ≤ m.span.start ∨ l.Encloses m) := by
  obtain ⟨hrb, hsize, hclose⟩ := h.closer hs.matched
  obtain ⟨hrb', hsize', hclose'⟩ := h'.closer hs.matched
  have hfirst := h'.first_lt hs.matched
  have hbraces : l.lbrace < m.lbrace := by
    rw [h.lbrace_eq, h'.lbrace_eq]
    exact hs.start_lt_start (by omega) (by omega) h.opens (by simp)
  have hstop : ∀ {n : CompositeLiteral} {c : Nat}, s.kindAt c = some (.closer .brace) →
      n.rbrace = s.startAt c → n.span.stop = s.stopAt c := by
    intro n c hc hn
    rw [hs.stopAt_bracket hc rfl, ← hn]
    rfl
  refine ⟨hbraces, ?_⟩
  have hne : i' ≠ rb := by
    rintro rfl
    obtain ⟨k, hk, hb⟩ := h'.begins
    rw [hclose] at hk
    cases hk
    cases hb
  rcases Nat.lt_or_gt_of_ne hne with hin | hout
  · -- the type begins within the braces, so it ends there, and the braces after it close there
    have hle := h'.type.le_closer hs.matched h.closes hlt (Nat.le_of_lt hin)
    have hne' : lb' ≠ rb := by
      rintro rfl
      have hopen := h'.opens
      rw [hclose] at hopen
      cases hopen
    obtain ⟨d, hd, hd'⟩ := hs.matched.inner h.closes (show lb < lb' by omega) (by omega) h'.opens
    rw [h'.closes] at hd'
    cases hd'
    refine .inr ⟨?_, ?_⟩
    · show l.lbrace < m.typeSpan.start
      rw [h.lbrace_eq, h'.start_eq]
      exact hs.start_lt_start hlt (by omega) h.opens (by simp)
    · rw [hstop hclose' h'.rbrace_eq, h.rbrace_eq]
      exact hs.stop_le_start hd hsize
  · refine .inl ?_
    show l.span.stop ≤ m.typeSpan.start
    rw [hstop hclose h.rbrace_eq, h'.start_eq]
    exact hs.stop_le_start hout (by omega)

end CompositeLiteral.StandsAt

/-! ## The literals of a pass -/

namespace Outline

open CompositeLiteral

/-- The literals recorded so far begin before the place of the pass, and lie in one another. -/
structure Nested (s : Lexed) (o : Outline) : Prop where
  stands : ∀ l ∈ o.literals, ∃ i lb rb, StandsAt s l i lb rb ∧ lb < o.index
  ordered : o.literals.Pairwise fun l m =>
    l.lbrace < m.lbrace ∧ (l.span.stop ≤ m.span.start ∨ l.Encloses m)

variable {s : Lexed} {o : Outline} {t : Token}

/-- Where a literal stands that the pass records. -/
theorem recorded_standsAt (hm : s.IsMatched) (ht : s.tokens[o.index]? = some t) {l : CompositeLiteral}
    (hl : l ∈ recorded s t o) : ∃ lb rb, StandsAt s l o.index lb rb ∧ lb < (step s t o).index := by
  unfold recorded at hl
  split at hl
  · next hb =>
    obtain ⟨⟨l', lb, rb, ds⟩, he, rfl⟩ := Option.map_eq_some_iff.mp (Option.mem_toList.mp hl)
    obtain ⟨type, hread, hopen, -, hclose, rfl⟩ := literalHere_eq_some.mp he
    have hreads := readType_reads hm ⟨o.index, o.diagnostics⟩
    rw [hread] at hreads
    refine ⟨lb, rb, ⟨⟨t.kind, by simp [Lexed.kindAt, ht], hb⟩, (hreads.2 rfl).2.1, hopen, hclose, rfl, rfl,
      rfl, rfl⟩, ?_⟩
    rw [step_eq, if_pos hb]
    unfold stepLiteral
    rw [he]
    exact Nat.lt_succ_self lb
  · cases hl

theorem Nested.step (hs : s.IsRead) (h : Nested s o) (ht : s.tokens[o.index]? = some t) :
    Nested s (Outline.step s t o) := by
  have hlt := step_lt hs.matched t o
  have hlength : (recorded s t o).length ≤ 1 := by
    unfold recorded
    split
    · cases literalHere s o with
      | none => simp
      | some e => simp
    · simp
  refine ⟨?_, ?_⟩
  · intro l hl
    rw [step_literals_eq, List.mem_append] at hl
    rcases hl with hl | hl
    · obtain ⟨i, lb, rb, hstands, hbefore⟩ := h.stands l hl
      exact ⟨i, lb, rb, hstands, by omega⟩
    · obtain ⟨lb, rb, hstands, hbefore⟩ := recorded_standsAt hs.matched ht hl
      exact ⟨o.index, lb, rb, hstands, hbefore⟩
  · rw [step_literals_eq, List.pairwise_append]
    refine ⟨h.ordered, ?_, ?_⟩
    · match recorded s t o, hlength with
      | [], _ => exact .nil
      | [l], _ => exact List.pairwise_singleton _ _
    · intro l hl m hm
      obtain ⟨i, lb, rb, hstands, hbefore⟩ := h.stands l hl
      obtain ⟨lb', rb', hstands', -⟩ := recorded_standsAt hs.matched ht hm
      exact hstands.apart_or_encloses hs hstands' hbefore

theorem Nested.run (hs : s.IsRead) (h : Nested s o) (fuel : Nat) : Nested s (Outline.run s fuel o) := by
  induction fuel generalizing o with
  | zero => exact h
  | succ fuel ih =>
    rw [Outline.run]
    cases ht : s.tokens[o.index]? with
    | none => exact h
    | some t => exact ih (h.step hs ht)

theorem nested_start (s : Lexed) (ds : List Diagnostic) : Nested s (start ds) :=
  ⟨by simp [start], .nil⟩

end Outline

/-! ## The literals of a file -/

namespace SourceFile

/-- The literals of a file lie in one another. -/
theorem nested_parse (text : List Char) :
    Outline.Nested (Lexed.ofText text).1
      (Outline.run (Lexed.ofText text).1 (Lexed.ofText text).1.size
        (Outline.start (Lexed.ofText text).2)) :=
  (Outline.nested_start _ _).run (Lexed.isRead_ofText text) _

/-- Where a literal of a file stands. -/
theorem exists_standsAt {text : List Char} {l : CompositeLiteral} (hl : l ∈ (parse text).literals) :
    ∃ i lb rb, l.StandsAt (Lexed.ofText text).1 i lb rb := by
  obtain ⟨i, lb, rb, h, -⟩ := (nested_parse text).stands l hl
  exact ⟨i, lb, rb, h⟩

theorem start_lt_lbrace {text : List Char} {l : CompositeLiteral} (hl : l ∈ (parse text).literals) :
    l.span.start < l.lbrace ∧ l.lbrace < l.rbrace := by
  obtain ⟨i, lb, rb, h⟩ := exists_standsAt hl
  exact h.start_lt_lbrace (Lexed.isRead_ofText text)

/-- The literals around a position are those whose span holds it. -/
theorem literalsAt_perm (text : List Char) (offset : Nat) :
    ((parse text).literalsAt offset).Perm
      ((parse text).literals.filter fun l => l.span.contains offset) := by
  refine (List.mergeSort_perm _ _).trans ?_
  have hsame : ∀ l ∈ (parse text).literals,
      (l.span.contains offset || l.rbrace == offset) = l.span.contains offset := by
    intro l hl
    obtain ⟨h1, h2⟩ := start_lt_lbrace hl
    cases he : l.rbrace == offset with
    | false => rw [Bool.or_false]
    | true =>
      rw [Bool.or_true]
      have hoffset : l.rbrace = offset := by simpa using he
      have hcontains : l.span.contains offset = true := by
        simp only [Span.contains, Bool.and_eq_true, decide_eq_true_eq]
        simp only [CompositeLiteral.span] at h1 ⊢
        omega
      rw [hcontains]
  rw [List.filter_congr hsame]

/-- The literals around a position form a chain, each of them between the braces of the next. -/
theorem literalsAt_chain (text : List Char) (offset : Nat) :
    ((parse text).literalsAt offset).Pairwise fun l m => m.Encloses l := by
  have hperm := literalsAt_perm text offset
  have hmem : ∀ l ∈ (parse text).literalsAt offset,
      l ∈ (parse text).literals ∧ l.span.contains offset := fun l hl =>
    List.mem_filter.mp (hperm.mem_iff.mp hl)
  -- two literals that hold one position are not apart
  have hnested : ((parse text).literals.filter fun l => l.span.contains offset).Pairwise
      fun l m => l.Encloses m ∨ m.Encloses l := by
    refine ((nested_parse text).ordered.filter _).imp_of_mem ?_
    rintro l m hl hm ⟨-, hapart | hin⟩
    · have hl := (List.mem_filter.mp hl).2
      have hm := (List.mem_filter.mp hm).2
      simp only [Span.contains, Bool.and_eq_true, decide_eq_true_eq] at hl hm
      omega
    · exact .inl hin
  have hchain : ((parse text).literalsAt offset).Pairwise fun l m => l.Encloses m ∨ m.Encloses l :=
    (hperm.pairwise_iff fun h => h.symm).mpr hnested
  have hsorted : ((parse text).literalsAt offset).Pairwise fun l m => l.span.length ≤ m.span.length := by
    refine (List.pairwise_mergeSort (fun a b c => ?_) (fun a b => ?_) _).imp (by simp)
    · simp only [decide_eq_true_eq]
      exact Nat.le_trans
    · simp only [Bool.or_eq_true, decide_eq_true_eq]
      exact Nat.le_total _ _
  refine (hchain.and hsorted).imp_of_mem ?_
  rintro l m hl hm ⟨hin | hin, hlength⟩
  · exact absurd hlength (Nat.not_le_of_lt (hin.length_lt (start_lt_lbrace (hmem l hl).1)
      (start_lt_lbrace (hmem m hm).1)))
  · exact hin

/-- Two literals of a file are apart, or one stands between the braces of the other. -/
theorem literals_nested (text : List Char) :
    (parse text).literals.Pairwise fun l m => l.Apart m ∨ l.Encloses m ∨ m.Encloses l := by
  refine (nested_parse text).ordered.imp ?_
  rintro l m ⟨-, hapart | hin⟩
  · exact .inl (.inl hapart)
  · exact .inr (.inl hin)

/-- Two literals of a file with the same braces are the same. -/
theorem eq_of_braceSpan {text : List Char} {l m : CompositeLiteral} (hl : l ∈ (parse text).literals)
    (hm : m ∈ (parse text).literals) (h : l.braceSpan = m.braceSpan) : l = m := by
  have hstart : l.lbrace = m.lbrace := congrArg Span.start h
  by_contra hne
  have hapart : (parse text).literals.Pairwise fun l m => l.lbrace ≠ m.lbrace :=
    (nested_parse text).ordered.imp fun h => Nat.ne_of_lt h.1
  have hsymm : Std.Symm fun l m : CompositeLiteral => l.lbrace ≠ m.lbrace := ⟨fun _ _ h => h.symm⟩
  exact hapart.forall hl hm hne hstart

/-- The literals of a text form a forest. They are recorded in the order of their opening braces, any two of
them are apart or one stands between the braces of the other, and those around a position are the literals
whose span holds it, each of them between the braces of the next. -/
theorem literals_forest (text : List Char) :
    (parse text).literals.Pairwise (fun l m => l.lbrace < m.lbrace) ∧
    (parse text).literals.Pairwise (fun l m => l.Apart m ∨ l.Encloses m ∨ m.Encloses l) ∧
    ∀ offset,
      ((parse text).literalsAt offset).Perm
        ((parse text).literals.filter fun l => l.span.contains offset) ∧
      ((parse text).literalsAt offset).Pairwise fun l m => m.Encloses l :=
  ⟨(nested_parse text).ordered.imp And.left, literals_nested text, fun offset => ⟨literalsAt_perm text offset,
    literalsAt_chain text offset⟩⟩

end SourceFile

end LiteralFill
