import LiteralFill.Proofs.Filled.Rows
import LiteralFill.Proofs.Filled.Value
import LiteralFill.Text.Edit

/-!
A literal whose braces are replaced. What stands between the new braces is read on its own, so the text with the
replacement has a literal of the same type at the same place, and its elements are those of the new lines.
-/

namespace LiteralFill

/-! ## The braces of a literal -/

/-- The lexemes of a text before, between and behind the braces of one of its literals. -/
structure IsBraced (text : List Char) (l : CompositeLiteral) (A B C : List Lexeme) : Prop where
  lexemes : lexemes text = A ++ openBrace :: (B ++ closeBrace :: C)
  lbrace : byteLength (lexemesText A) = l.lbrace
  rbrace : l.lbrace + 1 + byteLength (lexemesText B) = l.rbrace
  balanced : IsBalanced ((tokensWithin 0 false B).1.map (·.kind))
  noBody : ∀ t ∈ (tokensWithin 0 false A).1.getLast?, t.kind ≠ .keyword .structWord

/-- How a brace is written. -/
theorem text_of_brace {text cs : List Char} {k : TokenKind} {before after : List Lexeme}
    (h : lexemes text = before ++ ⟨.token k, cs⟩ :: after) :
    (k = .opener .brace → cs = ['\x7b']) ∧ (k = .closer .brace → cs = ['\x7d']) := by
  have hall : ∀ e ∈ fixedTokens, (e.2 = .opener .brace → e.1 = ['\x7b']) ∧ (e.2 = .closer .brace → e.1 = ['\x7d']) := by
    decide
  have hmem : k.isBracket → (cs, k) ∈ fixedTokens := fun hk =>
    mem_fixedTokens_of_bracket (lexemes_of_append before h) rfl hk
  constructor <;> rintro rfl
  · exact (hall _ (hmem rfl)).1 rfl
  · exact (hall _ (hmem rfl)).2 rfl

/-- The lexemes before, between and behind a pair of braces. -/
theorem Lexed.IsRead.exists_braces {s : Lexed} (hs : s.IsRead) (hsound : ∀ m ∈ lexemes s.text, m.isSound) {i c : Nat}
    (hopen : s.kindAt i = some (.opener .brace)) (hclose : s.kindAt c = some (.closer .brace)) (hlt : i < c) :
    ∃ A B C, lexemes s.text = A ++ openBrace :: (B ++ closeBrace :: C) ∧
      byteLength (lexemesText A) = s.startAt i ∧ s.startAt i + 1 + byteLength (lexemesText B) = s.startAt c ∧
      (tokensWithin 0 false A).1.length = i ∧ (tokensWithin 0 false B).1.map (·.kind) = s.kindsBetween (i + 1) c := by
  obtain ⟨t, ht⟩ := Lexed.exists_token (Lexed.kindAt_lt hopen)
  obtain ⟨u, hu⟩ := Lexed.exists_token (Lexed.kindAt_lt hclose)
  have htkind := Lexed.kind_of_token ht hopen
  have hukind := Lexed.kind_of_token hu hclose
  have htne : t.text ≠ [] := hs.text_ne_nil ht (by simp [htkind])
  have hune : u.text ≠ [] := hs.text_ne_nil hu (by simp [hukind])
  obtain ⟨A, after, hA, hstart, hcount⟩ := hs.split hsound ht htne
  obtain ⟨A', inner, C, hall, hstart', hstop, ⟨ls, hls⟩, ⟨ls', hls'⟩, hkinds⟩ :=
    hs.between hsound (Nat.le_of_lt hlt) ht htne hu hune
  obtain rfl := (eq_of_byteLength (fun m hm => text_ne_nil_of_mem hm) hA hall (hstart.trans hstart'.symm)).1
  obtain ⟨B, rfl⟩ : ∃ B, inner = ⟨.token t.kind, t.text⟩ :: (B ++ [⟨.token u.kind, u.text⟩]) := by
    rw [hls] at hls'
    cases ls' with
    | nil =>
      obtain ⟨hsame, -⟩ := List.cons.inj hls'
      rw [htkind, hukind] at hsame
      cases hsame
    | cons m B =>
      obtain ⟨-, rfl⟩ := List.cons.inj hls'
      exact ⟨B, hls⟩
  have htbrace : t.text = ['{'] := (text_of_brace hA).1 htkind
  have hbehind : lexemes s.text = (A ++ ⟨.token t.kind, t.text⟩ :: B) ++ ⟨.token u.kind, u.text⟩ :: C := by
    simpa using hall
  have hubrace : u.text = ['}'] := (text_of_brace hbehind).2 hukind
  have hlbrace : s.startAt i = t.start := by simp [Lexed.startAt, ht]
  have hrbrace : s.startAt c = u.start := by simp [Lexed.startAt, hu]
  refine ⟨A, B, C, ?_, hstart.trans hlbrace.symm, ?_, hcount, ?_⟩
  · rw [hall, htkind, htbrace, hukind, hubrace]
    simp [openBrace, closeBrace]
  · rw [hlbrace, hrbrace, ← hstart]
    have hbytes := hstop
    simp only [lexemesText_append, lexemesText_cons, lexemesText_nil, byteLength_append, htbrace, hubrace, Token.stop,
      List.append_nil] at hbytes
    simp only [byteLength, show Char.utf8Size '{' = 1 from rfl, show Char.utf8Size '}' = 1 from rfl] at hbytes
    omega
  · have hcons := hkinds 0 false
    rw [Lexed.kindsBetween_cons hopen (by omega), Lexed.kindsBetween_append _ hlt (Nat.le_succ c),
      Lexed.kindsBetween_cons hclose (Nat.lt_succ_self c), Lexed.kindsBetween_self, tokensWithin_cons,
      tokensWithin_append] at hcons
    simp only [lexemeTokens, htkind, hukind, tokensWithin_cons, tokensWithin_nil, TokenKind.endsStatement, List.map_append,
      List.map_cons, List.map_nil, List.singleton_append, List.cons.injEq, true_and, List.append_nil] at hcons
    rw [← List.append_cancel_right hcons]
    exact kinds_tokensWithin_lexemes ..

/-- In a text without problems among its characters and brackets every literal has its braces. -/
theorem exists_isBraced {text : List Char} (hclean : (Lexed.ofText text).2 = []) {l : CompositeLiteral}
    (hl : l ∈ (SourceFile.parse text).literals) : ∃ A B C, IsBraced text l A B C := by
  obtain ⟨o, lb, rb, ds, hhere⟩ := exists_literalHere hl
  obtain ⟨type, hread, hopen, -, hclose, rfl⟩ := Outline.literalHere_eq_some.mp hhere
  have hs := Lexed.isRead_ofText text
  have hm := hs.matched
  obtain ⟨hlt, hsize, b, hb, hcloser⟩ := hm.closer_spec hclose
  cases hopen.symm.trans hb
  obtain ⟨A, B, C, hlexemes, hA, hB, hcount, hkinds⟩ :=
    hs.exists_braces (isSound_of_diagnostics (List.append_eq_nil_iff.mp hclean).1) hopen hcloser hlt
  refine ⟨A, B, C, hlexemes, hA, hB, ?_, fun t ht hkind => ?_⟩
  · rw [hkinds]
    exact Lexed.IsPaired.isBalanced_inside hm (Lexed.isPaired_ofText hclean) hclose
  · -- the type before the brace does not end with a keyword
    have hends := ((readType_reads hm ⟨o.index, o.diagnostics⟩).2 (by rw [hread]; rfl)).2.2
    have hlast := kindAt_of_getLast hlexemes ht
    rw [hread] at hends
    rw [hcount, hkind] at hlast
    rcases hends with hident | ⟨b, hclosed⟩
    · cases hlast.symm.trans hident
    · cases hlast.symm.trans hclosed

/-! ## Other braces in their place -/

/-- A text that stands for itself between braces, with this number of tokens. -/
def IsBetween (body : List Char) (count : Nat) : Prop :=
  ∀ r, ∃ w, lexemes (body ++ '\x7d' :: r) = w ++ closeBrace :: lexemes r ∧
    IsBalanced ((tokensWithin 0 false w).1.map (·.kind)) ∧ (tokensWithin 0 false w).1.length = count

/-- The tokens from a brace on. -/
theorem continues_brace {text rest : List Char} {A : List Lexeme} (h : lexemes text = A ++ openBrace :: lexemes rest)
    (htext : text = lexemesText A ++ '\x7b' :: rest) :
    (Lexed.ofText text).1.tokens[(tokensWithin 0 false A).1.length]? =
        some ⟨.opener .brace, byteLength (lexemesText A), ['\x7b']⟩ ∧
      (Lexed.ofText text).1.Continues ((tokensWithin 0 false A).1.length + 1) (byteLength (lexemesText A) + 1) false
        rest := by
  have hstart : (Lexed.ofText text).1.Continues 0 0 false text :=
    ⟨(Lexed.isRead_ofText text).tokens_eq, [], rfl, rfl⟩
  have hopen : lexemes ('\x7b' :: rest) = openBrace :: lexemes rest := lexemes_fixed rfl
  rw [htext] at hstart h
  obtain ⟨-, hbrace⟩ := hstart.chunk (w := A) (by rw [h, hopen])
  rw [Nat.zero_add, Nat.zero_add] at hbrace
  rw [htext]
  exact hbrace.token (k := .opener .brace) (v := ['\x7b']) hopen

namespace IsBraced

variable {text : List Char} {l : CompositeLiteral} {A B C : List Lexeme} (h : IsBraced text l A B C)
include h

theorem text_eq : text = lexemesText A ++ '\x7b' :: (lexemesText B ++ '\x7d' :: lexemesText C) := by
  have htext := lexemesText_lexemes text
  rw [h.lexemes] at htext
  rw [← htext]
  simp [openBrace, closeBrace]

/-- The text with other characters in the place of the braces and what is between them. -/
theorem replaceSpan_eq (new : String) :
    replaceSpan text ⟨l.braceSpan, new⟩ = lexemesText A ++ (new.toList ++ lexemesText C) := by
  have hstop : l.braceSpan.stop = byteLength (lexemesText A ++ '\x7b' :: (lexemesText B ++ ['\x7d'])) := by
    rw [CompositeLiteral.braceSpan, ← h.rbrace, ← h.lbrace]
    simp only [byteLength_append, byteLength, show Char.utf8Size '\x7b' = 1 from rfl,
      show Char.utf8Size '\x7d' = 1 from rfl]
    omega
  have htext : text = (lexemesText A ++ '\x7b' :: (lexemesText B ++ ['\x7d'])) ++ lexemesText C := by
    rw [h.text_eq]
    simp
  rw [replaceSpan, hstop]
  conv_lhs => rw [htext]
  rw [dropBytes_byteLength, List.append_assoc, List.append_assoc]
  show takeBytes l.lbrace _ ++ _ = _
  rw [← h.lbrace, takeBytes_byteLength]

/-- The lexemes with another text between the braces. -/
theorem lexemes_body {body : List Char} {w : List Lexeme} (hsound : ∀ m ∈ LiteralFill.lexemes text, m.isSound)
    (hw : LiteralFill.lexemes (body ++ '\x7d' :: lexemesText C) = w ++ closeBrace :: LiteralFill.lexemes (lexemesText C)) :
    LiteralFill.lexemes (lexemesText A ++ '\x7b' :: (body ++ '\x7d' :: lexemesText C)) =
      A ++ openBrace :: (w ++ closeBrace :: C) := by
  have hC : LiteralFill.lexemes (lexemesText C) = C :=
    lexemes_of_append (A ++ openBrace :: (B ++ [closeBrace])) (by rw [h.lexemes]; simp)
  have hold : LiteralFill.lexemes (lexemesText A ++ '\x7b' :: (lexemesText B ++ '\x7d' :: lexemesText C)) =
      A ++ LiteralFill.lexemes ('\x7b' :: (lexemesText B ++ '\x7d' :: lexemesText C)) := by
    have htail := lexemes_of_append A h.lexemes
    rw [← h.text_eq, h.lexemes]
    refine congrArg (A ++ ·) (htail.symm.trans (congrArg _ ?_))
    simp [openBrace, closeBrace]
  have hA : ∀ m ∈ A, m.isSound := fun m hm => hsound m (by rw [h.lexemes]; simp [hm])
  refine (lexemes_append_of_append hold hA (by rintro d ⟨⟩; decide) fun m hm => ?_).trans ?_
  · -- a line comment before the brace would have gone on through it
    obtain ⟨A', rfl⟩ := List.getLast?_eq_some_iff.mp hm
    have hformed := isFormed_of_lexemes (lexemes_of_append A' (by rw [h.lexemes, List.append_assoc]; rfl))
    obtain ⟨kind, cs⟩ := m
    cases kind with
    | blank => rintro d ⟨⟩; rfl
    | lineComment =>
      obtain ⟨-, -, -, hnext⟩ := hformed
      exact absurd (hnext '\x7b' rfl) (by decide)
    | _ => trivial
  · rw [lexemes_fixed rfl, hw, hC]
    rfl

/-- The literal is found again, with what is read between the new braces. -/
theorem finds (hclean : (Lexed.ofText text).2 = []) (hl : l ∈ (SourceFile.parse text).literals) {body : List Char}
    {count : Nat} (hbody : IsBetween body count) {text' : List Char}
    (htext' : text' = replaceSpan text ⟨l.braceSpan, String.ofList ('\x7b' :: (body ++ ['\x7d']))⟩) :
    ∃ l' ∈ (SourceFile.parse text').literals, l'.type = l.type ∧ l'.typeSpan = l.typeSpan ∧ l'.lbrace = l.lbrace ∧
      l'.rbrace = l.lbrace + 1 + byteLength body ∧ ∃ n,
        (Lexed.ofText text').1.Continues (n + 1) ((Lexed.ofText text').1.stopAt n) false
          (body ++ '\x7d' :: lexemesText C) ∧
        n + 1 + count < (Lexed.ofText text').1.size ∧ (Lexed.ofText text').1.startAt (n + 1 + count) = l'.rbrace ∧
        (l'.elements, l'.dangling) = splitElements (Lexed.ofText text').1 n (n + 1 + count) := by
  have hsound : ∀ m ∈ LiteralFill.lexemes text, m.isSound := isSound_of_diagnostics (List.append_eq_nil_iff.mp hclean).1
  obtain ⟨w, hw, hbalanced, hcount⟩ := hbody (lexemesText C)
  have htext : text' = lexemesText A ++ '\x7b' :: (body ++ '\x7d' :: lexemesText C) := by
    rw [htext', h.replaceSpan_eq]
    simp
  have hlexemes : LiteralFill.lexemes text' = A ++ openBrace :: (w ++ closeBrace :: C) := by
    rw [htext]
    exact h.lexemes_body hsound hw
  -- where the braces are among the tokens of the two texts
  have hold : LiteralFill.lexemes (lexemesText B ++ '\x7d' :: lexemesText C) = B ++ closeBrace :: C := by
    have hsplit : LiteralFill.lexemes text = (A ++ [openBrace]) ++ (B ++ closeBrace :: C) := by
      rw [h.lexemes]
      simp
    simpa [closeBrace] using lexemes_of_append (A ++ [openBrace]) hsplit
  have hC : LiteralFill.lexemes (lexemesText C) = C :=
    lexemes_of_append (A ++ openBrace :: (B ++ [closeBrace])) (by rw [h.lexemes]; simp)
  obtain ⟨htoken, -⟩ := continues_brace (by rw [h.lexemes, hold]) h.text_eq
  obtain ⟨htoken', hcontinues⟩ := continues_brace (by rw [hlexemes, hw, hC]) htext
  have hreplaced := isReplaced_ofText h.lexemes hlexemes h.balanced hbalanced h.noBody
  generalize (tokensWithin 0 false A).1.length = n at htoken htoken' hcontinues hreplaced
  rw [hcount] at hreplaced
  have hstart : (Lexed.ofText text).1.startAt n = l.lbrace := by simp [Lexed.startAt, htoken, h.lbrace]
  have hstop : (Lexed.ofText text').1.stopAt n = l.lbrace + 1 := by
    simp only [Lexed.stopAt, htoken', Option.map_some, Option.getD_some, Token.stop, h.lbrace]
    rfl
  rw [h.lbrace, ← hstop] at hcontinues
  have hclose : LiteralFill.lexemes ('\x7d' :: lexemesText C) = closeBrace :: LiteralFill.lexemes (lexemesText C) :=
    lexemes_fixed rfl
  obtain ⟨-, hbehind⟩ := hcontinues.chunk (w := w) (by rw [hw, hclose])
  have hlength : (tokensWithin ((Lexed.ofText text').1.stopAt n) false w).1.length = count := by
    rw [← hcount]
    exact length_tokensWithin_lexemes ..
  rw [hlength] at hbehind
  obtain ⟨hcloser, -⟩ := hbehind.token (k := .closer .brace) (v := ['\x7d']) hclose
  have hrbrace : (Lexed.ofText text').1.startAt (n + 1 + count) = l.lbrace + 1 + byteLength body := by
    simp [Lexed.startAt, hcloser, hstop]
  have htracks : Outline.Tracks hreplaced.alignment (Outline.start (Lexed.ofText text).2)
      (Outline.start (Lexed.ofText text').2) := ⟨.inl ⟨Nat.zero_le n, rfl⟩, rfl, rfl, .nil⟩
  obtain ⟨l', hl', htype, hspan, hlb, hrb, hsplit⟩ := hreplaced.finds htracks (l := l) hl (by simp [Outline.start])
    hstart.symm (by rw [hstart]; exact (SourceFile.start_lt_lbrace hl).1)
  exact ⟨l', hl', htype, hspan, hlb, hrb.trans hrbrace, n, hcontinues, (Array.getElem?_eq_some_iff.mp hcloser).1, hrb.symm,
    hsplit⟩

end IsBraced

/-! ## Rendered braces -/

theorem isBetween_nil : IsBetween [] 0 := fun _ => ⟨[], lexemes_fixed rfl, .none, rfl⟩

theorem isBetween_lines {ls : List Line} (hls : ∀ m ∈ ls, m.IsSound) {closing : List Char} {notes : List String}
    (hclosing : IsGapText ('\n' :: closing) IsUnblank notes) :
    IsBetween (Line.texts ls ++ '\n' :: closing) (Line.size ls) := by
  intro r
  obtain ⟨w, hw, -, hbalanced, hcount⟩ := lexemes_lines hls hclosing r
  exact ⟨w, by simpa using hw, hbalanced, hcount⟩

/-- Braces with nothing between them hold no element and no comment. -/
theorem splitElements_nil {s : Lexed} {n : Nat} (hstart : s.startAt (n + 1) = s.stopAt n) :
    splitElements s n (n + 1) = ([], []) := by
  have hnone : elementTokens s (n + 1) (n + 1 - (n + 1)) (n + 1) none = (none, n + 1) := by
    rw [Nat.sub_self, elementTokens]
  have hfuel : n + 1 - n = 0 + 1 := by omega
  have hread : readElements s (n + 1) (n + 1 - n) (n + 1) (s.stopAt n) = ([], s.stopAt n) := by
    rw [hfuel, readElements, hnone]
    simp
  rw [splitElements, hread]
  simp only [hstart, Nat.min_self, commentTexts, slice, Span.length, Nat.sub_self, takeBytes_zero]
  rfl

theorem isLineBlank_unit (style : IndentStyle) : ∀ c ∈ style.unit.toList, isLineBlank c := by
  intro c hc
  cases style with
  | tab =>
    obtain rfl : c = '\t' := by simpa [IndentStyle.unit] using hc
    rfl
  | spaces n =>
    have hspace : c ∈ List.replicate n ' ' := by simpa [IndentStyle.unit] using hc
    rw [List.eq_of_mem_replicate hspace]
    rfl

theorem isLineBlank_indentAt (text : List Char) (offset : Nat) : ∀ c ∈ indentAt text offset, isLineBlank c := by
  intro c hc
  have := List.mem_takeWhile_imp hc
  simp only [Bool.or_eq_true, beq_iff_eq] at this
  rcases this with rfl | rfl <;> rfl

/-- The entries and the comments of what is rendered are what they are taken for. -/
structure Merged.IsSound (m : Merged) (layout : Layout) (indent : String) : Prop where
  rows : ∀ e ∈ m.entries, (entryRow layout indent e).IsSound
  dangling : ∀ c ∈ m.dangling, IsNote c.toList

theorem isRead_of_lines {α : Type} {row : α → Row} {text : List Char} {ls : List Line} {as : List α} {es : List Element}
    (hshown : List.Forall₂ (fun m a => Row.IsShown m (row a)) ls as)
    (hsaid : List.Forall₂ (fun m e => m.Says text e) ls es) :
    List.Forall₂ (fun a e => (row a).IsRead text e) as es := by
  induction hshown generalizing es with
  | nil =>
    cases hsaid
    exact .nil
  | cons hfirst _ ih =>
    cases hsaid with
    | cons hsay hrest => exact .cons (hfirst.isRead hsay) (ih hrest)

/-- The text of a literal whose elements are rendered reads back as these elements. -/
theorem finds_rendered {text : List Char} (hclean : (Lexed.ofText text).2 = []) {l : CompositeLiteral}
    (hl : l ∈ (SourceFile.parse text).literals) {m : Merged} {base : String} {layout : Layout}
    (hbase : ∀ c ∈ base.toList, isLineBlank c) (hm : m.IsSound layout (base ++ layout.indent.unit)) {text' : List Char}
    (htext' : text' = replaceSpan text ⟨l.braceSpan, render m base layout⟩) :
    ∃ l' ∈ (SourceFile.parse text').literals, l'.type = l.type ∧ l'.typeSpan = l.typeSpan ∧ l'.lbrace = l.lbrace ∧
      l'.rbrace + 1 = l.lbrace + byteLength (render m base layout).toList ∧
      List.Forall₂ (fun e e' => (entryRow layout (base ++ layout.indent.unit) e).IsRead text' e') m.entries l'.elements ∧
      l'.dangling = m.dangling := by
  obtain ⟨A, B, C, hbraced⟩ := exists_isBraced hclean hl
  have hindent : ∀ c ∈ (base ++ layout.indent.unit).toList, isLineBlank c := by
    simpa [or_imp, forall_and] using ⟨hbase, isLineBlank_unit layout.indent⟩
  by_cases hempty : m.entries.isEmpty && m.dangling.isEmpty
  · have hrender : render m base layout = "\x7b\x7d" := by rw [render, if_pos hempty]
    rw [hrender] at htext' ⊢
    obtain ⟨l', hl', htype, hspan, hlb, hrb, n, hcontinues, -, hstart, hsplit⟩ :=
      hbraced.finds hclean hl isBetween_nil htext'
    have hstop : (Lexed.ofText text').1.startAt (n + 1) = (Lexed.ofText text').1.stopAt n := by
      have hclose : lexemes ('\x7d' :: lexemesText C) = closeBrace :: lexemes (lexemesText C) := lexemes_fixed rfl
      obtain ⟨htoken, -⟩ := hcontinues.token (k := .closer .brace) (v := ['\x7d']) hclose
      simp [Lexed.startAt, htoken]
    rw [Nat.add_zero, splitElements_nil hstop, Prod.mk.injEq] at hsplit
    simp only [Bool.and_eq_true, List.isEmpty_iff] at hempty
    refine ⟨l', hl', htype, hspan, hlb, ?_, ?_, ?_⟩
    · rw [hrb]
      rfl
    · rw [hsplit.1, hempty.1]
      exact .nil
    · rw [hsplit.2, hempty.2]
  · have hrows : ∀ r ∈ m.entries.map (entryRow layout (base ++ layout.indent.unit)), r.IsSound := by
      simpa using hm.rows
    obtain ⟨ls, hls, hshown, hlines⟩ := exists_lines hrows hindent layout.align
    have hgap := isGapText_noteLines hindent hbase hm.dangling
    have hrender : (render m base layout).toList = '\x7b' ::
        (Line.texts ls ++ '\n' :: noteLines (base ++ layout.indent.unit).toList m.dangling base.toList ++ ['\x7d']) := by
      rw [render, if_neg hempty, List.append_cons (Line.texts ls), ← hlines]
      simp [noteLines, List.flatMap_map]
    rw [← String.ofList_toList (s := render m base layout), hrender] at htext'
    obtain ⟨l', hl', htype, hspan, hlb, hrb, n, hcontinues, hsize, -, hsplit⟩ :=
      hbraced.finds hclean hl (isBetween_lines hls hgap) htext'
    rw [List.append_assoc, List.cons_append] at hcontinues
    obtain ⟨es, hes, hsaid⟩ := splitElements_lines (Lexed.isRead_ofText text').matched hls hgap hsize hcontinues
    rw [hes, Prod.mk.injEq] at hsplit
    refine ⟨l', hl', htype, hspan, hlb, ?_, ?_, hsplit.2⟩
    · rw [hrb, hrender]
      simp only [byteLength, byteLength_append, show Char.utf8Size '\x7b' = 1 from rfl,
        show Char.utf8Size '\x7d' = 1 from rfl]
      omega
    · rw [hsplit.1]
      rw [List.forall₂_map_right_iff] at hshown
      exact isRead_of_lines hshown hsaid

end LiteralFill
