import LiteralFill.Proofs.Lexing.Comment

/-!
The tokens of a text and the stretches between them make up the text. A stretch between two tokens holds
nothing but white space, byte order marks and whole comments, so no other character is lost.
-/

namespace LiteralFill

/-! ## Text without tokens -/

/-- A text without tokens that `next` follows: white space, byte order marks and comments. A line comment goes
on to the end of its line, and a block comment through the first end mark behind its beginning. -/
inductive IsTokenless (next : List Char) : List Char → Prop
  | nil : IsTokenless next []
  | space {c : Char} {cs : List Char} (h : c ∈ [' ', '\t', '\r', '\x0c', '\n', '\uFEFF'])
      (rest : IsTokenless next cs) : IsTokenless next (c :: cs)
  | lineComment {body cs : List Char} (inline : '\n' ∉ body) (ended : ∀ c ∈ (cs ++ next).head?, c = '\n')
      (rest : IsTokenless next cs) : IsTokenless next ('/' :: '/' :: (body ++ cs))
  | blockComment {body cs : List Char} (first : ¬ ['*', '/'] <:+: body) (rest : IsTokenless next cs) :
      IsTokenless next ('/' :: '*' :: (body ++ '*' :: '/' :: cs))

namespace IsTokenless

variable {next gap cs : List Char}

theorem append_spaces (hcs : ∀ c ∈ cs, c ∈ [' ', '\t', '\r', '\x0c', '\n', '\uFEFF'])
    (h : IsTokenless next gap) : IsTokenless next (cs ++ gap) := by
  induction cs with
  | nil => exact h
  | cons c cs ih => exact .space (hcs c (by simp)) (ih fun d hd => hcs d (by simp [hd]))

end IsTokenless

/-- The first end mark of a text stands at its end. -/
theorem eq_append_of_throughClose {cs : List Char} (h : throughClose cs = some cs.length) :
    ∃ body, cs = body ++ ['*', '/'] ∧ ¬ ['*', '/'] <:+: body := by
  induction cs with
  | nil => cases h
  | cons c cs ih =>
    rw [throughClose_cons] at h
    split at h
    · next hc =>
      obtain ⟨rfl, hhead⟩ := hc
      obtain ⟨d, rfl⟩ : ∃ d, cs = [d] := List.length_eq_one_iff.mp (by simpa using h.symm)
      obtain rfl : d = '/' := by simpa using hhead
      exact ⟨[], rfl, by simp⟩
    · next hc =>
      obtain ⟨n, hn, hlen⟩ := Option.map_eq_some_iff.mp h
      obtain rfl : n = cs.length := by simpa using hlen
      obtain ⟨body, rfl, hbody⟩ := ih hn
      refine ⟨c :: body, rfl, fun hinfix => ?_⟩
      rcases List.infix_cons_iff.mp hinfix with ⟨rest, hrest⟩ | hinfix
      · -- an end mark at the first character would have been found before
        obtain ⟨rfl, rfl⟩ := List.cons.inj hrest
        exact hc ⟨rfl, rfl⟩
      · exact hbody hinfix

/-- A lexeme that is no token lengthens the text without tokens that follows it. -/
theorem Lexeme.IsFormed.isTokenless {l : Lexeme} {rest : List Lexeme} {gap next : List Char}
    (h : l.IsFormed rest) (hl : l.isTrivia) (hrest : gap ++ next = lexemesText rest)
    (hgap : IsTokenless next gap) : IsTokenless next (l.text ++ gap) := by
  obtain ⟨kind, text⟩ := l
  cases kind with
  | token k => cases hl
  | openComment => cases hl
  | blank =>
    refine hgap.append_spaces fun c hc => ?_
    have hblank : isLineBlank c := h c hc
    simp only [isLineBlank, Bool.or_eq_true, beq_iff_eq] at hblank
    rcases hblank with ((rfl | rfl) | rfl) | rfl <;> decide
  | newline =>
    obtain rfl : text = ['\n'] := h
    exact .space (by decide) hgap
  | byteOrderMark =>
    obtain rfl : text = ['\uFEFF'] := h
    exact .space (by decide) hgap
  | lineComment =>
    obtain ⟨body, rfl, hbody, hended⟩ := h
    exact .lineComment (fun hmem => hbody _ hmem rfl) (hrest ▸ hended) hgap
  | blockComment =>
    obtain ⟨body, rfl, hclose⟩ := h
    obtain ⟨body, rfl, hfirst⟩ := eq_append_of_throughClose hclose
    have := IsTokenless.blockComment hfirst hgap
    simpa using this

/-! ## Tokens and the text between them -/

/-- Tokens in their order and the stretches without tokens around them make up a text that begins at
`offset`. Each token has characters and stands where it says. -/
inductive Tiles : Nat → List Token → List Char → Prop
  | last {offset : Nat} {gap : List Char} (h : IsTokenless [] gap) : Tiles offset [] gap
  | token {offset : Nat} {gap rest : List Char} {t : Token} {ts : List Token}
      (h : IsTokenless (t.text ++ rest) gap) (start : t.start = offset + byteLength gap)
      (nonempty : t.text ≠ []) (more : Tiles t.stop ts rest) :
      Tiles offset (t :: ts) (gap ++ (t.text ++ rest))

/-- More text before the first token. -/
theorem Tiles.append {offset : Nat} {cs text : List Char} {ts : List Token}
    (h : Tiles (offset + byteLength cs) ts text)
    (hcs : ∀ gap next, gap ++ next = text → IsTokenless next gap → IsTokenless next (cs ++ gap)) :
    Tiles offset ts (cs ++ text) := by
  cases h with
  | last hgap => exact .last (hcs _ _ (List.append_nil _) hgap)
  | token hgap hstart hne hmore =>
    rw [← List.append_assoc]
    refine .token (hcs _ _ rfl hgap) ?_ hne hmore
    rw [hstart, byteLength_append, Nat.add_assoc]

theorem Tiles.nonempty {offset : Nat} {text : List Char} {ts : List Token} (h : Tiles offset ts text) :
    ∀ t ∈ ts, t.text ≠ [] := by
  induction h with
  | last h => simp
  | token h start nonempty more ih => simpa using ⟨nonempty, ih⟩

theorem tiles_tokensFrom {ls : List Lexeme} (h : lexemes (lexemesText ls) = ls) (offset : Nat)
    (pending : Bool) :
    Tiles offset ((tokensFrom offset pending ls).filter (!·.isImplied)) (lexemesText ls) := by
  induction ls generalizing offset pending with
  | nil => cases pending <;> exact .last .nil
  | cons l ls ih =>
    have hl : l.text ≠ [] := text_ne_nil_of_mem (h ▸ List.mem_cons_self)
    have hrest := ih (lexemes_of_append [l] h) (offset + byteLength l.text)
      (lexemeTokens offset pending l).2
    rw [tokensFrom_cons, List.filter_append, lexemesText_cons]
    rcases lexemeTokens_written offset pending hl with ⟨htrivia, himplied⟩ | ⟨kind, htoken, hwritten⟩
    · rw [List.filter_eq_nil_iff.mpr (by simpa using himplied), List.nil_append]
      exact hrest.append fun gap next hsplit =>
        (isFormed_of_lexemes h).isTokenless htrivia hsplit
    · rw [htoken] at hrest ⊢
      have hfirst : Tiles offset (⟨kind, offset, l.text⟩ :: _) ([] ++ (l.text ++ lexemesText ls)) :=
        .token .nil rfl hl hrest
      simpa [hwritten] using hfirst

/-- The tokens of a text stand in it in their order, at their places and apart from each other. Each that is
written has characters, and what is left of the text between these tokens is white space, byte order marks and
whole comments. -/
theorem tokenize_tiles (text : List Char) :
    (∀ t ∈ (tokenize text).1,
      ∃ before after, text = before ++ (t.text ++ after) ∧ t.start = byteLength before) ∧
    (tokenize text).1.Pairwise (fun t u => t.stop ≤ u.start) ∧
    (∀ t ∈ (tokenize text).1, t.isImplied = false → t.text ≠ []) ∧
    Tiles 0 ((tokenize text).1.filter (!·.isImplied)) text := by
  have htiles : Tiles 0 ((tokenize text).1.filter (!·.isImplied)) text := by
    have hself : lexemes (lexemesText (lexemes text)) = lexemes text := by rw [lexemesText_lexemes]
    have := tiles_tokensFrom hself 0 false
    rwa [lexemesText_lexemes] at this
  refine ⟨fun t ht => ?_, tokensFrom_pairwise 0 false _, fun t ht hwritten => ?_, htiles⟩
  · have := tokensFrom_place ht
    simpa only [lexemesText_lexemes, Nat.zero_add] using this
  · exact htiles.nonempty t (List.mem_filter.mpr ⟨ht, by simp [hwritten]⟩)

end LiteralFill
