import LiteralFill.Proofs.Lexing.Whole
import LiteralFill.Proofs.ResultType
import LiteralFill.Proofs.Shift

/-!
The literals of the body of a function, with and without a result in front of the body. They are the same
ones, further on, exactly when no `func` stands in the result outside brackets. Each such `func` opens a
header that nothing in the result closes; the brace of the body closes one, and while another is open the
pass takes no brace for that of a literal.
-/

namespace LiteralFill

/-! ## A text behind two beginnings -/

theorem dropBytes_byteLength_add (s t : List Char) (n : Nat) :
    dropBytes (byteLength s + n) (s ++ t) = dropBytes n t := by
  induction s with
  | nil => rw [byteLength, Nat.zero_add, List.nil_append]
  | cons c cs ih =>
    have hpos := Char.utf8Size_pos c
    simp only [byteLength, List.cons_append, dropBytes]
    rw [if_neg (by omega), ← ih]
    congr 1
    omega

theorem token_ofText (text : List Char) (i : Nat) :
    (Lexed.ofText text).1.tokens[i]? = (tokenize text).1[i]? :=
  List.getElem?_toArray

/-- Two texts that end alike, from a brace on. -/
theorem isShifted_ofText {pre pre' r : List Char} {us us' ts : List Token} {m d : Nat}
    (h : (tokenize (pre ++ r)).1 = us ++ ts.map (.shift (byteLength pre)))
    (h' : (tokenize (pre' ++ r)).1 = us' ++ ts.map (.shift (byteLength pre')))
    (hbrace : ts.head?.map (·.kind) = some (.opener .brace)) (hm : us.length + m = us'.length)
    (hd : byteLength pre + d = byteLength pre') :
    (Lexed.ofText (pre ++ r)).1.IsShifted (Lexed.ofText (pre' ++ r)).1 us.length m (byteLength pre)
      d := by
  have hget : ∀ i, us.length ≤ i → (Lexed.ofText (pre ++ r)).1.tokens[i]? =
      ts[i - us.length]?.map (.shift (byteLength pre)) := by
    intro i hi
    rw [token_ofText, h, List.getElem?_append_right hi, List.getElem?_map]
  have hget' : ∀ i, us'.length ≤ i → (Lexed.ofText (pre' ++ r)).1.tokens[i]? =
      ts[i - us'.length]?.map (.shift (byteLength pre')) := by
    intro i hi
    rw [token_ofText, h', List.getElem?_append_right hi, List.getElem?_map]
  refine ⟨Lexed.isMatched_ofText _, Lexed.isMatched_ofText _, ?_, ?_, ?_, ?_, ?_⟩
  · rw [Lexed.kindAt, hget _ (Nat.le_refl _), Nat.sub_self, Option.map_map, ← List.head?_eq_getElem?]
    exact hbrace
  · intro i hi
    have hsub : i + m - us'.length = i - us.length := by omega
    rw [hget i hi, hget' (i + m) (by omega), hsub, Option.map_map]
    congr 1
    funext t
    simp only [Function.comp_apply, Token.shift, Token.mk.injEq, and_true, true_and]
    omega
  · intro p q hp
    show slice (pre' ++ r) _ = slice (pre ++ r) _
    obtain ⟨k, rfl⟩ : ∃ k, p = byteLength pre + k := ⟨p - byteLength pre, by omega⟩
    have hsub : byteLength pre + k + d = byteLength pre' + k := by omega
    unfold slice Span.length
    rw [Nat.add_sub_add_right, hsub, dropBytes_byteLength_add, dropBytes_byteLength_add]
  · show byteLength (pre' ++ r) = byteLength (pre ++ r) + d
    rw [byteLength_append, byteLength_append]
    omega
  · intro i hi
    rw [Lexed.startAt, hget i hi]
    cases ts[i - us.length]? with
    | none =>
      show byteLength pre ≤ byteLength (pre ++ r)
      rw [byteLength_append]
      exact Nat.le_add_right _ _
    | some t => exact Nat.le_add_left _ _

/-! ## Functions as texts -/

/-- A list of parameters, without its parentheses. -/
structure IsParams (text : List Char) : Prop extends IsWhole text where
  balanced : IsBalanced (kindsWithin false text)
  noDeclaration : ∀ k ∈ kindsWithin false text, k.isDeclaring = false

/-- A result, with `n` function types outside its brackets. -/
structure HasResult (text : List Char) (n : Nat) : Prop extends IsWhole text where
  shape : IsResult (kindsWithin true text) n

/-- A body, without its braces. -/
structure IsBody (text : List Char) : Prop extends IsWhole text where
  balanced : IsBalanced (kindsWithin false text)

/-- A function up to its parameters. -/
def nameText : List Char := "func f".toList

/-- A function up to its body. -/
def headText (params result : List Char) : List Char :=
  nameText ++ '(' :: (params ++ ')' :: result)

/-- A function with its body. -/
def funcText (params result body : List Char) : List Char :=
  headText params result ++ '\x7b' :: (body ++ ['\x7d'])

/-- The literals in the body of a function. -/
def bodyLiterals (params result body : List Char) : List CompositeLiteral :=
  (SourceFile.parse (funcText params result body)).literals.filter fun l =>
    byteLength (headText params result) < l.typeSpan.start

theorem lexemes_name : lexemes nameText =
    [⟨.token (.keyword .funcWord), "func".toList⟩, ⟨.blank, [' ']⟩, ⟨.token .ident, ['f']⟩] := by
  decide +kernel

theorem isWhole_name : IsWhole nameText := by
  constructor
  · rw [lexemes_name]
    decide
  · rw [lexemes_name]
    decide

/-- The lexemes of a function up to its body. -/
def headLexemes (params result : List Char) : List Lexeme :=
  lexemes nameText ++ ⟨.token (.opener .paren), ['(']⟩ :: (lexemes params ++
    ⟨.token (.closer .paren), [')']⟩ :: lexemes result)

theorem lexemes_head {P R : List Char} (hP : IsWhole P) (hR : IsWhole R) (r : List Char) :
    lexemes (headText P R ++ '\x7b' :: r) = headLexemes P R ++ lexemes ('\x7b' :: r) := by
  unfold headText headLexemes
  rw [List.append_assoc, List.cons_append, List.append_assoc, List.cons_append,
    isWhole_name.lexemes_append (by decide) (by decide), lexemes_fixed (show lexemeAt '(' _ = _ from rfl),
    hP.lexemes_append (by decide) (by decide), lexemes_fixed (show lexemeAt ')' _ = _ from rfl),
    hR.lexemes_append (by decide) (by decide)]
  simp only [List.append_assoc, List.cons_append]

theorem lexemesText_head (P R : List Char) : lexemesText (headLexemes P R) = headText P R := by
  simp only [headLexemes, headText, lexemesText_append, lexemesText_cons, lexemesText_lexemes]
  rfl

/-- The tokens of a function up to its body. -/
def headTokens (params result : List Char) : List Token :=
  (tokensWithin 0 false (headLexemes params result)).1

theorem kinds_head (P R : List Char) :
    (headTokens P R).map (·.kind) =
      .keyword .funcWord :: .ident :: .opener .paren :: (kindsWithin false P ++
        .closer .paren :: kindsWithin true R) := by
  unfold headTokens headLexemes
  rw [lexemes_name, tokensWithin_append]
  simp only [tokensWithin_cons, tokensWithin_nil, tokensWithin_append, lexemeTokens, List.map_append,
    kinds_tokensWithin, List.cons_append, List.nil_append, List.map_cons, List.append_nil,
    TokenKind.endsStatement]

theorem tokenize_head {P R : List Char} (hP : IsWhole P) (hR : IsWhole R) (r : List Char) :
    (tokenize (headText P R ++ '\x7b' :: r)).1 =
      headTokens P R ++ (tokenize ('\x7b' :: r)).1.map (.shift (byteLength (headText P R))) := by
  show tokensFrom 0 false (lexemes _) = _
  rw [lexemes_head hP hR, tokensFrom_append, lexemesText_head, headTokens, tokenize,
    lexemes_fixed (show lexemeAt '\x7b' _ = _ from rfl), ← tokensFrom_shift, tokensFrom_cons, tokensFrom_cons]
  rfl

theorem tokenize_brace (r : List Char) : (tokenize ('\x7b' :: r)).1 =
    ⟨.opener .brace, 0, ['\x7b']⟩ :: tokensFrom 1 false (lexemes r) := by
  show tokensFrom 0 false (lexemes _) = _
  rw [lexemes_fixed (show lexemeAt '\x7b' _ = _ from rfl), tokensFrom_cons]
  rfl

/-! ## The pass up to the body -/

section

variable {P R : List Char} {n : Nat} (hP : IsParams P) (hR : HasResult R n) (r : List Char)

theorem IsResult.head (hP : IsParams P) (hR : HasResult R n) :
    IsResult (.ident :: .opener .paren :: (kindsWithin false P ++ .closer .paren :: kindsWithin true R))
      n :=
  .plain rfl (by decide) (.group (by decide) hP.balanced hP.noDeclaration hR.shape)

include hP hR

theorem kindsFrom_zero : (Lexed.ofText (headText P R ++ '\x7b' :: r)).1.kindsFrom 0 =
    (headTokens P R).map (·.kind) ++ (tokenize ('\x7b' :: r)).1.map (·.kind) := by
  show (List.drop 0 (tokenize _).1).map _ = _
  rw [List.drop_zero, tokenize_head hP.toIsWhole hR.toIsWhole, List.map_append, List.map_map]
  rfl

theorem kindsFrom_body : (Lexed.ofText (headText P R ++ '\x7b' :: r)).1.kindsFrom
    (headTokens P R).length = (tokenize ('\x7b' :: r)).1.map (·.kind) := by
  have h := Lexed.kindsFrom_of_append _ (kindsFrom_zero hP hR r)
  rwa [List.length_map, Nat.zero_add] at h

/-- The pass comes to the body with one header for the function and one for each `func` of its result. -/
theorem goes_head (ds : List Diagnostic) :
    ∃ o, Outline.Goes (Lexed.ofText (headText P R ++ '\x7b' :: r)).1 (Outline.start ds) o ∧
      Outline.InResult n o ∧ o.index = (headTokens P R).length := by
  have hkinds := kindsFrom_zero hP hR r
  have hm := Lexed.isMatched_ofText (headText P R ++ '\x7b' :: r)
  generalize (Lexed.ofText (headText P R ++ '\x7b' :: r)).1 = s at hkinds hm
  rw [kinds_head, List.cons_append] at hkinds
  obtain ⟨t, ht, hk⟩ := Option.map_eq_some_iff.mp (Lexed.kindAt_of_kindsFrom hkinds)
  have hn := Outline.step_isNext (s := s) (o := Outline.start ds) (t := t)
    (.inl (by rw [hk]; rfl))
  obtain ⟨kind, start, text⟩ := t
  cases hk
  have hin : Outline.InResult 0 (Outline.step s ⟨.keyword .funcWord, start, text⟩ (Outline.start ds)) :=
    ⟨hn.depth, hn.openLiterals, hn.headers⟩
  have hindex : (Outline.step s ⟨.keyword .funcWord, start, text⟩ (Outline.start ds)).index = 1 :=
    hn.index
  have hrest : s.kindsFrom 1 = (.ident :: .opener .paren :: (kindsWithin false P ++
      .closer .paren :: kindsWithin true R)) ++ (tokenize ('\x7b' :: r)).1.map (·.kind) :=
    Lexed.kindsFrom_of_append [_] hkinds
  rw [← hindex] at hrest
  obtain ⟨o, hgo, hin', hlast⟩ := Outline.goes_result hm (.head hP hR) hin hrest
  refine ⟨o, (Outline.Goes.step (o := Outline.start ds) hm ht).trans hgo, ?_, ?_⟩
  · rwa [Nat.zero_add] at hin'
  · have hlength := congrArg List.length (kinds_head P R)
    rw [hlast, hindex]
    simp only [List.length_map, List.length_cons] at hlength ⊢
    omega

/-- The tokens up to the body, and those behind its brace. -/
theorem startAt_head {i : Nat} (hi : i < (headTokens P R).length) :
    (Lexed.ofText (headText P R ++ '\x7b' :: r)).1.startAt i ≤ byteLength (headText P R) := by
  have htokens := tokenize_head hP.toIsWhole hR.toIsWhole r
  have hget : (Lexed.ofText (headText P R ++ '\x7b' :: r)).1.tokens[i]? = (headTokens P R)[i]? := by
    rw [token_ofText, htokens, List.getElem?_append_left hi]
  have hmem : (headTokens P R)[i] ∈ headTokens P R := List.getElem_mem hi
  have hwithin := tokensWithin_isWithin hmem
  rw [lexemesText_head, Nat.zero_add] at hwithin
  rw [Lexed.startAt, hget, List.getElem?_eq_getElem hi]
  exact Nat.le_trans (Nat.le_add_right _ _) hwithin.2

theorem startAt_body {i : Nat} (hi : (headTokens P R).length < i)
    (hs : i < (Lexed.ofText (headText P R ++ '\x7b' :: r)).1.size) :
    byteLength (headText P R) < (Lexed.ofText (headText P R ++ '\x7b' :: r)).1.startAt i := by
  have htokens := tokenize_head hP.toIsWhole hR.toIsWhole r
  obtain ⟨j, rfl⟩ : ∃ j, i = (headTokens P R).length + (j + 1) :=
    ⟨i - (headTokens P R).length - 1, by omega⟩
  have hget : (Lexed.ofText (headText P R ++ '\x7b' :: r)).1.tokens[(headTokens P R).length + (j + 1)]? =
      (tokensFrom 1 false (lexemes r))[j]?.map (.shift (byteLength (headText P R))) := by
    rw [token_ofText, htokens, List.getElem?_append_right (Nat.le_add_right _ _),
      Nat.add_sub_cancel_left, tokenize_brace, List.getElem?_map, List.getElem?_cons_succ]
  obtain ⟨u, hu⟩ := Lexed.exists_token hs
  rw [hu] at hget
  obtain ⟨v, hv, rfl⟩ := Option.map_eq_some_iff.mp hget.symm
  have hwithin := tokensFrom_isWithin (List.mem_of_getElem? hv)
  rw [Lexed.startAt, hu]
  show _ < v.start + _
  have := hwithin.1
  omega

/-- The step at the brace of the body. -/
theorem step_brace {o : Outline} (hindex : o.index = (headTokens P R).length) :
    ∃ t, (Lexed.ofText (headText P R ++ '\x7b' :: r)).1.tokens[o.index]? = some t ∧
      t.kind = .opener .brace := by
  have hkinds := kindsFrom_body hP hR r
  rw [← hindex, tokenize_brace, List.map_cons] at hkinds
  exact Option.map_eq_some_iff.mp (Lexed.kindAt_of_kindsFrom hkinds)

/-- What the pass records from the brace of the body on are the literals of the body. -/
theorem bodyLiterals_eq {B : List Char} {o : Outline} {new : List CompositeLiteral}
    (hgo : Outline.Goes (Lexed.ofText (funcText P R B)).1
      (Outline.start (Lexed.ofText (funcText P R B)).2) o)
    (hindex : o.index = (headTokens P R).length)
    (hnew : (Outline.finish (Lexed.ofText (funcText P R B)).1 o).literals = o.literals ++ new) :
    bodyLiterals P R B = new := by
  have hm := Lexed.isMatched_ofText (funcText P R B)
  obtain ⟨t, ht, hk⟩ := step_brace hP hR (B ++ ['\x7d']) hindex
  have hn := Outline.step_isNext (s := (Lexed.ofText (funcText P R B)).1) (o := o) (t := t)
    (.inl (by rw [hk]; rfl))
  have hnext : (Outline.step (Lexed.ofText (funcText P R B)).1 t o).index = o.index + 1 := by
    rw [hn.index]
    obtain ⟨kind, start, text⟩ := t
    cases hk
    rfl
  obtain ⟨old, hold, hbefore⟩ := hgo.literals
  obtain ⟨new', hnew', hbehind⟩ :=
    Outline.finish_literals hm (Outline.step (Lexed.ofText (funcText P R B)).1 t o)
  rw [← Outline.finish_step hm ht, hnew, hn.literals, List.append_cancel_left_eq] at hnew'
  subst hnew'
  unfold bodyLiterals
  rw [parse_literals, hgo.finish, hnew, hold, List.filter_append, List.filter_append]
  have hstart : (Outline.start (Lexed.ofText (funcText P R B)).2).literals = [] := rfl
  have hnone : old.filter (fun l => byteLength (headText P R) < l.typeSpan.start) = [] := by
    rw [List.filter_eq_nil_iff]
    intro l hl
    obtain ⟨i, -, hi, hs⟩ := hbefore l hl
    have := startAt_head hP hR (B ++ ['\x7d']) (hindex ▸ hi)
    rw [hs, decide_eq_true_eq, Nat.not_lt]
    exact this
  have hall : new.filter (fun l => byteLength (headText P R) < l.typeSpan.start) = new := by
    rw [List.filter_eq_self]
    intro l hl
    obtain ⟨i, hi, hsize, hs⟩ := hbehind l hl
    have := startAt_body hP hR (B ++ ['\x7d']) (show (headTokens P R).length < i by omega) hsize
    rw [hs, decide_eq_true_eq]
    exact this
  rw [hstart, hnone, hall]
  rfl

end

/-! ## With and without a result -/

theorem hasResult_nil : HasResult [] 0 := by
  refine ⟨⟨?_, ?_⟩, ?_⟩
  · simp [lexemes_nil]
  · simp [lexemes_nil]
  · exact .none

theorem headText_length (P R : List Char) :
    byteLength (headText P []) + byteLength R = byteLength (headText P R) := by
  simp only [headText, byteLength_append, byteLength]
  omega

theorem headTokens_length (P R : List Char) :
    (headTokens P []).length + (kindsWithin true R).length = (headTokens P R).length := by
  have h := congrArg List.length (kinds_head P R)
  have h' := congrArg List.length (kinds_head P [])
  have hnil : kindsWithin true [] = [] := rfl
  simp only [List.length_map, List.length_cons, List.length_append, hnil, List.length_nil] at h h'
  omega

theorem isShifted_func {P R : List Char} {n : Nat} (hP : IsParams P) (hR : HasResult R n)
    (B : List Char) :
    (Lexed.ofText (funcText P [] B)).1.IsShifted (Lexed.ofText (funcText P R B)).1
      (headTokens P []).length (kindsWithin true R).length (byteLength (headText P [])) (byteLength R) :=
  isShifted_ofText (tokenize_head hP.toIsWhole hasResult_nil.toIsWhole _)
    (tokenize_head hP.toIsWhole hR.toIsWhole _) (by rw [tokenize_brace]; rfl) (headTokens_length P R)
    (headText_length P R)

/-- A result without `func` outside brackets leaves the literals of the body as they are. -/
theorem bodyLiterals_result {P R : List Char} (hP : IsParams P) (hR : HasResult R 0) (B : List Char) :
    bodyLiterals P R B = (bodyLiterals P [] B).map (.shift (byteLength R)) := by
  have hshift := isShifted_func hP hR B
  obtain ⟨o, hgo, hin, hindex⟩ := goes_head hP hasResult_nil (B ++ ['\x7d'])
    (Lexed.ofText (funcText P [] B)).2
  obtain ⟨o', hgo', hin', hindex'⟩ := goes_head hP hR (B ++ ['\x7d']) (Lexed.ofText (funcText P R B)).2
  have htracks : Outline.Tracks hshift.alignment o o' := by
    refine ⟨⟨Nat.le_of_eq hindex.symm, ?_⟩, hin'.depth.trans hin.depth.symm,
      hin'.headers.trans hin.headers.symm, ?_⟩
    · rw [hindex, hindex', headTokens_length]
    · rw [hin.openLiterals, hin'.openLiterals]
      exact .nil
  obtain ⟨new, hnew, hnew'⟩ := hshift.finish_literals htracks
  rw [bodyLiterals_eq hP hasResult_nil hgo hindex hnew, bodyLiterals_eq hP hR hgo' hindex' hnew']

/-! ## A body whose literal a header hides -/

/-- A body with one literal in it. -/
def literalBody : List Char := " T\x7b\x7d ".toList

/-- A literal between the braces of a body, by the kinds of the tokens. -/
def literalBodyKinds : List TokenKind :=
  [.opener .brace, .ident, .opener .brace, .closer .brace, .closer .brace, .semicolon]

theorem lexemes_literalBody : lexemes literalBody =
    [⟨.blank, [' ']⟩, ⟨.token .ident, ['T']⟩, ⟨.token (.opener .brace), ['\x7b']⟩,
      ⟨.token (.closer .brace), ['\x7d']⟩, ⟨.blank, [' ']⟩] := by
  decide +kernel

theorem isBody_literalBody : IsBody literalBody := by
  refine ⟨⟨?_, ?_⟩, ?_⟩
  · rw [lexemes_literalBody]
    decide
  · rw [lexemes_literalBody]
    decide
  · rw [kindsWithin, lexemes_literalBody]
    exact .single rfl (.group .none .none)

theorem kinds_literalBody : (tokenize ('\x7b' :: (literalBody ++ ['\x7d']))).1.map (·.kind) =
    literalBodyKinds := by
  rw [tokenize_brace, isBody_literalBody.lexemes_append (by decide) (by decide), lexemes_literalBody,
    lexemes_fixed (show lexemeAt '\x7d' _ = _ from rfl), lexemes_nil]
  rfl

section

variable {s : Lexed} {o : Outline} {t : Token}

/-- The brace of a body takes one header. -/
theorem Outline.InResult.brace {n : Nat} (h : Outline.InResult (n + 1) o) (hk : t.kind = .opener .brace) :
    Outline.InResult n (Outline.step s t o) ∧ (Outline.step s t o).index = o.index + 1 := by
  have hn := Outline.step_isNext (s := s) (o := o) (t := t) (.inl (by rw [hk]; rfl))
  obtain ⟨kind, start, text⟩ := t
  cases hk
  have hhere : o.headerHere = some ⟨0, 0, true⟩ := by
    unfold Outline.headerHere Outline.level
    rw [h.headers, h.depth, h.openLiterals]
    rfl
  refine ⟨⟨hn.depth.trans h.depth, hn.openLiterals.trans h.openLiterals, ?_⟩, hn.index⟩
  rw [hn.headers]
  simp only [Outline.nextHeaders, hhere, h.headers]
  rfl

end

theorem mem_kindsFrom {s : Lexed} {i j : Nat} {k : TokenKind} (hij : i ≤ j) (hk : s.kindAt j = some k) :
    k ∈ s.kindsFrom i := by
  have hget := Lexed.kindsFrom_getElem? s i (j - i)
  rw [Nat.add_sub_cancel' hij, hk] at hget
  exact List.mem_of_getElem? hget

/-- A header that is left over hides the literal of that body. -/
theorem finish_hidden {s : Lexed} (hm : s.IsMatched) {o : Outline} {n : Nat}
    (h : Outline.InResult (n + 1) o) (hkinds : s.kindsFrom o.index = literalBodyKinds) :
    (Outline.finish s o).literals = o.literals := by
  obtain ⟨t, ht, hk⟩ := Option.map_eq_some_iff.mp (Lexed.kindAt_of_kindsFrom hkinds)
  obtain ⟨hin, hindex⟩ := h.brace (s := s) hk
  have hkinds₁ := Lexed.kindsFrom_of_append [_] hkinds
  rw [List.length_singleton, ← hindex] at hkinds₁
  obtain ⟨u, hu, hk'⟩ := Option.map_eq_some_iff.mp (Lexed.kindAt_of_kindsFrom hkinds₁)
  obtain ⟨hin', hindex'⟩ := hin.plain (s := s) (t := u) (by rw [hk']; rfl) (by rw [hk']; decide)
  have hkinds₂ := Lexed.kindsFrom_of_append [_] hkinds₁
  rw [List.length_singleton, ← hindex'] at hkinds₂
  rw [Outline.finish_step hm ht, Outline.finish_step hm hu, Outline.finish_literals_of_none hm,
    (hin.isNext u).literals, (h.isNext t).literals]
  intro i hi k hki
  have hmem := mem_kindsFrom hi hki
  rw [hkinds₂] at hmem
  simp only [List.mem_cons, List.not_mem_nil, or_false] at hmem
  rcases hmem with rfl | rfl | rfl | rfl
  · rfl
  · rfl
  · rfl
  · rfl

/-- Without such a header the literal is recorded. -/
theorem finish_literalBody {s : Lexed} (hm : s.IsMatched) {o : Outline}
    (h : Outline.InResult 0 o) (hkinds : s.kindsFrom o.index = literalBodyKinds) :
    ∃ l new, (Outline.finish s o).literals = o.literals ++ l :: new := by
  obtain ⟨t, ht, hk⟩ := Option.map_eq_some_iff.mp (Lexed.kindAt_of_kindsFrom hkinds)
  have hn := h.isNext (s := s) t
  have hindex : (Outline.step s t o).index = o.index + 1 := by
    rw [hn.index]
    obtain ⟨kind, start, text⟩ := t
    cases hk
    rfl
  have hheaders : (Outline.step s t o).headers = [] := by
    have hhere : o.headerHere = some ⟨0, 0, true⟩ := by
      unfold Outline.headerHere Outline.level
      rw [h.headers, h.depth, h.openLiterals]
      rfl
    rw [hn.headers]
    unfold Outline.nextHeaders
    rw [hk]
    simp only [hhere, h.headers]
    rfl
  have hkinds₁ := Lexed.kindsFrom_of_append [_] hkinds
  rw [List.length_singleton, ← hindex] at hkinds₁
  obtain ⟨u, hu, hk'⟩ := Option.map_eq_some_iff.mp (Lexed.kindAt_of_kindsFrom hkinds₁)
  have hkinds₂ := Lexed.kindsFrom_of_append [_] hkinds₁
  have hbrace := Lexed.kindAt_of_kindsFrom hkinds₂
  have hclose := hm.closerOf_balanced .none hkinds₂
  have hblock : ∀ type, (Outline.step s t o).isBlock type = false := by
    intro type
    unfold Outline.isBlock Outline.headerHere
    rw [hheaders]
  obtain ⟨e, he⟩ : ∃ e, Outline.literalHere s (Outline.step s t o) = some e :=
    ⟨_, Outline.literalHere_eq_some.mpr ⟨_, readType_name (Lexed.kindAt_of_kindsFrom hkinds₁) hbrace,
      hbrace, hblock _, hclose, rfl⟩⟩
  obtain ⟨new, hnew, -⟩ := Outline.finish_literals hm (Outline.step s u (Outline.step s t o))
  refine ⟨e.1, new, ?_⟩
  rw [Outline.finish_step hm ht, Outline.finish_step hm hu, hnew, Outline.step_literals_eq, hn.literals,
    Outline.recorded, hk', he, List.append_assoc]
  rfl

section

variable {P R : List Char} {n : Nat} (hP : IsParams P)
include hP

theorem bodyLiterals_hidden (hR : HasResult R (n + 1)) : bodyLiterals P R literalBody = [] := by
  obtain ⟨o, hgo, hin, hindex⟩ := goes_head hP hR (literalBody ++ ['\x7d'])
    (Lexed.ofText (funcText P R literalBody)).2
  have hkinds := kindsFrom_body hP hR (literalBody ++ ['\x7d'])
  rw [← hindex, kinds_literalBody] at hkinds
  refine bodyLiterals_eq hP hR hgo hindex ?_
  rw [List.append_nil]
  exact finish_hidden (Lexed.isMatched_ofText _) hin hkinds

theorem bodyLiterals_literalBody : bodyLiterals P [] literalBody ≠ [] := by
  obtain ⟨o, hgo, hin, hindex⟩ := goes_head hP hasResult_nil (literalBody ++ ['\x7d'])
    (Lexed.ofText (funcText P [] literalBody)).2
  have hkinds := kindsFrom_body hP hasResult_nil (literalBody ++ ['\x7d'])
  rw [← hindex, kinds_literalBody] at hkinds
  obtain ⟨l, new, hnew⟩ := finish_literalBody (Lexed.isMatched_ofText _) hin hkinds
  rw [bodyLiterals_eq hP hasResult_nil hgo hindex hnew]
  simp

/-- The literals of all bodies are the same with the result exactly when it has no `func` outside
brackets. -/
theorem bodyLiterals_iff (hR : HasResult R n) :
    (∀ B, IsBody B → bodyLiterals P R B = (bodyLiterals P [] B).map (.shift (byteLength R))) ↔ n = 0 := by
  constructor
  · intro h
    cases n with
    | zero => rfl
    | succ n =>
      have hbody := h literalBody isBody_literalBody
      rw [bodyLiterals_hidden hP hR] at hbody
      exact absurd (List.map_eq_nil_iff.mp hbody.symm) (bodyLiterals_literalBody hP)
  · rintro rfl B -
    exact bodyLiterals_result hP hR B

end

theorem isParams_number : IsParams "n int".toList := by
  have h : lexemes "n int".toList =
      [⟨.token .ident, ['n']⟩, ⟨.blank, [' ']⟩, ⟨.token .ident, "int".toList⟩] := by
    decide +kernel
  refine ⟨⟨?_, ?_⟩, ?_, ?_⟩
  · rw [h]
    decide
  · rw [h]
    decide
  · rw [kindsWithin, h]
    exact .single rfl (.single rfl .none)
  · rw [kindsWithin, h]
    decide

theorem hasResult_funcs : HasResult " []func() int ".toList 1 := by
  have h : lexemes " []func() int ".toList =
      [⟨.blank, [' ']⟩, ⟨.token (.opener .square), ['[']⟩, ⟨.token (.closer .square), [']']⟩,
        ⟨.token (.keyword .funcWord), "func".toList⟩, ⟨.token (.opener .paren), ['(']⟩,
        ⟨.token (.closer .paren), [')']⟩, ⟨.blank, [' ']⟩, ⟨.token .ident, "int".toList⟩,
        ⟨.blank, [' ']⟩] := by
    decide +kernel
  refine ⟨⟨?_, ?_⟩, ?_⟩
  · rw [h]
    decide
  · rw [h]
    decide
  · rw [kindsWithin, h]
    exact .group (by decide) .none (by simp) (.func (.group (by decide) .none (by simp)
      (.plain rfl (by decide) .none)))

/-- A slice of functions as the result hides literals of some body. -/
theorem bodyLiterals_funcs : IsParams "n int".toList ∧ HasResult " []func() int ".toList 1 ∧
    ¬ ∀ B, IsBody B → bodyLiterals "n int".toList " []func() int ".toList B =
      (bodyLiterals "n int".toList [] B).map (.shift (byteLength " []func() int ".toList)) := by
  refine ⟨isParams_number, hasResult_funcs, fun h => ?_⟩
  exact absurd ((bodyLiterals_iff isParams_number hasResult_funcs).mp h) (by decide)

end LiteralFill
