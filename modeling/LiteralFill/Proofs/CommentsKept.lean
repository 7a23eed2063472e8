import LiteralFill.Proofs.Comments

/-!
When the comments of a literal are kept: exactly when none stands in a key and no element's line ends within
one.
-/

namespace LiteralFill

/-! ## Cuts again -/

theorem eq_of_byteLength {ls : List Lexeme} (hne : ∀ l ∈ ls, l.text ≠ []) {a b c d : List Lexeme}
    (h1 : ls = a ++ b) (h2 : ls = c ++ d)
    (hlen : byteLength (lexemesText a) = byteLength (lexemesText c)) : a = c ∧ b = d := by
  have hnil : ∀ x y z : List Lexeme, ls = x ++ y ++ z →
      byteLength (lexemesText (x ++ y)) = byteLength (lexemesText x) → y = [] := by
    intro x y z hls hxy
    cases y with
    | nil => rfl
    | cons m y =>
      have := byteLength_pos (hne m (by rw [hls]; simp))
      simp only [lexemesText_append, lexemesText_cons, byteLength_append] at hxy
      omega
  rcases List.append_eq_append_iff.mp (h1.symm.trans h2) with ⟨x, rfl, rfl⟩ | ⟨x, rfl, rfl⟩
  · have := hnil a x d h2 hlen.symm
    subst this
    simp
  · have := hnil c x b h1 hlen
    subst this
    simp

/-- The lexeme at a place follows what is placed before it. -/
theorem exists_rest {ls before after : List Lexeme} (hne : ∀ l ∈ ls, l.text ≠ [])
    (h : ls = before ++ after) {l : Lexeme}
    (hl : (byteLength (lexemesText before), l) ∈ placed 0 ls) : ∃ rest, after = l :: rest := by
  obtain ⟨x, y, hxy, hp⟩ := mem_placed hl
  rw [Nat.zero_add] at hp
  exact ⟨y, (eq_of_byteLength hne h hxy hp).2⟩

/-! ## The lexemes behind an element -/

/-- What follows the last token of an element: its comma and the token `b` after it, or the closing
brace `b`. -/
def IsFollowed (s : Lexed) (last b : Nat) : Option Nat → Prop
  | some c =>
    last < c ∧ b = c + 1 ∧ s.kindAt c = some .comma ∧
      ∀ j, last < j → j < c → s.kindAt j = some .semicolon
  | none =>
    last < b ∧ s.kindAt b = some (.closer .brace) ∧
      ∀ j, last < j → j < b → s.kindAt j = some .semicolon

/-- The position after the comma of an element, or after the element. -/
def afterComma (s : Lexed) (last : Nat) (comma : Option Nat) : Nat :=
  (comma.map s.stopAt).getD (s.stopAt last)

theorem IsFollowed.lt {s : Lexed} {last b : Nat} {comma : Option Nat} (h : IsFollowed s last b comma) : last < b := by
  cases comma with
  | none => exact h.1
  | some c =>
    obtain ⟨hlc, rfl, -⟩ := h
    exact Nat.lt_succ_of_lt hlc

/-- What stands behind an element up to the next token is a gap. -/
theorem IsFollowed.isGap {s : Lexed} {lbrace last b : Nat} {comma : Option Nat} (h : IsFollowed s last b comma)
    (hlast : lbrace < last) (hb : b < s.size) (hclear : s.IsClear lbrace (last + 1)) :
    IsGap s lbrace (last + 1) b := by
  refine ⟨Nat.lt_succ_of_lt hlast, h.lt, hb, hclear, fun j h1 h2 => ?_⟩
  cases comma with
  | none => exact .inr (h.2.2 j h1 h2)
  | some c =>
    obtain ⟨-, rfl, hcomma, hsemi⟩ := h
    rcases Nat.lt_or_eq_of_le (Nat.le_of_lt_succ h2) with hj | rfl
    · exact .inr (hsemi j h1 hj)
    · exact .inl hcomma

/-- Behind an element without a comma stands the closing brace. -/
theorem elementTail_append {tail : List Lexeme} (htail : ∀ l ∈ tail, l.isPassed) (cs : List Char)
    (rest : List Lexeme) : elementTail (tail ++ ⟨.token (.closer .brace), cs⟩ :: rest) = tail := by
  have hdrop : (tail ++ (⟨.token (.closer .brace), cs⟩ : Lexeme) :: rest).dropWhile (·.isPassed) =
      ⟨.token (.closer .brace), cs⟩ :: rest := by
    rw [List.dropWhile_append_of_pos htail]
    simp [Lexeme.isPassed]
  have htake : (tail ++ (⟨.token (.closer .brace), cs⟩ : Lexeme) :: rest).takeWhile (·.isPassed) = tail := by
    rw [List.takeWhile_append_of_pos htail]
    simp [Lexeme.isPassed]
  rw [elementTail, hdrop]
  exact htake

/-- Behind the comma of an element stands the next token. -/
theorem elementTail_append_comma {gap tail : List Lexeme} (hgap : ∀ l ∈ gap, l.isPassed)
    (htail : ∀ l ∈ tail, l.isToken = false) (cs ds : List Char) (k : TokenKind) (rest : List Lexeme) :
    elementTail (gap ++ ⟨.token .comma, cs⟩ :: (tail ++ ⟨.token k, ds⟩ :: rest)) = tail := by
  have hdrop : (gap ++ (⟨.token .comma, cs⟩ : Lexeme) :: (tail ++ ⟨.token k, ds⟩ :: rest)).dropWhile
      (·.isPassed) = ⟨.token .comma, cs⟩ :: (tail ++ ⟨.token k, ds⟩ :: rest) := by
    rw [List.dropWhile_append_of_pos hgap]
    simp [Lexeme.isPassed]
  rw [elementTail, hdrop]
  show List.takeWhile _ _ = _
  rw [List.takeWhile_append_of_pos fun l hl => by simp [htail l hl]]
  simp [Lexeme.isToken]

section Tail

variable {s : Lexed} (hs : s.IsRead) (hclean : ∀ l ∈ lexemes s.text, l.isSound) {last b : Nat}
include hs hclean

/-- The lexemes between two tokens that have only semicolons between them. -/
theorem isPassed_between {x y : Nat} (hx : x < s.size)
    (hsemi : ∀ j, x < j → j < y → s.kindAt j = some .semicolon) {e : Nat × Lexeme}
    (he : e ∈ placed 0 (lexemes s.text)) (h1 : s.stopAt x ≤ e.1) (h2 : e.1 < s.startAt y) :
    e.2.isPassed ∧ e.2.isBetween ∧ (y = x + 1 → e.2.isToken = false) := by
  obtain ⟨p, kind, cs⟩ := e
  have hmem : (⟨kind, cs⟩ : Lexeme) ∈ lexemes s.text := by
    rw [← placed_map_snd 0 (lexemes s.text)]
    exact List.mem_map_of_mem (f := (·.2)) he
  cases kind with
  | openComment => have := hclean _ hmem; simp [Lexeme.isSound] at this
  | token k =>
    obtain ⟨i, hxi, hiy, hk⟩ := hs.token_between he hx h1 h2
    have := hsemi i hxi hiy
    rw [hk, Option.some.injEq] at this
    subst this
    exact ⟨rfl, rfl, fun h => by omega⟩
  | _ => exact ⟨rfl, rfl, fun _ => rfl⟩

/-- The lexemes up to the end of a token, those up to a later one with only semicolons between them, and the
rest. -/
theorem exists_between {x y : Nat} {k : TokenKind} (hk : s.kindAt x = some k) (hsemicolon : k ≠ .semicolon)
    {m : Lexeme} (hm : (s.startAt y, m) ∈ placed 0 (lexemes s.text)) (hxy : x < y) (hy : y < s.size)
    (hsemi : ∀ j, x < j → j < y → s.kindAt j = some .semicolon) :
    ∃ before between rest, lexemes s.text = before ++ between ++ m :: rest ∧
      s.stopAt x = byteLength (lexemesText before) ∧
      s.startAt y = byteLength (lexemesText (before ++ between)) ∧
      ∀ l ∈ between, l.isPassed ∧ l.isBetween ∧ (y = x + 1 → l.isToken = false) := by
  have hne : ∀ l ∈ lexemes s.text, l.text ≠ [] := fun l hl => text_ne_nil_of_mem hl
  obtain ⟨before, between, rest, h, h1, h2⟩ := exists_parts hne (hs.isCut_of_kind hclean hk hsemicolon).2
    (isCut_of_mem hm).1 (hs.stop_le_start hxy hy)
  obtain ⟨rest, rfl⟩ := exists_rest hne h (by rw [← h2]; exact hm)
  refine ⟨before, between, rest, h, h1, h2, fun l hl => ?_⟩
  rw [← placed_map_snd (byteLength (lexemesText before)) between, ← stretch_eq _ h] at hl
  obtain ⟨e, he, rfl⟩ := List.mem_map.mp hl
  obtain ⟨hplaced, hstart, hstop⟩ := mem_stretch.mp he
  exact isPassed_between hs hclean (Lexed.kindAt_lt hk) hsemi hplaced (h1 ▸ hstart) (h2 ▸ hstop)

/-- The lexemes behind an element: up to its comma, those on its line at most, and the rest. -/
theorem exists_tail {comma : Option Nat} (hlast : ∃ k, s.kindAt last = some k ∧ k ≠ .semicolon)
    (hb : b < s.size) (hf : IsFollowed s last b comma) :
    ∃ before gap tail rest, lexemes s.text = before ++ (gap ++ (tail ++ rest)) ∧
      byteLength (lexemesText before) = s.stopAt last ∧
      byteLength (lexemesText (before ++ gap)) = afterComma s last comma ∧
      byteLength (lexemesText (before ++ gap ++ tail)) = s.startAt b ∧
      elementTail (gap ++ (tail ++ rest)) = tail ∧
      (∀ l ∈ gap, l.isBetween) ∧ ∀ l ∈ tail, l.isBetween := by
  obtain ⟨k, hk, hsemi⟩ := hlast
  cases comma with
  | none =>
    obtain ⟨hlb, hclose, hbetween⟩ := hf
    obtain ⟨cs, hplaced, -⟩ := hs.placed_of_kind hclean hclose (by decide)
    obtain ⟨before, tail, rest, h, h1, h2, htail⟩ := exists_between hs hclean hk hsemi hplaced hlb hb hbetween
    exact ⟨before, [], tail, _ :: rest, by simpa using h, h1.symm, by simp [afterComma, h1], by simpa using h2.symm,
      elementTail_append (fun l hl => (htail l hl).1) cs rest, by simp, fun l hl => (htail l hl).2.1⟩
  | some c =>
    obtain ⟨hlc, rfl, hcomma, hbetween⟩ := hf
    obtain ⟨cs, hplaced, hstop⟩ := hs.placed_of_kind hclean hcomma (by decide)
    obtain ⟨kind, ds, hnext⟩ := hs.placed_succ hclean hcomma rfl hb
    obtain ⟨before, gap, rest, h, h1, h2, hgap⟩ :=
      exists_between hs hclean hk hsemi hplaced hlc (Lexed.kindAt_lt hcomma) hbetween
    obtain ⟨before', tail, rest', h', h1', h2', htail⟩ :=
      exists_between hs hclean hcomma (by decide) hnext (Nat.lt_succ_self c) hb fun j _ _ => by omega
    -- the second part begins behind the comma that ends the first
    obtain ⟨rfl, rfl⟩ : before' = before ++ gap ++ [⟨.token .comma, cs⟩] ∧ tail ++ _ :: rest' = rest := by
      refine eq_of_byteLength (fun l hl => text_ne_nil_of_mem hl) (by rw [h', List.append_assoc]) (by rw [h]; simp) ?_
      rw [← h1', hstop, h2]
      simp [byteLength_append, Nat.add_assoc]
    refine ⟨before, gap ++ [⟨.token .comma, cs⟩], tail, ⟨.token kind, ds⟩ :: rest', by rw [h]; simp, h1.symm,
      ?_, ?_, ?_, ?_, fun l hl => (htail l hl).2.1⟩
    · rw [← List.append_assoc, ← h1']
      rfl
    · rw [← List.append_assoc, ← h2']
    · simpa using elementTail_append_comma (fun l hl => (hgap l hl).1) (fun l hl => (htail l hl).2.2 rfl) cs ds kind rest'
    · intro l hl
      rcases List.mem_append.mp hl with hl | hl
      · exact (hgap l hl).2.1
      · rw [List.mem_singleton.mp hl]
        rfl

end Tail

/-! ## The line of an element -/

/-- Up to the end of the first line of a block comment, the search records the comments before it and that line. -/
theorem commentTexts_firstLine {text : List Char} {before between after : List Lexeme} {body : List Char}
    (h : lexemes text = before ++ between ++ ⟨.blockComment, '/' :: '*' :: body⟩ :: after)
    (hbetween : ∀ l ∈ between, l.isBetween) (hend : ∀ l ∈ between, l.beginsWithEnd = false)
    (hbody : throughClose body = some body.length) (hslash : body.head? ≠ some '/') (hline : '\n' ∈ body) :
    commentTexts text ⟨byteLength (lexemesText before), byteLength (lexemesText (before ++ between)) +
        byteLength (('/' :: '*' :: body).takeWhile (· != '\n'))⟩ =
      (commentsBetween text (byteLength (lexemesText before))
          (byteLength (lexemesText (before ++ between)))).map (·.text) ++
        [String.ofList (trimEnd (('/' :: '*' :: body).takeWhile (· != '\n')))] := by
  have hsplit := List.takeWhile_append_dropWhile (p := (· != '\n')) (l := '/' :: '*' :: body)
  have htext : text = lexemesText before ++ ((lexemesText between ++ ('/' :: '*' :: body).takeWhile (· != '\n')) ++
      (('/' :: '*' :: body).dropWhile (· != '\n') ++ lexemesText after)) := by
    have htext := lexemesText_lexemes text
    rw [h, lexemesText_append, lexemesText_append, lexemesText_cons, ← hsplit] at htext
    simp only [← htext, List.append_assoc]
  have hslice := slice_part htext (b := byteLength (lexemesText (before ++ between)) +
    byteLength (('/' :: '*' :: body).takeWhile (· != '\n'))) rfl
    (by simp only [lexemesText_append, byteLength_append, Nat.add_assoc])
  have hpiece : ('/' :: '*' :: body).takeWhile (· != '\n') <+:
      lexemesText (⟨.blockComment, '/' :: '*' :: body⟩ :: after) :=
    (List.takeWhile_prefix _).trans (List.prefix_append _ _)
  have hscan := commentsIn_append h hpiece hbetween hend
  rw [commentsFrom_firstLine _ hbody hslash hline] at hscan
  rw [commentTexts, hslice, hscan, commentsBetween, stretch_eq _ h]
  rfl

/-- What the search records behind an element, up to the end of its line. -/
def RecordsTail (text : List Char) (stop next line : Nat) (cut : Bool) : Prop :=
  (cut = false ∧ IsCut (lexemes text) line ∧ line ≤ next ∧
    commentTexts text ⟨stop, line⟩ = (commentsBetween text stop line).map (·.text)) ∨
  (cut = true ∧ ∃ mid piece c rest, stop ≤ mid ∧ mid ≤ next ∧
    commentsBetween text mid next = c :: rest ∧ piece.length < c.text.length ∧
    commentTexts text ⟨stop, line⟩ = (commentsBetween text stop mid).map (·.text) ++ [piece])

/-- The lexemes between two places may stand between elements, and no comment among them begins with the
characters of a comment's end. -/
def IsSearchedWhole (text : List Char) (stop next : Nat) : Prop :=
  ∀ e ∈ stretch text stop next, e.2.isBetween ∧ e.2.beginsWithEnd = false

/-- A line that ends between two lexemes. -/
theorem recordsTail_whole {text : List Char} {before ms rest after : List Lexeme}
    (h : lexemes text = before ++ (ms ++ rest) ++ after)
    (hall : IsSearchedWhole text (byteLength (lexemesText before)) (byteLength (lexemesText (before ++ (ms ++ rest))))) :
    RecordsTail text (byteLength (lexemesText before)) (byteLength (lexemesText (before ++ (ms ++ rest))))
      (byteLength (lexemesText (before ++ ms))) false := by
  have hstop : IsCut (lexemes text) (byteLength (lexemesText before)) := ⟨before, _, by rw [h, List.append_assoc], rfl⟩
  have hline : IsCut (lexemes text) (byteLength (lexemesText (before ++ ms))) :=
    ⟨before ++ ms, rest ++ after, by rw [h]; simp, rfl⟩
  have hle : byteLength (lexemesText before) ≤ byteLength (lexemesText (before ++ ms)) ∧
      byteLength (lexemesText (before ++ ms)) ≤ byteLength (lexemesText (before ++ (ms ++ rest))) := by
    simp only [lexemesText_append, byteLength_append]
    omega
  have hmem : ∀ e ∈ stretch text (byteLength (lexemesText before)) (byteLength (lexemesText (before ++ ms))),
      e.2.isBetween ∧ e.2.beginsWithEnd = false := by
    intro e he
    obtain ⟨hplaced, h1, h2⟩ := mem_stretch.mp he
    exact hall e (mem_stretch.mpr ⟨hplaced, h1, by omega⟩)
  exact .inl ⟨rfl, hline, hle.2, commentTexts_eq hstop hline hle.1 (fun e he => (hmem e he).1) fun e he => (hmem e he).2⟩

/-- A line that ends within a block comment. -/
theorem recordsTail_cut {text : List Char} {before ms rest after : List Lexeme} {body : List Char}
    (h : lexemes text = before ++ (ms ++ ⟨.blockComment, '/' :: '*' :: body⟩ :: rest) ++ after)
    (hall : IsSearchedWhole text (byteLength (lexemesText before))
      (byteLength (lexemesText (before ++ (ms ++ ⟨.blockComment, '/' :: '*' :: body⟩ :: rest)))))
    (hbody : throughClose body = some body.length) (hline : '\n' ∈ body) :
    RecordsTail text (byteLength (lexemesText before))
      (byteLength (lexemesText (before ++ (ms ++ ⟨.blockComment, '/' :: '*' :: body⟩ :: rest))))
      (byteLength (lexemesText (before ++ ms)) + byteLength (('/' :: '*' :: body).takeWhile (· != '\n'))) true := by
  have hmem : ∀ l ∈ ms ++ (⟨.blockComment, '/' :: '*' :: body⟩ : Lexeme) :: rest,
      l.isBetween ∧ l.beginsWithEnd = false := by
    intro l hl
    rw [← placed_map_snd (byteLength (lexemesText before)) (ms ++ _ :: rest), ← stretch_eq _ h] at hl
    obtain ⟨e, he, rfl⟩ := List.mem_map.mp hl
    exact hall e he
  have hslash := head?_ne_of_beginsWithEnd (hmem ⟨.blockComment, '/' :: '*' :: body⟩ (by simp)).2
  have hbefore : lexemes text = before ++ ms ++ ⟨.blockComment, '/' :: '*' :: body⟩ :: (rest ++ after) := by
    rw [h]
    simp
  have hbehind : lexemes text = before ++ ms ++ (⟨.blockComment, '/' :: '*' :: body⟩ :: rest) ++ after := by
    rw [h]
    simp
  refine .inr ⟨rfl, byteLength (lexemesText (before ++ ms)),
    String.ofList (trimEnd (('/' :: '*' :: body).takeWhile (· != '\n'))),
    ⟨byteLength (lexemesText (before ++ ms)), String.ofList (trimEnd ('/' :: '*' :: body))⟩,
    (placed (byteLength (lexemesText (before ++ ms)) + byteLength ('/' :: '*' :: body)) rest).filterMap commentOf,
    ?_, ?_, ?_, ?_, ?_⟩
  · simp only [lexemesText_append, byteLength_append]
    omega
  · simp only [lexemesText_append, byteLength_append]
    omega
  · rw [← List.append_assoc, commentsBetween, stretch_eq _ hbehind]
    rfl
  · simpa using length_trimEnd_firstLine_lt hbody hline
  · exact commentTexts_firstLine hbefore (fun l hl => (hmem l (List.mem_append_left _ hl)).1)
      (fun l hl => (hmem l (List.mem_append_left _ hl)).2) hbody hslash hline

theorem recordsTail {s : Lexed} (hs : s.IsRead) (hclean : ∀ l ∈ lexemes s.text, l.isSound)
    {last b : Nat} {comma : Option Nat} (hlast : ∃ k, s.kindAt last = some k ∧ k ≠ .semicolon)
    (hb : b < s.size) (hf : IsFollowed s last b comma)
    (hend : ∀ e ∈ stretch s.text (s.stopAt last) (s.startAt b), e.2.beginsWithEnd = false) :
    afterComma s last comma ≤ lineEnd s.text ⟨afterComma s last comma, s.startAt b⟩ ∧
      RecordsTail s.text (s.stopAt last) (s.startAt b)
        (lineEnd s.text ⟨afterComma s last comma, s.startAt b⟩)
        (breaksComment (elementTail (lexemes (dropBytes (s.stopAt last) s.text)))) := by
  obtain ⟨before, gap, tail, rest, h, h1, h2, h3, htail, hgap, hbetween⟩ :=
    exists_tail hs hclean hlast hb hf
  have hdrop : lexemes (dropBytes (s.stopAt last) s.text) = gap ++ (tail ++ rest) := by
    have htext := lexemesText_lexemes s.text
    rw [h, lexemesText_append] at htext
    rw [← h1, ← htext, dropBytes_byteLength]
    exact lexemes_of_append _ h
  have hslice : slice s.text ⟨afterComma s last comma, s.startAt b⟩ = lexemesText tail := by
    rw [← h2, ← h3]
    exact slice_eq rest (by rw [h]; simp)
  have hall : IsSearchedWhole s.text (s.stopAt last) (s.startAt b) := by
    refine fun e he => ⟨?_, hend e he⟩
    rw [← h1, ← h3, List.append_assoc, stretch_eq rest (by rw [h]; simp)] at he
    have hmem := List.mem_map_of_mem (f := (·.2)) he
    rw [placed_map_snd] at hmem
    exact (List.mem_append.mp hmem).elim (hgap _) (hbetween _)
  have hcut : lexemes (lexemesText (tail ++ rest)) = tail ++ rest :=
    lexemes_of_append (before ++ gap) (by rw [h, List.append_assoc])
  have hsum : ∀ ms, byteLength (lexemesText (before ++ (gap ++ ms))) =
      afterComma s last comma + byteLength (lexemesText ms) := fun ms => by
    rw [← h2]
    simp only [lexemesText_append, byteLength_append, Nat.add_assoc]
  rw [hdrop, htail, lineEnd, hslice]
  refine ⟨Nat.le_add_right _ _, ?_⟩
  rw [← h1, ← h3, List.append_assoc] at hall ⊢
  dsimp only
  rcases endsLine hcut hbetween with ⟨hno, ms, rest', rfl, hline⟩ | ⟨hyes, ms, body, rest', rfl, hmem, hclose, hline⟩
  · have hparts : lexemes s.text = before ++ (gap ++ ms ++ rest') ++ rest := by
      rw [h]
      simp
    rw [← List.append_assoc gap] at hall ⊢
    rw [hno, hline, ← hsum]
    exact recordsTail_whole hparts hall
  · have hparts : lexemes s.text =
        before ++ (gap ++ ms ++ ⟨.blockComment, '/' :: '*' :: body⟩ :: rest') ++ rest := by
      rw [h]
      simp
    rw [← List.append_assoc gap] at hall ⊢
    rw [hyes, hline, byteLength_append, ← Nat.add_assoc, ← hsum]
    exact recordsTail_cut hparts hall hclose hmem

/-! ## Handing out -/

theorem append_unique {α : Type} {p : α → Bool} {xs ys xs' ys' : List α}
    (h : xs ++ ys = xs' ++ ys') (hx : ∀ a ∈ xs, p a) (hx' : ∀ a ∈ xs', p a)
    (hy : ∀ a ∈ ys, p a = false) (hy' : ∀ a ∈ ys', p a = false) : xs = xs' ∧ ys = ys' := by
  have hfilter : ∀ us vs : List α, (∀ a ∈ us, p a) → (∀ a ∈ vs, p a = false) →
      (us ++ vs).filter p = us := by
    intro us vs hu hv
    rw [List.filter_append, List.filter_eq_self.mpr hu, List.filter_eq_nil_iff.mpr, List.append_nil]
    intro a ha
    simp [hv a ha]
  have hxs : xs = xs' := by rw [← hfilter xs ys hx hy, h, hfilter xs' ys' hx' hy']
  exact ⟨hxs, List.append_cancel_left (hxs ▸ h)⟩

/-- An element takes the comments in front of it and those in its value; whatever stands in its key is left
over. -/
theorem isHandedOut_cons {D : List String} {e : Element} {es : List Element}
    {front key inner behind : List Comment} (h1 : e.span.start ≤ e.value.start)
    (h2 : e.value.start ≤ e.value.stop) (h3 : e.value.stop = e.span.stop)
    (hfront : ∀ c ∈ front, c.offset < e.span.start)
    (hkey : ∀ c ∈ key, e.span.start ≤ c.offset ∧ c.offset < e.value.start)
    (hinner : ∀ c ∈ inner, e.value.contains c.offset)
    (hbehind : ∀ c ∈ behind, e.span.stop ≤ c.offset) (hleading : e.leading = front.map (·.text)) :
    IsHandedOut D (e :: es) (front ++ (key ++ (inner ++ behind))) ↔
      key = [] ∧ ∃ trailing rest, behind = trailing ++ rest ∧ joinComments trailing = e.trailing ∧
        IsHandedOut D es rest := by
  have hvalue : ∀ c : Comment, e.value.contains c.offset →
      e.value.start ≤ c.offset ∧ c.offset < e.span.stop := by
    intro c hc
    simp only [Span.contains, Bool.and_eq_true, decide_eq_true_eq] at hc
    omega
  constructor
  · rintro ⟨front', inner', trailing, rest, heq, hf, -, hi, ht, hjoin, hrest⟩
    rw [List.append_assoc, List.append_assoc] at heq
    have hle : ∀ c ∈ key ++ (inner ++ behind), e.span.start ≤ c.offset := by
      intro c hc
      rcases List.mem_append.mp hc with hc | hc
      · exact (hkey c hc).1
      · rcases List.mem_append.mp hc with hc | hc
        · have := hvalue c (hinner c hc); omega
        · have := hbehind c hc; omega
    have hle' : ∀ c ∈ inner' ++ (trailing ++ rest), e.value.start ≤ c.offset := by
      intro c hc
      rcases List.mem_append.mp hc with hc | hc
      · exact (hvalue c (hi c hc)).1
      · have := ht c hc; omega
    obtain ⟨-, heq⟩ := append_unique (p := fun c => c.offset < e.span.start) heq
      (by simpa using hfront) (by simpa using hf) (by simpa using hle)
      (fun c hc => by have := hle' c hc; simp only [decide_eq_false_iff_not]; omega)
    have hnil : key = [] := by
      cases key with
      | nil => rfl
      | cons c key =>
        have hlt := (hkey c (by simp)).2
        have := hle' c (by rw [← heq]; simp)
        omega
    subst hnil
    rw [List.nil_append] at heq
    obtain ⟨-, heq⟩ := append_unique (p := fun c => c.offset < e.span.stop) heq
      (fun c hc => by simpa using (hvalue c (hinner c hc)).2)
      (fun c hc => by simpa using (hvalue c (hi c hc)).2)
      (fun c hc => by simpa using hbehind c hc) (fun c hc => by simpa using ht c hc)
    exact ⟨rfl, trailing, rest, heq, hjoin, hrest⟩
  · rintro ⟨rfl, trailing, rest, rfl, hjoin, hrest⟩
    exact ⟨front, inner, trailing, rest, by simp, hfront, hleading.symm, hinner, hbehind, hjoin, hrest⟩

/-- The length of comments in a row with blanks between them. -/
def joinedLength (texts : List String) : Nat := (" ".intercalate texts).length

theorem joinedLength_append {xs ys : List String} (hx : xs ≠ []) (hy : ys ≠ []) :
    joinedLength (xs ++ ys) = joinedLength xs + 1 + joinedLength ys := by
  have hblank : " ".length = 1 := rfl
  rw [joinedLength, String.intercalate_append_of_ne_nil hx hy]
  simp [joinedLength, hblank]

theorem joinedLength_lt (xs ys : List String) (hx : xs ≠ []) (hy : ys ≠ []) :
    joinedLength xs < joinedLength (xs ++ ys) := by
  rw [joinedLength_append hx hy]
  omega

theorem joinComments_eq_some {cs : List Comment} {t : String} (h : joinComments cs = some t) :
    cs ≠ [] ∧ joinedLength (cs.map (·.text)) = t.length := by
  unfold joinComments at h
  cases cs with
  | nil => simp at h
  | cons c cs =>
    simp only [List.isEmpty_cons, Bool.false_eq_true, ↓reduceIte, Option.some.injEq] at h
    exact ⟨by simp, by rw [joinedLength, h]⟩

/-- Of the beginnings of a list of comments no two read the same. -/
theorem eq_of_joinComments {cs cs' ds ds' : List Comment} (h : cs ++ ds = cs' ++ ds')
    (hjoin : joinComments cs = joinComments cs') : cs = cs' ∧ ds = ds' := by
  have hcase : ∀ xs zs : List Comment, joinComments (xs ++ zs) = joinComments xs → zs = [] := by
    intro xs zs he
    cases zs with
    | nil => rfl
    | cons z zs =>
      cases xs with
      | nil => simp [joinComments] at he
      | cons x xs =>
        have hsome : joinComments (x :: xs) = some (" ".intercalate ((x :: xs).map (·.text))) := by
          simp [joinComments]
        have h1 := (joinComments_eq_some hsome).2
        rw [hsome] at he
        have h2 := (joinComments_eq_some he).2
        rw [List.map_append] at h2
        have := joinedLength_lt ((x :: xs).map (·.text)) ((z :: zs).map (·.text))
          (by simp) (by simp)
        omega
  rcases List.append_eq_append_iff.mp h with ⟨zs, rfl, rfl⟩ | ⟨zs, rfl, rfl⟩
  · have := hcase cs zs hjoin.symm
    subst this
    simp
  · have := hcase cs' zs hjoin
    subst this
    simp

/-- A text that ends in less than the next comment is no beginning of the comments. -/
theorem joinComments_ne {cs ds ts rest : List Comment} {c : Comment} {piece : String}
    (h : ts ++ rest = cs ++ c :: ds) (hlt : piece.length < c.text.length) :
    joinComments ts ≠ some (" ".intercalate (cs.map (·.text) ++ [piece])) := by
  intro hjoin
  obtain ⟨hne, hlen⟩ := joinComments_eq_some hjoin
  rw [← joinedLength] at hlen
  have hsingle : ∀ t : String, joinedLength [t] = t.length := fun t => by simp [joinedLength]
  rcases List.append_eq_append_iff.mp h with ⟨zs, rfl, -⟩ | ⟨zs, rfl, hz⟩
  · -- no further than the comments before
    have hle : joinedLength (ts.map (·.text)) ≤ joinedLength ((ts ++ zs).map (·.text)) := by
      cases zs with
      | nil => simp
      | cons z zs =>
        rw [List.map_append]
        exact Nat.le_of_lt (joinedLength_lt _ _ (by simpa using hne) (by simp))
    have := joinedLength_lt ((ts ++ zs).map (·.text)) [piece] (by simp [hne]) (by simp)
    omega
  · cases zs with
    | nil =>
      rw [List.append_nil] at hlen hne
      have := joinedLength_lt (cs.map (·.text)) [piece] (by simpa using hne) (by simp)
      omega
    | cons z zs =>
      rw [List.cons_append, List.cons.injEq] at hz
      obtain ⟨rfl, -⟩ := hz
      have hone : joinedLength ((c :: zs).map (·.text)) ≥ c.text.length := by
        cases zs with
        | nil => simp [hsingle]
        | cons z zs =>
          have := joinedLength_lt [c.text] ((z :: zs).map (·.text)) (by simp) (by simp)
          rw [hsingle] at this
          simpa using Nat.le_of_lt this
      cases cs with
      | nil =>
        simp only [List.nil_append, List.map_nil] at hlen
        rw [hsingle] at hlen
        omega
      | cons d cs =>
        rw [List.map_append, joinedLength_append (by simp) (by simp),
          joinedLength_append (by simp) (by simp), hsingle] at hlen
        omega

/-! ## Values and elements -/

/-- A value lies within its element and ends with it. -/
theorem valueSpan_bounds {s : Lexed} (hs : s.IsRead) (hclean : ∀ l ∈ lexemes s.text, l.isSound)
    {first last : Nat} (hfl : first ≤ last) (hlast : last < s.size) {v : Span}
    (hv : v = valueSpan s (elementKey s first last).1 (elementKey s first last).2 last) :
    v.stop = s.stopAt last ∧ s.startAt first ≤ v.start ∧ v.start ≤ v.stop := by
  have hstart := Nat.le_trans (hs.start_le_start hfl hlast) (Lexed.start_le_stop hlast)
  subst hv
  unfold elementKey
  cases hc : keyColon s first last (last + 1 - first) first with
  | none => exact ⟨rfl, Nat.le_refl _, hstart⟩
  | some colon =>
    obtain ⟨-, hle, hlt, hkind⟩ := keyColon_spec hs.matched hc
    by_cases hval : colon < last
    · simp only [hval, ↓reduceIte, valueSpan, Nat.add_sub_cancel]
      have hnext : colon + 1 < s.size := by omega
      obtain ⟨kind, cs, hplaced⟩ := hs.placed_succ hclean hkind rfl hnext
      obtain ⟨before, gap, after, h, h1, h2⟩ := exists_parts (fun l hl => text_ne_nil_of_mem hl)
        (hs.isCut_of_kind hclean hkind (by decide)).2 (isCut_of_mem hplaced).1
        (hs.stop_le_start (Nat.lt_succ_self colon) hnext)
      have hgap : slice s.text ⟨s.stopAt colon, s.startAt (colon + 1)⟩ = lexemesText gap := by
        rw [h1, h2]
        exact slice_eq _ h
      have hlen : s.startAt (colon + 1) = s.stopAt colon + byteLength (lexemesText gap) := by
        rw [h1, h2, lexemesText_append, byteLength_append]
      have hend := Nat.le_trans (hs.start_le_start (show colon + 1 ≤ last from hval) hlast)
        (Lexed.start_le_stop hlast)
      have hbegin := Nat.le_trans (hs.start_le_start (Nat.le_of_lt hlt) (by omega))
        (Lexed.start_le_stop (show colon < s.size by omega))
      rw [hgap]
      exact ⟨trivial, by omega, by omega⟩
    · simp only [hval, ↓reduceIte, valueSpan]
      exact ⟨rfl, hstart, Nat.le_refl _⟩

/-- The position after the comma of an element lies between it and what follows, and is a cut. -/
theorem IsFollowed.isCut_afterComma {s : Lexed} (hs : s.IsRead) (hclean : ∀ l ∈ lexemes s.text, l.isSound)
    {last b : Nat} {comma : Option Nat} (h : IsFollowed s last b comma) (hb : b < s.size)
    (hlast : s.kindAt last ≠ some .semicolon) :
    IsCut (lexemes s.text) (afterComma s last comma) ∧ s.stopAt last ≤ afterComma s last comma ∧
      afterComma s last comma ≤ s.startAt b := by
  cases comma with
  | none =>
    obtain ⟨k, hk, hne⟩ := Lexed.exists_kind (Nat.lt_trans h.lt hb) hlast
    exact ⟨(hs.isCut_of_kind hclean hk hne).2, Nat.le_refl _, hs.stop_le_start h.lt hb⟩
  | some c =>
    obtain ⟨hlc, rfl, hk, -⟩ := h
    exact ⟨(hs.isCut_of_kind hclean hk (by decide)).2, hs.stop_le_stop (Nat.le_of_lt hlc) (Lexed.kindAt_lt hk),
      hs.stop_le_start (Nat.lt_succ_self c) hb⟩

/-- The texts that are recorded behind an element. -/
def tailTexts (s : Lexed) (last b : Nat) (comma : Option Nat) : List String :=
  commentTexts s.text ⟨s.stopAt last, lineEnd s.text ⟨afterComma s last comma, s.startAt b⟩⟩

/-- An element that is followed by a token as it is read. -/
theorem IsFollowed.readElement_eq {s : Lexed} {rbrace gapStart first last b : Nat} {comma : Option Nat}
    (h : IsFollowed s last b comma) (hnone : comma = none → b = rbrace)
    (hafter : afterComma s last comma ≤ s.startAt b) (hgap : gapStart ≤ s.startAt first) :
    readElement s rbrace gapStart first last comma =
      (⟨(elementKey s first last).1,
          valueSpan s (elementKey s first last).1 (elementKey s first last).2 last,
          ⟨s.startAt first, s.stopAt last⟩, commentTexts s.text ⟨gapStart, s.startAt first⟩,
          if (tailTexts s last b comma).isEmpty then none else some (" ".intercalate (tailTexts s last b comma))⟩,
        if (tailTexts s last b comma).isEmpty then afterComma s last comma
          else lineEnd s.text ⟨afterComma s last comma, s.startAt b⟩) := by
  have hb : (comma.map (· + 1)).getD rbrace = b := by
    cases comma with
    | none => exact (hnone rfl).symm
    | some c => exact h.2.1.symm
  have hnext : max (s.startAt ((comma.map (· + 1)).getD rbrace)) (afterComma s last comma) =
      s.startAt b := by
    rw [hb, Nat.max_eq_left hafter]
  simp only [readElement, tailTexts, ← afterComma.eq_1, hnext, Nat.min_eq_left hgap]
  rfl

/-! ## The comments of all elements -/

/-- The comments placed from one position up to another that no inner brackets enclose. -/
def ownBetween (s : Lexed) (lbrace p q : Nat) : List Comment :=
  (commentsBetween s.text p q).filter fun c => !s.isInside (s.startAt lbrace) c.offset

theorem ownBetween_append (s : Lexed) (lbrace : Nat) {p q r : Nat} (hpq : p ≤ q) (hqr : q ≤ r) :
    ownBetween s lbrace p r = ownBetween s lbrace p q ++ ownBetween s lbrace q r := by
  rw [ownBetween, commentsBetween_append s.text hpq hqr, List.filter_append]
  rfl

theorem mem_ownBetween {s : Lexed} {lbrace p q : Nat} {c : Comment} (h : c ∈ ownBetween s lbrace p q) :
    p ≤ c.offset ∧ c.offset < q :=
  mem_commentsBetween (List.mem_filter.mp h).1

theorem mem_ownBetween_of_mem {s : Lexed} {lbrace p q p' q' : Nat} {c : Comment}
    (h : c ∈ ownBetween s lbrace p q) (hp : p' ≤ c.offset) (hq : c.offset < q') :
    c ∈ ownBetween s lbrace p' q' := by
  obtain ⟨hc, hin⟩ := List.mem_filter.mp h
  obtain ⟨e, he, heq⟩ := List.mem_filterMap.mp hc
  rw [commentOf_offset heq] at hp hq
  refine List.mem_filter.mpr ⟨List.mem_filterMap.mpr ⟨e, ?_, heq⟩, hin⟩
  exact mem_stretch.mpr ⟨(mem_stretch.mp he).1, hp, hq⟩

/-- In a gap every comment is the literal's own. -/
theorem ownBetween_gap {s : Lexed} (hs : s.IsRead) {lbrace a b p q : Nat} (hg : IsGap s lbrace a b)
    (hp : s.stopAt (a - 1) ≤ p) (hq : q ≤ s.startAt b) :
    ownBetween s lbrace p q = commentsBetween s.text p q := by
  rw [ownBetween, List.filter_eq_self]
  intro c hc
  have := mem_commentsBetween hc
  rw [hg.not_inside hs (by omega) (by omega)]
  rfl

theorem IsGap.extend {s : Lexed} {lbrace a i b : Nat} (hg : IsGap s lbrace a i) (hib : i ≤ b)
    (hb : b < s.size)
    (hkinds : ∀ j, i ≤ j → j < b → s.kindAt j = some .comma ∨ s.kindAt j = some .semicolon) :
    IsGap s lbrace a b := by
  refine ⟨hg.after, Nat.le_trans hg.le hib, hb, hg.clear, fun j h1 h2 => ?_⟩
  by_cases hj : j < i
  · exact hg.kinds j h1 hj
  · exact hkinds j (by omega) h2

section Kept

variable {s : Lexed} (hs : s.IsRead) (hclean : ∀ l ∈ lexemes s.text, l.isSound) {lbrace rbrace : Nat}
  (hend : ∀ e ∈ stretch s.text (s.stopAt lbrace) (s.startAt rbrace),
    s.isInside (s.startAt lbrace) e.1 = false → e.2.beginsWithEnd = false)
include hs hclean hend

/-- In a gap the search records the literal's own comments. -/
theorem commentTexts_gap {a b p q : Nat} (hg : IsGap s lbrace a b) (hb : b ≤ rbrace)
    (hr : rbrace < s.size) (hp : s.stopAt (a - 1) ≤ p) (hq : q ≤ s.startAt b) (hpq : p ≤ q)
    (hcp : IsCut (lexemes s.text) p) (hcq : IsCut (lexemes s.text) q) :
    commentTexts s.text ⟨p, q⟩ = (ownBetween s lbrace p q).map (·.text) := by
  have hfirst : s.stopAt lbrace ≤ s.stopAt (a - 1) :=
    hs.stop_le_stop (by have := hg.after; omega) (by have := hg.le; omega)
  have hlast := hs.start_le_start hb hr
  rw [ownBetween_gap hs hg hp hq]
  refine commentTexts_eq hcp hcq hpq (fun e he => ?_) fun e he => ?_
  · obtain ⟨hm, h1, h2⟩ := mem_stretch.mp he
    exact hg.isBetween hs hclean hm (by omega) (by omega)
  · obtain ⟨hm, h1, h2⟩ := mem_stretch.mp he
    exact hend e (mem_stretch.mpr ⟨hm, by omega, by omega⟩) (hg.not_inside hs (by omega) (by omega))

omit hs hclean hend in
/-- On a line that is not cut the comments up to its end are recorded behind the element, and those after it are
left over. Where there are none, those after the comma are. -/
theorem joinComments_tail {last after line : Nat} {texts : List String}
    (htexts : texts = (ownBetween s lbrace (s.stopAt last) line).map (·.text)) (hafter : s.stopAt last ≤ after)
    (hline : after ≤ line) (hrbrace : line ≤ s.startAt rbrace) :
    joinComments (ownBetween s lbrace (s.stopAt last) line) =
        (if texts.isEmpty then none else some (" ".intercalate texts)) ∧
      ownBetween s lbrace (s.stopAt last) (s.startAt rbrace) = ownBetween s lbrace (s.stopAt last) line ++
        ownBetween s lbrace (if texts.isEmpty then after else line) (s.startAt rbrace) := by
  subst htexts
  refine ⟨by simp [joinComments], ?_⟩
  have hpart := ownBetween_append s lbrace (Nat.le_trans hafter hline) hrbrace
  by_cases hempty : ownBetween s lbrace (s.stopAt last) line = []
  · have hnone : ownBetween s lbrace after line = [] := by
      rw [ownBetween_append s lbrace hafter hline] at hempty
      exact (List.append_eq_nil_iff.mp hempty).2
    rw [hpart, if_pos (by simp [hempty]), ownBetween_append s lbrace hline hrbrace, hnone, List.nil_append]
  · rw [if_neg (by simpa using hempty)]
    exact hpart

/-- What an element records, and where the comments after it begin. -/
theorem readElement_spec {a first last b gapStart : Nat} {comma : Option Nat}
    (hg : IsGap s lbrace a first) (hgs : s.stopAt (a - 1) ≤ gapStart)
    (hgf : gapStart ≤ s.startAt first) (hcut : IsCut (lexemes s.text) gapStart)
    (hfl : first ≤ last) (hclear : s.IsClear lbrace (last + 1))
    (hkf : s.kindAt first ≠ some .semicolon) (hkl : s.kindAt last ≠ some .semicolon)
    (hf : IsFollowed s last b comma) (hb : b ≤ rbrace) (hr : rbrace < s.size)
    (hnone : comma = none → b = rbrace) {e : Element} {next : Nat}
    (he : readElement s rbrace gapStart first last comma = (e, next)) :
    e.span = ⟨s.startAt first, s.stopAt last⟩ ∧
    (e.value.stop = s.stopAt last ∧ s.startAt first ≤ e.value.start ∧ e.value.start ≤ e.value.stop) ∧
    e.leading = (ownBetween s lbrace gapStart (s.startAt first)).map (·.text) ∧
    ((e.cutsComment s.text = false ∧ IsCut (lexemes s.text) next ∧ s.stopAt last ≤ next ∧
        next ≤ s.startAt b ∧ ∃ trailing, joinComments trailing = e.trailing ∧
          ownBetween s lbrace (s.stopAt last) (s.startAt rbrace) =
            trailing ++ ownBetween s lbrace next (s.startAt rbrace)) ∨
      (e.cutsComment s.text = true ∧ ∃ cs c ds piece,
        ownBetween s lbrace (s.stopAt last) (s.startAt rbrace) = cs ++ c :: ds ∧
          piece.length < c.text.length ∧
          e.trailing = some (" ".intercalate (cs.map (·.text) ++ [piece])))) := by
  have hlb := hf.lt
  have hbsize : b < s.size := Nat.lt_of_le_of_lt hb hr
  have hlast : last < s.size := Nat.lt_trans hlb hbsize
  have hlbrace : lbrace < first := Nat.lt_of_lt_of_le hg.after hg.le
  have hgap := hf.isGap (Nat.lt_of_lt_of_le hlbrace hfl) hbsize hclear
  have hbr := hs.start_le_start hb hr
  obtain ⟨hcutAfter, hafter, hafterb⟩ := hf.isCut_afterComma hs hclean hbsize hkl
  have hendTail : ∀ e ∈ stretch s.text (s.stopAt last) (s.startAt b), e.2.beginsWithEnd = false := by
    intro e he
    obtain ⟨hm, h1, h2⟩ := mem_stretch.mp he
    have hfirst : s.stopAt lbrace ≤ s.stopAt last := hs.stop_le_stop (by omega) hlast
    exact hend e (mem_stretch.mpr ⟨hm, by omega, by omega⟩)
      (hgap.not_inside hs (by simpa using h1) h2)
  obtain ⟨hline, htail⟩ := recordsTail hs hclean (Lexed.exists_kind hlast hkl) hbsize hf hendTail
  obtain ⟨kf, hkindf, hkf⟩ := Lexed.exists_kind (Nat.lt_of_le_of_lt hfl hlast) hkf
  have hlead := commentTexts_gap hs hclean hend hg (by omega) hr hgs (Nat.le_refl _) hgf hcut
    (hs.isCut_of_kind hclean hkindf hkf).1
  rw [hf.readElement_eq hnone hafterb hgf] at he
  obtain ⟨rfl, rfl⟩ := Prod.mk.inj he
  refine ⟨rfl, valueSpan_bounds hs hclean hfl hlast rfl, hlead, ?_⟩
  rcases htail with ⟨hno, hcutline, hlineb, htexts⟩ | ⟨hyes, mid, piece, c, rest, hmid, hmidb, hc, hlt, htexts⟩
  · left
    rw [← ownBetween_gap hs hgap (p := s.stopAt last) (by simp) hlineb] at htexts
    obtain ⟨hjoin, hrest⟩ := joinComments_tail htexts hafter hline (Nat.le_trans hlineb hbr)
    refine ⟨hno, ?_, ?_, ?_, _, hjoin, hrest⟩
    · split
      · exact hcutAfter
      · exact hcutline
    · split
      · exact hafter
      · exact Nat.le_trans hafter hline
    · split
      · exact hafterb
      · exact hlineb
  · right
    refine ⟨hyes, ownBetween s lbrace (s.stopAt last) mid, c,
      rest ++ ownBetween s lbrace (s.startAt b) (s.startAt rbrace), piece, ?_, hlt, ?_⟩
    · rw [ownBetween_append s lbrace hmid (Nat.le_trans hmidb hbr), ownBetween_append s lbrace hmidb hbr,
        ownBetween_gap hs hgap (p := mid) (by simpa using hmid) (Nat.le_refl _), hc]
      simp
    · rw [← ownBetween_gap hs hgap (p := s.stopAt last) (by simp) hmidb] at htexts
      have htail : tailTexts s last b comma = _ := htexts
      simp [htail]

/-- What the elements from a position on do to the comments from there on: all are handed out exactly when
no line is cut and no key holds one, and those after the position `next` are left for the end. -/
def KeepsFrom (s : Lexed) (lbrace rbrace gapStart : Nat) (es : List Element) (next : Nat) : Prop :=
  ((∀ e ∈ es, e.cutsComment s.text = false) →
    IsCut (lexemes s.text) next ∧ next ≤ s.startAt rbrace ∧
      ∃ a, IsGap s lbrace a rbrace ∧ s.stopAt (a - 1) ≤ next) ∧
  ∀ D, IsHandedOut D es (ownBetween s lbrace gapStart (s.startAt rbrace)) ↔
    (∀ e ∈ es, e.cutsComment s.text = false) ∧
    (∀ e ∈ es, ∀ c ∈ ownBetween s lbrace (s.stopAt lbrace) (s.startAt rbrace),
      e.inKey c.offset = false) ∧
    (ownBetween s lbrace next (s.startAt rbrace)).map (·.text) = D

omit hs hclean hend in
theorem keepsFrom_nil {a gapStart : Nat} (hg : IsGap s lbrace a rbrace)
    (hgs : s.stopAt (a - 1) ≤ gapStart) (hgr : gapStart ≤ s.startAt rbrace)
    (hcut : IsCut (lexemes s.text) gapStart) : KeepsFrom s lbrace rbrace gapStart [] gapStart :=
  ⟨fun _ => ⟨hcut, hgr, a, hg, hgs⟩, fun D => by simp [IsHandedOut]⟩

omit hs hclean hend in
/-- A key holds a comment of the literal's own exactly when one stands between the element's start and its
value's. -/
theorem ownBetween_key (s : Lexed) (lbrace : Nat) {e : Element} {p q : Nat} (hfirst : p ≤ e.span.start)
    (hlast : e.value.start ≤ q) :
    ownBetween s lbrace e.span.start e.value.start = [] ↔
      ∀ c ∈ ownBetween s lbrace p q, e.inKey c.offset = false := by
  constructor
  · intro hnil c hc
    rw [← Bool.not_eq_true]
    intro hin
    simp only [Element.inKey, Bool.and_eq_true, decide_eq_true_eq] at hin
    have := mem_ownBetween_of_mem hc hin.1 hin.2
    rw [hnil] at this
    cases this
  · intro hall
    rw [List.eq_nil_iff_forall_not_mem]
    intro c hc
    have hbounds := mem_ownBetween hc
    have := hall c (mem_ownBetween_of_mem hc (by omega) (by omega))
    simp only [Element.inKey, Bool.and_eq_false_iff, decide_eq_false_iff_not] at this
    omega

omit hs hclean hend in
/-- The comments from before an element on are handed out when none stands in its key and those behind it are
shared between its line and the elements after it. -/
theorem isHandedOut_ownBetween {gapStart q : Nat} {e : Element} (hgap : gapStart ≤ e.span.start)
    (hkey : e.span.start ≤ e.value.start) (hvalue : e.value.start ≤ e.value.stop)
    (hstop : e.value.stop = e.span.stop) (hlast : e.span.stop ≤ q)
    (hleading : e.leading = (ownBetween s lbrace gapStart e.span.start).map (·.text)) (es : List Element)
    (D : List String) :
    IsHandedOut D (e :: es) (ownBetween s lbrace gapStart q) ↔
      ownBetween s lbrace e.span.start e.value.start = [] ∧ ∃ trailing rest,
        ownBetween s lbrace e.span.stop q = trailing ++ rest ∧
          joinComments trailing = e.trailing ∧ IsHandedOut D es rest := by
  -- the comments in front of the element, in its key, in its value and behind it
  have hparts : ownBetween s lbrace gapStart q =
      ownBetween s lbrace gapStart e.span.start ++
        (ownBetween s lbrace e.span.start e.value.start ++
          (ownBetween s lbrace e.value.start e.span.stop ++
            ownBetween s lbrace e.span.stop q)) := by
    rw [ownBetween_append s lbrace hgap (by omega), ownBetween_append s lbrace hkey (by omega),
      ownBetween_append s lbrace (show e.value.start ≤ e.span.stop by omega) hlast]
  rw [hparts]
  refine isHandedOut_cons hkey hvalue hstop ?_ ?_ ?_ ?_ hleading
  · intro c hc
    exact (mem_ownBetween hc).2
  · intro c hc
    exact mem_ownBetween hc
  · intro c hc
    have := mem_ownBetween hc
    simp only [Span.contains, Bool.and_eq_true, decide_eq_true_eq]
    omega
  · intro c hc
    exact (mem_ownBetween hc).1

/-- One more element in front. -/
theorem KeepsFrom.cons (comma : Option Nat) {a first last b gapStart : Nat}
    (hg : IsGap s lbrace a first) (hgs : s.stopAt (a - 1) ≤ gapStart)
    (hgf : gapStart ≤ s.startAt first) (hcut : IsCut (lexemes s.text) gapStart)
    (hfl : first ≤ last) (hclear : s.IsClear lbrace (last + 1))
    (hkf : s.kindAt first ≠ some .semicolon) (hkl : s.kindAt last ≠ some .semicolon)
    (hf : IsFollowed s last b comma) (hb : b ≤ rbrace) (hr : rbrace < s.size)
    (hnone : comma = none → b = rbrace) {e : Element} {next next' : Nat} {es : List Element}
    (he : readElement s rbrace gapStart first last comma = (e, next))
    (ih : IsCut (lexemes s.text) next → s.stopAt last ≤ next → next ≤ s.startAt b →
      KeepsFrom s lbrace rbrace next es next') :
    KeepsFrom s lbrace rbrace gapStart (e :: es) next' := by
  obtain ⟨hspan, ⟨hv1, hv2, hv3⟩, hleading, htail⟩ :=
    readElement_spec hs hclean hend hg hgs hgf hcut hfl hclear hkf hkl hf hb hr hnone he
  have hlast := hs.stop_le_start (Nat.lt_of_lt_of_le hf.lt hb) hr
  have hfirst := hs.stop_le_start (Nat.lt_of_lt_of_le hg.after hg.le) hg.lt
  have hstart : e.span.start = s.startAt first := congrArg Span.start hspan
  have hstop : e.span.stop = s.stopAt last := congrArg Span.stop hspan
  have hkey := ownBetween_key s lbrace (hstart.symm ▸ hfirst) (show e.value.start ≤ s.startAt rbrace by omega)
  have hstep := isHandedOut_ownBetween (hstart.symm ▸ hgf) (hstart.symm ▸ hv2) hv3 (hstop.symm ▸ hv1)
    (hstop.symm ▸ hlast) (hstart.symm ▸ hleading) es
  rw [hstart] at hkey hstep
  rw [hstop] at hstep
  rcases htail with ⟨hno, hcutn, hn1, hn2, trailing, hjoin, hbehind⟩ |
    ⟨hyes, cs, c, ds, piece, hbehind, hlt, htrail⟩
  · obtain ⟨hend', hiff⟩ := ih hcutn hn1 hn2
    refine ⟨fun hall => hend' fun e' he' => hall e' (by simp [he']), fun D => ?_⟩
    rw [hstep, hkey]
    constructor
    · rintro ⟨hk, t, rest, heq, hj, hrest⟩
      obtain ⟨rfl, rfl⟩ := eq_of_joinComments (hbehind.symm.trans heq) (hjoin.trans hj.symm)
      obtain ⟨h1, h2, h3⟩ := (hiff D).mp hrest
      exact ⟨List.forall_mem_cons.mpr ⟨hno, h1⟩, List.forall_mem_cons.mpr ⟨hk, h2⟩, h3⟩
    · rintro ⟨h1, h2, h3⟩
      rw [List.forall_mem_cons] at h1 h2
      exact ⟨h2.1, trailing, _, hbehind, hjoin, (hiff D).mpr ⟨h1.2, h2.2, h3⟩⟩
  · refine ⟨fun hall => ?_, fun D => ⟨fun h => ?_, fun h => ?_⟩⟩
    · rw [hall e (by simp)] at hyes
      cases hyes
    · obtain ⟨-, t, rest, heq, hj, -⟩ := (hstep D).mp h
      exact absurd (hj.trans htrail) (joinComments_ne (heq.symm.trans hbehind) hlt)
    · have := h.1 e (by simp)
      rw [hyes] at this
      cases this

/-- Where an element is read from one gap and followed by another one, its comments are kept. -/
theorem KeepsFrom.element {i a b gapStart stop first last mid next : Nat} {comma : Option Nat} {e : Element}
    {es : List Element} (piece : IsPiece s lbrace i stop (some (first, last)))
    (hf : IsFollowed s last b comma) (hb : b ≤ rbrace) (hr : rbrace < s.size) (hnone : comma = none → b = rbrace)
    (read : readElement s rbrace gapStart first last comma = (e, mid)) (hg : IsGap s lbrace a i)
    (hgs : s.stopAt (a - 1) ≤ gapStart) (hgi : gapStart ≤ s.startAt i) (hcut : IsCut (lexemes s.text) gapStart)
    (ih : IsGap s lbrace (last + 1) b → s.stopAt (last + 1 - 1) ≤ mid → mid ≤ s.startAt b →
      IsCut (lexemes s.text) mid → KeepsFrom s lbrace rbrace mid es next) :
    KeepsFrom s lbrace rbrace gapStart (e :: es) next := by
  have helement : IsElement s lbrace i stop first last := piece.isExtent
  have h1 := helement.le_first
  have h2 := helement.first_le_last
  have h3 := hf.lt
  have hgap : IsGap s lbrace a first :=
    hg.extend h1 (by omega) fun j hj1 hj2 => .inr (helement.before j hj1 hj2)
  have hstart := hs.start_le_start h1 (show first < s.size by omega)
  have hgap' : IsGap s lbrace (last + 1) b :=
    hf.isGap (Nat.lt_of_lt_of_le (Nat.lt_of_lt_of_le piece.behind h1) h2) (by omega) helement.clear_last
  exact KeepsFrom.cons hs hclean hend comma hgap hgs (by omega) hcut h2 helement.clear_last
    helement.first_kind.1 helement.last_kind.1 hf hb hr hnone read
    fun hc hm1 hm2 => ih hgap' (by simpa using hm1) hm2 hc

/-- The elements that are read from a place on keep the comments from there on. -/
theorem ReadsElements.keepsFrom (hbrace : s.closerOf lbrace = some rbrace)
    (hkind : s.kindAt rbrace = some (.closer .brace)) {i a gapStart next : Nat} {es : List Element}
    (h : ReadsElements s lbrace rbrace i gapStart es next) (hg : IsGap s lbrace a i)
    (hgs : s.stopAt (a - 1) ≤ gapStart) (hgi : gapStart ≤ s.startAt i)
    (hcut : IsCut (lexemes s.text) gapStart) : KeepsFrom s lbrace rbrace gapStart es next := by
  have hr : rbrace < s.size := (hs.matched.closer_spec hbrace).2.1
  induction h generalizing a with
  | nil piece =>
    have hstart := hs.start_le_start piece.le_stop hr
    exact keepsFrom_nil (hg.extend piece.le_stop hr fun j hj1 hj2 => .inr (piece.isExtent j hj1 hj2)) hgs
      (Nat.le_trans hgi hstart) hcut
  | last piece read =>
    have helement := piece.isExtent
    have hfollowed : IsFollowed s _ rbrace none := ⟨helement.last_lt, hkind, helement.after⟩
    exact KeepsFrom.element hs hclean hend piece hfollowed (Nat.le_refl _) hr (fun _ => rfl) read hg hgs hgi hcut
      keepsFrom_nil
  | @skip i gap stop es next piece lt comma rest ih =>
    have hle := piece.le_stop
    have hgap : IsGap s lbrace a (stop + 1) := by
      refine hg.extend (by omega) (by omega) fun j hj1 hj2 => ?_
      rcases Nat.lt_or_eq_of_le (Nat.le_of_lt_succ hj2) with hj | rfl
      · exact .inr (piece.isExtent j hj1 hj)
      · exact .inl comma
    exact ih hgap hgs (Nat.le_trans hgi (hs.start_le_start (by omega) (by omega))) hcut
  | @cons i gap stop first last e mid es next piece lt comma read rest ih =>
    have helement := piece.isExtent
    have hfollowed : IsFollowed s last (stop + 1) (some stop) := ⟨helement.last_lt, rfl, comma, helement.after⟩
    exact KeepsFrom.element hs hclean hend piece hfollowed lt hr (by simp) read hg hgs hgi hcut ih

end Kept

/-! ## The comments of a literal -/

theorem filterMap_filter_comm {α β : Type} {f : α → Option β} {p : α → Bool} {q : β → Bool}
    {xs : List α} (h : ∀ x ∈ xs, ∀ y, f x = some y → q y = p x) :
    (xs.filterMap f).filter q = (xs.filter p).filterMap f := by
  induction xs with
  | nil => rfl
  | cons x xs ih =>
    have ih := ih fun y hy => h y (by simp [hy])
    cases hf : f x with
    | none =>
      rw [List.filterMap_cons_none hf, ih]
      by_cases hp : p x
      · rw [List.filter_cons_of_pos hp, List.filterMap_cons_none hf]
      · rw [List.filter_cons_of_neg hp]
    | some y =>
      have hq := h x (by simp) y hf
      rw [List.filterMap_cons_some hf]
      by_cases hp : p x
      · rw [List.filter_cons_of_pos (by rw [hq, hp]), List.filter_cons_of_pos hp,
          List.filterMap_cons_some hf, ih]
      · rw [List.filter_cons_of_neg (by rw [hq]; exact hp), List.filter_cons_of_neg hp, ih]

/-- The comments between the braces of a literal, by position. -/
theorem ownComments_eq {text : List Char} {s : Lexed} (hs : s = (Lexed.ofText text).1)
    (hclean : ∀ l ∈ lexemes text, l.isSound) {l : CompositeLiteral} {lbrace rbrace : Nat}
    (hk : s.kindAt lbrace = some (.opener .brace)) (hl : l.lbrace = s.startAt lbrace)
    (hr : l.rbrace = s.startAt rbrace) :
    ownComments text l = ownBetween s lbrace (s.stopAt lbrace) (s.startAt rbrace) := by
  have hread : s.IsRead := hs ▸ Lexed.isRead_ofText text
  have htext : s.text = text := by rw [hs]; rfl
  obtain ⟨cs, hplaced, hstop⟩ := hread.placed_of_kind (by rwa [htext]) hk (by decide)
  rw [htext] at hplaced
  have hpos : 0 < byteLength cs := by
    refine byteLength_pos (@text_ne_nil_of_mem text ⟨.token (.opener .brace), cs⟩ ?_)
    rw [← placed_map_snd 0 (lexemes text)]
    exact List.mem_map_of_mem (f := (·.2)) hplaced
  rw [ownComments, skippedComments, ownBetween, htext, commentsBetween, stretch, ← hs, hl, hr]
  rw [← filterMap_filter_comm (q := fun c => s.stopAt lbrace ≤ c.offset && c.offset < s.startAt rbrace)
    (fun e _ c hc => by rw [commentOf_offset hc]), List.filter_filter]
  refine List.filter_congr fun c hc => ?_
  obtain ⟨⟨p, m⟩, he, hc⟩ := List.mem_filterMap.mp hc
  have hoff := commentOf_offset hc
  simp only at hoff
  have hiff : s.startAt lbrace < p ↔ s.stopAt lbrace ≤ p := by
    constructor
    · intro h
      have := placed_disjoint hplaced he h
      simp only at this
      omega
    · intro h
      omega
  simp only [hoff, hiff]
  rw [Bool.and_comm]

/-- A block comment keeps its characters when white space after it is taken off. -/
theorem trimEnd_of_beginsWithEnd {text : List Char} {p : Nat} {l : Lexeme}
    (h : (p, l) ∈ placed 0 (lexemes text)) (hl : l.beginsWithEnd = true) :
    commentOf (p, l) = some ⟨p, String.ofList l.text⟩ ∧ ['/', '*', '/'] <+: l.text := by
  obtain ⟨before, after, hls, -⟩ := mem_placed h
  obtain ⟨cs, htext, -, hc⟩ := commentOf_beginsWithEnd (isFormed_of_lexemes (lexemes_of_append _ hls)) hl p
  exact ⟨hc, cs, htext.symm⟩

/-- The comments of a literal are kept exactly when none stands in a key and no element's line ends within
one. Comments that begin with the characters of a comment's end are set aside. -/
theorem keepsComments_iff {text : List Char} (hclean : (tokenize text).2 = [])
    {l : CompositeLiteral} (hl : l ∈ (SourceFile.parse text).literals)
    (hend : ∀ c ∈ ownComments text l, ¬ ['/', '*', '/'] <+: c.text.toList) :
    KeepsComments text l ↔
      (∀ e ∈ l.elements, e.cutsComment text = false) ∧
        ∀ e ∈ l.elements, ∀ c ∈ ownComments text l, e.inKey c.offset = false := by
  obtain ⟨o, lbrace, rbrace, ds, hhere⟩ := exists_literalHere hl
  obtain ⟨type, -, hk, -, hbrace, rfl⟩ := Outline.literalHere_eq_some.mp hhere
  have hsound : ∀ m ∈ lexemes text, m.isSound := isSound_of_diagnostics hclean
  generalize hs : (Lexed.ofText text).1 = s at *
  have hread : s.IsRead := hs ▸ Lexed.isRead_ofText text
  have htext : s.text = text := by rw [← hs]; rfl
  subst htext
  have hown := ownComments_eq (l := Outline.literalAt s type o.index lbrace rbrace) hs.symm hsound hk rfl rfl
  obtain ⟨hlr, hr, b, hk', hclose⟩ := hread.matched.closer_spec hbrace
  rw [hk, Option.some.injEq, TokenKind.opener.injEq] at hk'
  subst hk'
  have hend' : ∀ e ∈ stretch s.text (s.stopAt lbrace) (s.startAt rbrace),
      s.isInside (s.startAt lbrace) e.1 = false → e.2.beginsWithEnd = false := by
    rintro ⟨p, m⟩ he hin
    rw [← Bool.not_eq_true]
    intro hm
    obtain ⟨hplaced, h1, h2⟩ := mem_stretch.mp he
    obtain ⟨hc, hpre⟩ := trimEnd_of_beginsWithEnd hplaced hm
    refine hend ⟨p, String.ofList m.text⟩ ?_ (by simpa using hpre)
    rw [hown]
    refine List.mem_filter.mpr ⟨List.mem_filterMap.mpr ⟨(p, m), he, hc⟩, ?_⟩
    simpa using hin
  obtain ⟨cs, hplaced, hstop⟩ := hread.placed_of_kind hsound hk (by decide)
  have hcut := (isCut_of_mem hplaced).2
  simp only at hcut
  rw [← hstop] at hcut
  have hgap : IsGap s lbrace (lbrace + 1) (lbrace + 1) :=
    ⟨Nat.lt_succ_self _, Nat.le_refl _, by omega, Lexed.isClear_start s lbrace, fun j _ _ => by omega⟩
  obtain ⟨next, hreads, hrest⟩ := splitElements_readsElements hread.matched hbrace
  obtain ⟨hnext, hiff⟩ := ReadsElements.keepsFrom hread hsound hend' hbrace hclose hreads hgap (by simp)
    (hread.stop_le_start (Nat.lt_succ_self _) (by omega)) hcut
  have helements : (Outline.literalAt s type o.index lbrace rbrace).elements = (splitElements s lbrace rbrace).1 := rfl
  have hdangling : (Outline.literalAt s type o.index lbrace rbrace).dangling =
      commentTexts s.text ⟨min next (s.startAt rbrace), s.startAt rbrace⟩ := hrest
  rw [KeepsComments, helements, hdangling, hown, hiff]
  constructor
  · rintro ⟨h1, h2, -⟩
    exact ⟨h1, h2⟩
  · rintro ⟨h1, h2⟩
    obtain ⟨hcutn, hle, a, hg, hga⟩ := hnext h1
    obtain ⟨cs', hplaced', -⟩ := hread.placed_of_kind hsound hclose (by decide)
    refine ⟨h1, h2, ?_⟩
    rw [Nat.min_eq_left hle, commentTexts_gap hread hsound hend' hg (Nat.le_refl _) hr hga
      (Nat.le_refl _) hle hcutn (isCut_of_mem hplaced').1]

/-- A literal with a comment at each place where one is kept. -/
def commentedText : List Char :=
  "package p\nvar x = T\x7b // a\n\tA: 1, // b\n\t// c\n\tB: /* d */ f(/* x */ 2) /* e */,\n\t// f\n\x7d\n".toList

theorem keepsComments_commentedText :
    (tokenize commentedText).2 = [] ∧
      (SourceFile.parse commentedText).literals.map (fun l => (ownComments commentedText l).length) =
        [6] ∧
      (∀ l ∈ (SourceFile.parse commentedText).literals, ∀ c ∈ ownComments commentedText l,
        ¬ ['/', '*', '/'] <+: c.text.toList) ∧
      ∀ l ∈ (SourceFile.parse commentedText).literals, KeepsComments commentedText l := by
  have hall : (tokenize commentedText).2 = [] ∧
      (SourceFile.parse commentedText).literals.map (fun l => (ownComments commentedText l).length) =
        [6] ∧
      (∀ l ∈ (SourceFile.parse commentedText).literals, ∀ c ∈ ownComments commentedText l,
        ¬ ['/', '*', '/'] <+: c.text.toList) ∧
      ∀ l ∈ (SourceFile.parse commentedText).literals,
        (∀ e ∈ l.elements, e.cutsComment commentedText = false) ∧
          ∀ e ∈ l.elements, ∀ c ∈ ownComments commentedText l, e.inKey c.offset = false := by
    decide +kernel
  obtain ⟨hclean, hlength, hend, hcond⟩ := hall
  exact ⟨hclean, hlength, hend, fun l hl => (keepsComments_iff hclean hl (hend l hl)).mpr (hcond l hl)⟩

end LiteralFill
