import LiteralFill.Proofs.Elements
import LiteralFill.Proofs.Lexing.Whole
import LiteralFill.Proofs.Literals

/-!
What becomes of the comments of a literal. A comment at the literal's own nesting belongs in front of an
element, inside its value, behind it, or at the end of the literal. Two things go wrong: a comment inside a
key belongs nowhere and is dropped, and a block comment that holds the first line break behind an element is
cut there, so that its first line is recorded and the rest is not.
-/

namespace LiteralFill

/-! ## The comments of a literal -/

/-- The comments that the scan of a text passes over. -/
def skippedComments (text : List Char) : List Comment :=
  (placed 0 (lexemes text)).filterMap commentOf

/-- A position lies inside brackets that open after `start`. -/
def Lexed.isInside (s : Lexed) (start offset : Nat) : Bool :=
  (List.range s.size).any fun i =>
    decide (start < s.startAt i) &&
      match s.closerOf i with
      | some close => decide (s.startAt i < offset) && decide (offset < s.startAt close)
      | none => false

/-- The comments between the braces of a literal that no inner brackets enclose. -/
def ownComments (text : List Char) (l : CompositeLiteral) : List Comment :=
  (skippedComments text).filter fun c =>
    l.lbrace < c.offset && c.offset < l.rbrace &&
      !(Lexed.ofText text).1.isInside l.lbrace c.offset

/-- Comments behind an element, as one text. -/
def joinComments (comments : List Comment) : Option String :=
  if comments.isEmpty then none else some (" ".intercalate (comments.map (·.text)))

/-- Comments handed out, whole and in order: each stands in front of an element and in its leading list,
inside its value, behind it and in its trailing text, or after the last element. -/
def IsHandedOut (dangling : List String) : List Element → List Comment → Prop
  | [], comments => comments.map (·.text) = dangling
  | e :: es, comments =>
    ∃ leading inner trailing rest, comments = leading ++ inner ++ trailing ++ rest ∧
      (∀ c ∈ leading, c.offset < e.span.start) ∧ leading.map (·.text) = e.leading ∧
      (∀ c ∈ inner, e.value.contains c.offset) ∧
      (∀ c ∈ trailing ++ rest, e.span.stop ≤ c.offset) ∧ joinComments trailing = e.trailing ∧
      IsHandedOut dangling es rest

/-- Every comment of a literal's own is kept, whole, once and in order. -/
def KeepsComments (text : List Char) (l : CompositeLiteral) : Prop :=
  IsHandedOut l.dangling l.elements (ownComments text l)

/-! ## Where it goes wrong -/

/-- A lexeme that is no token, or a semicolon. -/
def Lexeme.isPassed (l : Lexeme) : Bool :=
  match l.kind with
  | .token .semicolon => true
  | .token _ => false
  | _ => true

/-- Of the lexemes behind an element those that may hold comments on its line: the ones after its comma
up to the next token, or those before the closing brace. -/
def elementTail (ls : List Lexeme) : List Lexeme :=
  match ls.dropWhile (·.isPassed) with
  | ⟨.token .comma, _⟩ :: rest => rest.takeWhile fun l => !l.isToken
  | _ => ls.takeWhile (·.isPassed)

/-- The first line break among lexemes is within a comment. -/
def breaksComment : List Lexeme → Bool
  | [] => false
  | l :: ls =>
    match l.kind with
    | .newline => false
    | .blockComment => l.text.contains '\n' || breaksComment ls
    | _ => breaksComment ls

/-- The line of an element ends within a comment. -/
def Element.cutsComment (text : List Char) (e : Element) : Bool :=
  breaksComment (elementTail (lexemes (dropBytes e.span.stop text)))

/-- A position within an element and before its value. -/
def Element.inKey (e : Element) (offset : Nat) : Bool :=
  e.span.start ≤ offset && offset < e.value.start

/-! ## Gaps between elements -/

/-- The tokens from `a` up to `b` stand between elements, outside inner brackets. -/
structure IsGap (s : Lexed) (lbrace a b : Nat) : Prop where
  after : lbrace < a
  le : a ≤ b
  lt : b < s.size
  clear : s.IsClear lbrace a
  kinds : ∀ j, a ≤ j → j < b → s.kindAt j = some .comma ∨ s.kindAt j = some .semicolon

section Gap

variable {s : Lexed} (hs : s.IsRead) {lbrace a b : Nat} (hg : IsGap s lbrace a b)
include hs hg

theorem IsGap.not_inside {offset : Nat} (h1 : s.stopAt (a - 1) ≤ offset)
    (h2 : offset < s.startAt b) : s.isInside (s.startAt lbrace) offset = false := by
  rw [Lexed.isInside, List.any_eq_false]
  intro i hi hbad
  have hi : i < s.size := List.mem_range.mp hi
  rw [Bool.and_eq_true, decide_eq_true_eq] at hbad
  obtain ⟨hstart, hbad⟩ := hbad
  cases hc : s.closerOf i with
  | none => simp [hc] at hbad
  | some c =>
    simp only [hc, Bool.and_eq_true, decide_eq_true_eq] at hbad
    have hli : lbrace < i := by
      rcases Nat.lt_or_ge lbrace i with h | h
      · exact h
      · have := hs.start_le_start h (by have := hg.after; have := hg.le; have := hg.lt; omega)
        omega
    have hib : i < b := by
      rcases Nat.lt_or_ge i b with h | h
      · exact h
      · have := hs.start_le_start h hi
        omega
    obtain ⟨bracket, -, hk, -⟩ := hs.matched.opener_of_closerOf hc
    have hia : i < a := by
      rcases Nat.lt_or_ge i a with h | h
      · exact h
      · rcases hg.kinds i h hib with h' | h' <;> rw [hk] at h' <;> cases h'
    have hca := hg.clear i c hli hia hc
    have hlast : a - 1 < s.size := by have := hg.le; have := hg.lt; omega
    have := hs.start_le_start (show c ≤ a - 1 by omega) hlast
    have := Lexed.start_le_stop hlast
    omega

/-- The lexemes of a gap may stand between elements. -/
theorem IsGap.isBetween (hclean : ∀ l ∈ lexemes s.text, l.isSound) {e : Nat × Lexeme}
    (he : e ∈ placed 0 (lexemes s.text)) (h1 : s.stopAt (a - 1) ≤ e.1) (h2 : e.1 < s.startAt b) :
    e.2.isBetween := by
  obtain ⟨p, kind, cs⟩ := e
  have hmem : (⟨kind, cs⟩ : Lexeme) ∈ lexemes s.text := by
    rw [← placed_map_snd 0 (lexemes s.text)]
    exact List.mem_map_of_mem (f := (·.2)) he
  cases kind with
  | openComment => have := hclean _ hmem; simp [Lexeme.isSound] at this
  | token k =>
    have ha : a - 1 < s.size := by have := hg.le; have := hg.lt; omega
    obtain ⟨i, hai, hib, hk⟩ := hs.token_between he ha h1 h2
    rcases hg.kinds i (by omega) hib with h | h <;>
      (rw [hk] at h; simp only [Option.some.injEq] at h; subst h; rfl)
  | _ => rfl

end Gap

/-! ## What the search records -/

/-- The comments placed from one position up to another. -/
def commentsBetween (text : List Char) (p q : Nat) : List Comment :=
  (stretch text p q).filterMap commentOf

theorem commentsBetween_append (text : List Char) {p q r : Nat} (hpq : p ≤ q) (hqr : q ≤ r) :
    commentsBetween text p r = commentsBetween text p q ++ commentsBetween text q r := by
  rw [commentsBetween, stretch_append text hpq hqr, List.filterMap_append]
  rfl

theorem commentOf_offset {e : Nat × Lexeme} {c : Comment} (h : commentOf e = some c) :
    c.offset = e.1 := by
  unfold commentOf at h
  split at h <;> simp at h <;> rw [← h]

theorem mem_commentsBetween {text : List Char} {p q : Nat} {c : Comment}
    (h : c ∈ commentsBetween text p q) : p ≤ c.offset ∧ c.offset < q := by
  obtain ⟨e, he, hc⟩ := List.mem_filterMap.mp h
  rw [commentOf_offset hc]
  exact (mem_stretch.mp he).2

/-- The text of a comment does not depend on its place. -/
theorem texts_placed (p q : Nat) (ls : List Lexeme) :
    ((placed p ls).filterMap commentOf).map (·.text) =
      ((placed q ls).filterMap commentOf).map (·.text) := by
  induction ls generalizing p q with
  | nil => rfl
  | cons l ls ih =>
    obtain ⟨kind, cs⟩ := l
    have := ih (p + byteLength cs) (q + byteLength cs)
    cases kind <;> simp [commentOf, List.filterMap_cons, this]

/-- The search of lexemes between elements, with the beginning of what follows them. -/
theorem commentsIn_append {text r : List Char} {before between after : List Lexeme}
    (h : lexemes text = before ++ between ++ after) (hr : r <+: lexemesText after)
    (hbetween : ∀ l ∈ between, l.isBetween) (hend : ∀ l ∈ between, l.beginsWithEnd = false) :
    (commentsIn (lexemesText between ++ r)).map (·.text) =
      ((placed (byteLength (lexemesText before)) between).filterMap commentOf).map (·.text) ++
        (commentsFrom (byteLength (lexemesText between)) 0 r).map (·.text) := by
  have hcut : lexemes (lexemesText (between ++ after)) = between ++ after := by
    rw [List.append_assoc] at h
    exact lexemes_of_append _ h
  rw [commentsIn, commentsFrom_lexemes 0 hcut hr hbetween hend, List.map_append,
    texts_placed 0 (byteLength (lexemesText before)), Nat.zero_add]

/-- Between two cuts the search records the comments placed between them. -/
theorem commentTexts_eq {text : List Char} {p q : Nat} (hp : IsCut (lexemes text) p)
    (hq : IsCut (lexemes text) q) (hpq : p ≤ q) (hbetween : ∀ e ∈ stretch text p q, e.2.isBetween)
    (hend : ∀ e ∈ stretch text p q, e.2.beginsWithEnd = false) :
    commentTexts text ⟨p, q⟩ = (commentsBetween text p q).map (·.text) := by
  obtain ⟨before, between, after, h, rfl, rfl⟩ :=
    exists_parts (fun l hl => text_ne_nil_of_mem hl) hp hq hpq
  rw [stretch_eq _ h] at hbetween hend
  have hmem : ∀ l ∈ between, ∃ e ∈ placed (byteLength (lexemesText before)) between, e.2 = l := by
    intro l hl
    rw [← placed_map_snd (byteLength (lexemesText before)) between] at hl
    obtain ⟨e, he, rfl⟩ := List.mem_map.mp hl
    exact ⟨e, he, rfl⟩
  have hscan := commentsIn_append h (List.nil_prefix) (fun l hl => by
      obtain ⟨e, he, rfl⟩ := hmem l hl
      exact hbetween e he) fun l hl => by
      obtain ⟨e, he, rfl⟩ := hmem l hl
      exact hend e he
  rw [commentTexts, slice_eq _ h, commentsBetween, stretch_eq _ h]
  simpa [commentsFrom] using hscan

/-! ## Lines that end within a comment -/

/-- The first line of a text with a line break is shorter than the text. -/
theorem length_firstLine_lt {cs : List Char} (h : '\n' ∈ cs) :
    (cs.takeWhile (· != '\n')).length < cs.length := by
  induction cs with
  | nil => cases h
  | cons c cs ih =>
    by_cases hc : c = '\n'
    · simp [hc]
    · rw [List.takeWhile_cons_of_pos (by simpa using hc)]
      simpa using ih ((List.mem_cons.mp h).resolve_left (Ne.symm hc))

/-- The part of a block comment on its first line is recorded in its place. -/
theorem commentsFrom_firstLine {body : List Char} (offset : Nat)
    (hbody : throughClose body = some body.length) (hslash : body.head? ≠ some '/')
    (hline : '\n' ∈ body) :
    commentsFrom offset 0 (('/' :: '*' :: body).takeWhile (· != '\n')) =
      [⟨offset, String.ofList (trimEnd (('/' :: '*' :: body).takeWhile (· != '\n')))⟩] := by
  have htake : ('/' :: '*' :: body).takeWhile (· != '\n') =
      '/' :: '*' :: body.takeWhile (· != '\n') := rfl
  have hopen : throughClose (body.takeWhile (· != '\n')) = none := by
    rw [Option.eq_none_iff_forall_ne_some]
    intro n hn
    have hle := throughClose_le hn
    have hlt := length_firstLine_lt hline
    rw [← List.append_nil (body.takeWhile _)] at hn
    have := throughClose_append (body.dropWhile (· != '\n')) hn hle
    rw [List.takeWhile_append_dropWhile, hbody, Option.some.injEq] at this
    omega
  have hhead : (body.takeWhile (· != '\n')).head? ≠ some '/' := by
    cases body with
    | nil => simp
    | cons d s =>
      by_cases hd : d = '\n'
      · simp [hd]
      · simpa [List.takeWhile_cons, hd] using hslash
  have hlen : commentLength ('/' :: '*' :: body.takeWhile (· != '\n')) =
      some ('/' :: '*' :: body.takeWhile (· != '\n')).length := by
    simp only [commentLength]
    rw [throughClose_cons, if_neg (fun hc => absurd hc.1 (by decide)), throughClose_cons,
      if_neg (fun hc => hhead hc.2), hopen]
    rfl
  have := commentsFrom_append_of_length ('/' :: '*' :: body.takeWhile (· != '\n')) offset []
    (by simp) (by rwa [List.append_nil])
  rw [List.append_nil] at this
  rw [htake, this]
  rfl

/-- What is recorded of a block comment up to the end of its first line is shorter than the comment. -/
theorem length_trimEnd_firstLine_lt {body : List Char} (hbody : throughClose body = some body.length)
    (hline : '\n' ∈ body) :
    (trimEnd (('/' :: '*' :: body).takeWhile (· != '\n'))).length < (trimEnd ('/' :: '*' :: body)).length := by
  rw [trimEnd_blockComment hbody]
  exact Nat.lt_of_le_of_lt (trimEnd_length_le _) (length_firstLine_lt (by simp [hline]))

theorem takeWhile_append_of_not_mem {cs r : List Char} (h : '\n' ∉ cs) :
    (cs ++ r).takeWhile (· != '\n') = cs ++ r.takeWhile (· != '\n') := by
  rw [List.takeWhile_append_of_pos]
  intro d hd
  rw [bne_iff_ne]
  rintro rfl
  exact h hd

/-- Where the first line of lexemes ends: between two of them, or within a block comment. -/
def EndsLine (ls : List Lexeme) : Prop :=
  (breaksComment ls = false ∧
    ∃ ms rest, ls = ms ++ rest ∧ (lexemesText ls).takeWhile (· != '\n') = lexemesText ms) ∨
  (breaksComment ls = true ∧
    ∃ ms body rest, ls = ms ++ ⟨.blockComment, '/' :: '*' :: body⟩ :: rest ∧ '\n' ∈ body ∧
      throughClose body = some body.length ∧
      (lexemesText ls).takeWhile (· != '\n') =
        lexemesText ms ++ ('/' :: '*' :: body).takeWhile (· != '\n'))

theorem breaksComment_cons_of_ne {l : Lexeme} (ls : List Lexeme) (hnewline : l.kind ≠ .newline)
    (hblock : l.kind ≠ .blockComment) : breaksComment (l :: ls) = breaksComment ls := by
  rw [breaksComment]
  split
  · exact absurd ‹_› hnewline
  · exact absurd ‹_› hblock
  · rfl

theorem endsLine {ls after : List Lexeme} (h : lexemes (lexemesText (ls ++ after)) = ls ++ after)
    (hbetween : ∀ l ∈ ls, l.isBetween) : EndsLine ls := by
  induction ls with
  | nil => exact .inl ⟨rfl, [], [], rfl, rfl⟩
  | cons l ls ih =>
    have ih := ih (lexemes_of_append [l] h) fun m hm => hbetween m (by simp [hm])
    -- a lexeme without a line break leads on to those after it
    have hpass : '\n' ∉ l.text → breaksComment (l :: ls) = breaksComment ls →
        EndsLine (l :: ls) := by
      intro hno hbreak
      rw [EndsLine, hbreak, lexemesText_cons, takeWhile_append_of_not_mem hno]
      rcases ih with ⟨hb, ms, rest, rfl, hline⟩ | ⟨hb, ms, body, rest, rfl, hmem, hclose, hline⟩
      · exact .inl ⟨hb, l :: ms, rest, rfl, by rw [hline, lexemesText_cons]⟩
      · exact .inr ⟨hb, l :: ms, body, rest, rfl, hmem, hclose, by
          rw [hline, lexemesText_cons, List.append_assoc]⟩
    rcases (isFormed_of_lexemes h).between_cases (hbetween l (by simp)) with
      rfl | ⟨-, hno, hnewline, -, hblock⟩ | ⟨body, rfl, hbody, -⟩ | ⟨body, rfl, hbody⟩
    · exact .inl ⟨rfl, [], _, rfl, rfl⟩
    · exact hpass hno (breaksComment_cons_of_ne ls hnewline hblock)
    · exact hpass (by simpa using fun hmem => hbody _ hmem rfl) rfl
    · by_cases hmem : '\n' ∈ body
      · have hshort := length_firstLine_lt (show '\n' ∈ '/' :: '*' :: body by simp [hmem])
        refine .inr ⟨by simp [breaksComment, hmem], [], body, ls, rfl, hmem, hbody, ?_⟩
        rw [lexemesText_cons, lexemesText_nil, List.nil_append, List.takeWhile_append,
          if_neg (Nat.ne_of_lt hshort)]
      · exact hpass (by simp [hmem]) (by simp [breaksComment, hmem])

end LiteralFill
