import LiteralFill.Proofs.Comments
import LiteralFill.Proofs.Filled.Line
import LiteralFill.Proofs.Replacement
import Mathlib.Data.List.Forall2

/-!
A literal whose elements stand on lines of their own reads back line by line: each line gives one element, with
its key, its value and the comments that belong to it, and what follows the last line is left to the literal.
-/

namespace LiteralFill

/-! ## Slices of parts -/

/-- What is taken of a text beyond its beginning. -/
theorem takeBytes_append_of_le {n : Nat} {x : List Char} (h : byteLength x ≤ n) (y : List Char) :
    takeBytes n (x ++ y) = x ++ takeBytes (n - byteLength x) y := by
  induction x generalizing n with
  | nil => rw [List.nil_append, byteLength, Nat.sub_zero, List.nil_append]
  | cons c x ih =>
    have hpos := Char.utf8Size_pos c
    rw [byteLength] at h ⊢
    rw [List.cons_append, takeBytes, if_neg (by omega), ih (by omega), List.cons_append, Nat.sub_sub]

theorem takeBytes_zero (x : List Char) : takeBytes 0 x = [] := by
  cases x <;> rfl

/-- The first line of a span ends at the first newline. -/
theorem lineEnd_eq {text x y z : List Char} (h : text = x ++ (y ++ '\n' :: z)) (hy : '\n' ∉ y) {b : Nat}
    (hb : byteLength x + byteLength y < b) :
    lineEnd text ⟨byteLength x, b⟩ = byteLength x + byteLength y := by
  have hslice : slice text ⟨byteLength x, b⟩ = y ++ '\n' :: takeBytes (b - byteLength x - byteLength y - 1) z := by
    have hpos : b - byteLength x - byteLength y ≠ 0 := by omega
    rw [h, slice, Span.length, dropBytes_byteLength]
    show takeBytes (b - byteLength x) _ = _
    rw [takeBytes_append_of_le (by omega), takeBytes, if_neg hpos]
    rfl
  rw [lineEnd, hslice, takeWhile_append_of_not_mem hy]
  simp

/-- The texts of comments do not depend on where the search begins. -/
theorem commentsFrom_texts (offset offset' skip : Nat) (cs : List Char) :
    (commentsFrom offset skip cs).map (·.text) = (commentsFrom offset' skip cs).map (·.text) := by
  induction cs generalizing offset offset' skip with
  | nil => cases skip <;> rfl
  | cons c cs ih =>
    cases skip with
    | succ skip => exact ih _ _ _
    | zero =>
      rw [commentsFrom, commentsFrom]
      cases commentLength (c :: cs) with
      | none => exact ih _ _ _
      | some n => exact congrArg (_ :: ·) (ih _ _ _)

theorem commentsIn_cons_of_ne {c : Char} (hc : c ≠ '/') (cs : List Char) :
    (commentsIn (c :: cs)).map (·.text) = (commentsIn cs).map (·.text) := by
  rw [commentsIn, commentsFrom_cons_of_ne _ _ hc]
  exact commentsFrom_texts _ _ _ _

/-! ## The tokens of a line -/

namespace Line

/-- The number of tokens of the value. -/
def count (l : Line) : Nat := (kindsWithin false l.value).length

/-- Where the key begins in a line at a position. -/
def keyStart (l : Line) (p : Nat) : Nat := p + byteLength ('\n' :: l.gap)

/-- Where the key ends and the colon begins. -/
def keyStop (l : Line) (p : Nat) : Nat := l.keyStart p + byteLength l.key

/-- Where the value begins. -/
def valueStart (l : Line) (p : Nat) : Nat := l.keyStop p + 1 + byteLength l.pad

/-- Where the value ends and the comma begins. -/
def valueStop (l : Line) (p : Nat) : Nat := l.valueStart p + byteLength l.value

theorem byteLength_text (l : Line) (p : Nat) :
    p + byteLength l.text = l.valueStop p + 1 + byteLength l.tail := by
  have hcolon : (':' : Char).utf8Size = 1 := rfl
  have hcomma : (',' : Char).utf8Size = 1 := rfl
  simp only [text, valueStop, valueStart, keyStop, keyStart, byteLength, byteLength_append, hcolon, hcomma]
  omega

/-- A line stands at a position of a text, its key being the token of an index. -/
structure StandsAt (s : Lexed) (l : Line) (i p : Nat) : Prop where
  key : s.tokens[i]? = some ⟨.ident, l.keyStart p, l.key⟩
  colon : s.tokens[i + 1]? = some ⟨.colon, l.keyStop p, [':']⟩
  value (k : Nat) : k < l.count →
    s.tokens[i + 2 + k]? = (tokensWithin (l.valueStart p) false (lexemes l.value)).1[k]?
  comma : s.tokens[i + 2 + l.count]? = some ⟨.comma, l.valueStop p, [',']⟩
  text : ∃ before rest, s.text = before ++ (l.text ++ '\n' :: rest) ∧ byteLength before = p

variable {s : Lexed} {l : Line} {i p : Nat} {rest : List Char}

/-- The lexemes of a line. What follows it is read on its own. -/
theorem IsSound.lexemes_append (hl : l.IsSound) (hrest : IsNextLine rest) : ∃ gs ts,
    lexemes (l.text ++ rest) = gs ++ ⟨.token .ident, l.key⟩ :: ⟨.token .colon, [':']⟩ :: ⟨.blank, l.pad⟩ ::
      (lexemes l.value ++ ⟨.token .comma, [',']⟩ :: (ts ++ lexemes rest)) ∧
    lexemesText gs = '\n' :: l.gap ∧ (∀ g ∈ gs, g.isTrivia) ∧ ∀ t ∈ ts, t.isTrivia := by
  obtain ⟨hne, hspaces⟩ := hl.pad
  obtain ⟨c, pad, hpad⟩ := List.exists_cons_of_ne_nil hne
  obtain ⟨k, ks, hkey, hletter, -⟩ := hl.key.letters
  obtain ⟨ts, htail, htrivia⟩ := hl.tail.lexemes rest hrest
  have hcomma : lexemes (',' :: (l.tail ++ rest)) = ⟨.token .comma, [',']⟩ :: (ts ++ lexemes rest) := by
    rw [← htail]
    exact lexemes_fixed rfl
  have hvalue : lexemes (l.value ++ ',' :: (l.tail ++ rest)) =
      lexemes l.value ++ ⟨.token .comma, [',']⟩ :: (ts ++ lexemes rest) := by
    rw [hl.value.lexemes_append (by rintro d ⟨⟩; decide), hcomma]
  have hblank : ∀ d ∈ (l.value ++ ',' :: (l.tail ++ rest)).head?, isLineBlank d = false := by
    intro d hd
    cases hv : l.value with
    | nil =>
      rw [hv] at hd
      obtain rfl : ',' = d := by simpa using hd
      rfl
    | cons e v =>
      rw [hv] at hd
      obtain rfl : e = d := by simpa using hd
      have hbegins := hl.value.begins e (by simp [hv])
      refine Bool.eq_false_iff.mpr fun hline => ?_
      have hspace : e = ' ' ∨ e = '\t' ∨ e = '\r' ∨ e = '\x0c' := by simpa [isLineBlank, or_assoc] using hline
      rcases hspace with rfl | rfl | rfl | rfl <;> exact absurd hbegins (by decide)
  have hcolon : lexemeAt ':' (l.pad ++ (l.value ++ ',' :: (l.tail ++ rest))) = (.token .colon, 1) := by
    rw [hpad, List.cons_append, hspaces c (by simp [hpad])]
    rfl
  obtain ⟨gs, hgap, htrivia'⟩ := hl.gap.lexemes (l.key ++ ':' :: (l.pad ++ (l.value ++ ',' :: (l.tail ++ rest)))) (by
    rintro d hd
    rw [hkey] at hd
    obtain rfl : k = d := by simpa using hd
    exact (startsIdent_facts hletter).1)
  have htext : l.text ++ rest = '\n' :: l.gap ++ (l.key ++ ':' :: (l.pad ++ (l.value ++ ',' :: (l.tail ++ rest)))) := by
    simp [text]
  have hgs := congrArg lexemesText hgap
  rw [lexemesText_append, lexemesText_lexemes, lexemesText_lexemes] at hgs
  refine ⟨gs, ts, ?_, (List.append_cancel_right hgs).symm, htrivia', htrivia⟩
  rw [htext, hgap, hl.key.lexemes_append (by rintro d ⟨⟩; rfl), lexemes_fixed hcolon,
    lexemes_blanks hne (fun d hd => hspaces d hd ▸ rfl) hblank, hvalue]

/-- The lexemes of a line and what they are as tokens. -/
structure HasLexemes (l : Line) (w : List Lexeme) : Prop where
  sound : ∀ m ∈ w, m.isSound
  text : lexemesText w = l.text
  tokens (p : Nat) : tokensWithin p false w = (⟨.ident, l.keyStart p, l.key⟩ :: ⟨.colon, l.keyStop p, [':']⟩ ::
    ((tokensWithin (l.valueStart p) false (lexemes l.value)).1 ++ [⟨.comma, l.valueStop p, [',']⟩]), false)

theorem IsSound.hasLexemes (hl : l.IsSound) (hrest : IsNextLine rest) :
    ∃ w, lexemes (l.text ++ rest) = w ++ lexemes rest ∧ l.HasLexemes w := by
  obtain ⟨gs, ts, hlexemes, hgap, hgs, hts⟩ := hl.lexemes_append hrest
  refine ⟨gs ++ ⟨.token .ident, l.key⟩ :: ⟨.token .colon, [':']⟩ :: ⟨.blank, l.pad⟩ ::
    (lexemes l.value ++ ⟨.token .comma, [',']⟩ :: ts), by simpa using hlexemes, ?_, ?_, fun p => ?_⟩
  · intro m hm
    simp only [List.mem_append, List.mem_cons] at hm
    rcases hm with hm | rfl | rfl | rfl | hm | rfl | hm
    · exact isSound_of_isTrivia (hgs m hm)
    · simp [Lexeme.isSound, hl.key.word]
    · rfl
    · rfl
    · exact hl.value.sound m hm
    · rfl
    · exact isSound_of_isTrivia (hts m hm)
  · have htext := congrArg lexemesText hlexemes
    rw [lexemesText_lexemes] at htext
    refine (List.append_cancel_right (htext.trans ?_)).symm
    simp [lexemesText_lexemes]
  · have hcolon : byteLength [':'] = 1 := rfl
    rw [tokensWithin_append, tokensWithin_trivia hgs, hgap]
    simp only [tokensWithin_cons, lexemeTokens, tokensWithin_append, lexemesText_lexemes, hcolon,
      TokenKind.endsStatement, tokensWithin_trivia hts]
    rfl

theorem HasLexemes.length {w : List Lexeme} (h : l.HasLexemes w) (p : Nat) :
    (tokensWithin p false w).1.length = 3 + l.count := by
  rw [h.tokens, List.length_cons, List.length_cons, List.length_append, IsValueText.length_eq, List.length_singleton, count]
  omega

/-- What follows a line is read on its own. -/
theorem IsSound.standsAt (hl : l.IsSound) (hrest : IsNextLine rest)
    (h : s.Continues i p false (l.text ++ rest)) :
    l.StandsAt s i p ∧ s.Continues (i + 3 + l.count) (p + byteLength l.text) false rest := by
  obtain ⟨w, hlexemes, hw⟩ := hl.hasLexemes hrest
  obtain ⟨htokens, hcontinues⟩ := h.chunk hlexemes
  rw [hw.length] at htokens hcontinues
  rw [hw.tokens] at htokens hcontinues
  have hcount : (tokensWithin (l.valueStart p) false (lexemes l.value)).1.length = l.count := IsValueText.length_eq _
  refine ⟨⟨htokens 0 (by omega), htokens 1 (by omega), fun k hk => ?_, ?_, ?_⟩, ?_⟩
  · rw [Nat.add_assoc, htokens (2 + k) (by omega), Nat.add_comm 2 k, List.getElem?_cons_succ, List.getElem?_cons_succ,
      List.getElem?_append_left (by omega)]
  · rw [Nat.add_assoc, htokens (2 + l.count) (by omega), Nat.add_comm 2, List.getElem?_cons_succ, List.getElem?_cons_succ,
      List.getElem?_append_right (by omega), hcount, Nat.sub_self]
    rfl
  · obtain ⟨before, hbefore, hp⟩ := h.text
    obtain ⟨rest, rfl⟩ := hrest
    exact ⟨before, rest, hbefore, hp⟩
  · rw [Nat.add_assoc]
    exact hcontinues

/-! ## The element of a line -/

namespace StandsAt

variable (h : l.StandsAt s i p)
include h

theorem kindsFrom : s.kindsFrom i =
    .ident :: .colon :: (kindsWithin false l.value ++ .comma :: s.kindsFrom (i + 3 + l.count)) := by
  have hkind {j : Nat} {t : Token} (ht : s.tokens[j]? = some t) : s.kindAt j = some t.kind := by
    rw [Lexed.kindAt, ht, Option.map_some]
  have htake : (s.kindsFrom (i + 2)).take l.count = kindsWithin false l.value := by
    refine List.ext_getElem? fun k => ?_
    rw [List.getElem?_take]
    split
    · next hk =>
      rw [Lexed.kindsFrom_getElem?, Lexed.kindAt, h.value k hk, ← kinds_tokensWithin (l.valueStart p), List.getElem?_map]
    · next hk => exact (List.getElem?_eq_none (Nat.not_lt.mp hk)).symm
  have hsub : i + 2 + l.count - (i + 2) = l.count := by omega
  have hadd : i + 3 + l.count = i + 2 + l.count + 1 := by omega
  rw [Lexed.kindsFrom_cons (hkind h.key), Lexed.kindsFrom_cons (hkind h.colon),
    Lexed.kindsFrom_eq_append s (Nat.le_add_right (i + 2) l.count), hsub, htake, Lexed.kindsFrom_cons (hkind h.comma), hadd]

theorem elementTokens (hl : l.IsSound) (hm : s.IsMatched) {rbrace : Nat} (hlt : i + 2 + l.count < rbrace) :
    LiteralFill.elementTokens s rbrace (rbrace - i) i none = (some (i, i + 1 + l.count), i + 2 + l.count) :=
  elementTokens_keyed hm hl.value.value hl.value.last h.kindsFrom hlt

/-- The last token before the comma ends where the value does, or is the colon. -/
theorem stopAt_last (hl : l.IsSound) :
    l.count = 0 ∧ l.value = [] ∧ s.stopAt (i + 1 + l.count) = l.keyStop p + 1 ∨
      l.count ≠ 0 ∧ s.stopAt (i + 1 + l.count) = l.valueStop p := by
  by_cases hcount : l.count = 0
  · refine .inl ⟨hcount, hl.value.eq_nil (List.length_eq_zero_iff.mp hcount), ?_⟩
    rw [hcount, Lexed.stopAt, Nat.add_zero, h.colon]
    rfl
  · refine .inr ⟨hcount, ?_⟩
    have hne : kindsWithin false l.value ≠ [] := fun hnil => hcount (by rw [count, hnil]; rfl)
    obtain ⟨t, ht, hstop⟩ := hl.value.last_token hne (l.valueStart p)
    rw [List.getLast?_eq_getElem?, IsValueText.length_eq] at ht
    have hlast := h.value (l.count - 1) (by omega)
    have hadd : i + 2 + (l.count - 1) = i + 1 + l.count := by omega
    rw [hadd] at hlast
    rw [Lexed.stopAt, hlast]
    exact (congrArg (fun t => (t.map Token.stop).getD 0) ht).trans hstop

theorem startAt_key : s.startAt i = l.keyStart p := by
  rw [Lexed.startAt, h.key]
  rfl

theorem stopAt_key : s.stopAt i = l.keyStop p := by
  rw [Lexed.stopAt, h.key]
  rfl

theorem slice_gap : slice s.text ⟨p, l.keyStart p⟩ = '\n' :: l.gap := by
  obtain ⟨before, rest, htext, rfl⟩ := h.text
  refine slice_part (z := l.key ++ ':' :: (l.pad ++ (l.value ++ ',' :: l.tail)) ++ '\n' :: rest) ?_ rfl rfl
  rw [htext, Line.text]
  simp

theorem slice_key : slice s.text ⟨l.keyStart p, l.keyStop p⟩ = l.key := by
  obtain ⟨before, rest, htext, rfl⟩ := h.text
  refine slice_part (x := before ++ '\n' :: l.gap)
    (z := ':' :: (l.pad ++ (l.value ++ ',' :: l.tail)) ++ '\n' :: rest) ?_ (byteLength_append _ _).symm ?_
  · rw [htext, Line.text]
    simp
  · rw [keyStop, keyStart, byteLength_append]

/-- What stands between the colon and the first token of the value. -/
theorem slice_pad {g r : List Char} (hvalue : l.value = g ++ r) :
    slice s.text ⟨l.keyStop p + 1, l.valueStart p + byteLength g⟩ = l.pad ++ g := by
  obtain ⟨before, rest, htext, rfl⟩ := h.text
  have hcolon : byteLength [':'] = 1 := rfl
  refine slice_part (x := before ++ ('\n' :: l.gap ++ (l.key ++ [':']))) (z := r ++ ',' :: l.tail ++ '\n' :: rest) ?_ ?_ ?_
  · rw [htext, Line.text, hvalue]
    simp
  · rw [keyStop, keyStart, byteLength_append, byteLength_append, byteLength_append, hcolon]
    omega
  · rw [valueStart, keyStop, keyStart, byteLength_append, byteLength_append, byteLength_append, byteLength_append, hcolon]
    omega

theorem slice_value : slice s.text ⟨l.valueStart p, l.valueStop p⟩ = l.value := by
  obtain ⟨before, rest, htext, rfl⟩ := h.text
  have hcolon : byteLength [':'] = 1 := rfl
  refine slice_part (x := before ++ ('\n' :: l.gap ++ (l.key ++ ([':'] ++ l.pad)))) (z := ',' :: l.tail ++ '\n' :: rest)
    ?_ ?_ ?_
  · rw [htext, Line.text]
    simp
  · rw [valueStart, keyStop, keyStart, byteLength_append, byteLength_append, byteLength_append, byteLength_append, hcolon]
    omega
  · rw [valueStop, valueStart, keyStop, keyStart, byteLength_append, byteLength_append, byteLength_append,
      byteLength_append, hcolon]
    omega

theorem slice_tail : slice s.text ⟨l.valueStop p, p + byteLength l.text⟩ = ',' :: l.tail := by
  have hstop := l.byteLength_text p
  obtain ⟨before, rest, htext, rfl⟩ := h.text
  have hcolon : byteLength [':'] = 1 := rfl
  have hcomma : byteLength (',' :: l.tail) = 1 + byteLength l.tail := rfl
  have hstart : l.valueStop (byteLength before) =
      byteLength (before ++ ('\n' :: l.gap ++ (l.key ++ ([':'] ++ (l.pad ++ l.value))))) := by
    rw [valueStop, valueStart, keyStop, keyStart, byteLength_append, byteLength_append, byteLength_append,
      byteLength_append, byteLength_append, hcolon]
    omega
  refine slice_part (z := '\n' :: rest) ?_ hstart ?_
  · rw [htext, Line.text]
    simp
  · rw [hstop, ← hstart, hcomma, Nat.add_assoc]

/-- The text after the comma ends with the line. -/
theorem lineEnd_tail (hl : l.IsSound) {b : Nat} (hb : p + byteLength l.text < b) :
    lineEnd s.text ⟨l.valueStop p + 1, b⟩ = p + byteLength l.text := by
  have hstop := l.byteLength_text p
  obtain ⟨before, rest, htext, rfl⟩ := h.text
  have hcolon : byteLength [':'] = 1 := rfl
  have hcomma : byteLength [','] = 1 := rfl
  have hstart : l.valueStop (byteLength before) + 1 =
      byteLength (before ++ ('\n' :: l.gap ++ (l.key ++ ([':'] ++ (l.pad ++ (l.value ++ [',']))))))  := by
    rw [valueStop, valueStart, keyStop, keyStart, byteLength_append, byteLength_append, byteLength_append,
      byteLength_append, byteLength_append, byteLength_append, hcolon, hcomma]
    omega
  rw [hstart] at hstop
  rw [hstop] at hb
  rw [hstart, hstop]
  refine lineEnd_eq (z := rest) ?_ hl.noLine hb
  rw [htext, Line.text]
  simp

theorem elementKey : LiteralFill.elementKey s i (i + 1 + l.count) =
    (some ⟨String.ofList l.key, ⟨l.keyStart p, l.keyStop p⟩, true⟩, if 0 < l.count then some (i + 2) else none) := by
  have hident : s.kindAt i = some .ident := by rw [Lexed.kindAt, h.key]; rfl
  have hcolon : s.kindAt (i + 1) = some .colon := by rw [Lexed.kindAt, h.colon]; rfl
  have hfind : keyColon s i (i + 1 + l.count) (i + 1 + l.count + 1 - i) i = some (i + 1) := by
    obtain ⟨fuel, hfuel⟩ : ∃ n, i + 1 + l.count + 1 - i = n + 2 := ⟨l.count, by omega⟩
    rw [hfuel, keyColon, if_pos (by omega), hident]
    show keyColon s i (i + 1 + l.count) (fuel + 1) (i + 1) = _
    rw [keyColon, if_pos (by omega), hcolon]
    exact if_pos (Nat.lt_succ_self i)
  have hkey : s.textBetween i i = String.ofList l.key := by
    rw [Lexed.textBetween, h.startAt_key, h.stopAt_key, sliceText, h.slice_key]
  have hlt : i + 1 < i + 1 + l.count ↔ 0 < l.count := by omega
  rw [LiteralFill.elementKey, hfind]
  simp [hkey, h.startAt_key, h.stopAt_key, hident, hlt]

/-- The value is found where the line has it. -/
theorem slice_valueSpan (hl : l.IsSound) : slice s.text
    (valueSpan s (LiteralFill.elementKey s i (i + 1 + l.count)).1 (LiteralFill.elementKey s i (i + 1 + l.count)).2
      (i + 1 + l.count)) = l.value := by
  rw [h.elementKey]
  rcases h.stopAt_last hl with ⟨hcount, hnil, -⟩ | ⟨hcount, hstop⟩
  · rw [hcount, hnil]
    simp [valueSpan, slice, Span.empty, Span.length, takeBytes_zero]
  · have hne : kindsWithin false l.value ≠ [] := fun hnil => hcount (by rw [count, hnil]; rfl)
    obtain ⟨t, g, r, ht, hvalue, hstart, hbegins⟩ := hl.value.first_token hne (l.valueStart p)
    have hfirst := h.value 0 (Nat.pos_of_ne_zero hcount)
    rw [← List.head?_eq_getElem?, ht] at hfirst
    have hcolon : s.stopAt (i + 2 - 1) = l.keyStop p + 1 := by
      rw [Lexed.stopAt, show i + 2 - 1 = i + 1 from rfl, h.colon]
      rfl
    have hfirstStart : s.startAt (i + 2) = l.valueStart p + byteLength g := by
      rw [Lexed.startAt, ← Nat.add_zero (i + 2), hfirst, ← hstart]
      rfl
    have hspaces : ∀ c ∈ l.pad, isBlank c = true := fun c hc => hl.pad.2 c hc ▸ by decide
    have htrim : trimStart (l.pad ++ g) = g := by
      rw [trimStart, List.dropWhile_append_of_pos hspaces]
      cases g with
      | nil => rfl
      | cons c g => exact List.dropWhile_cons_of_neg (by simp [hbegins c rfl])
    rw [if_pos (Nat.pos_of_ne_zero hcount)]
    simp only [valueSpan, hcolon, hfirstStart, h.slice_pad hvalue, htrim, hstop, byteLength_append,
      Nat.add_sub_cancel_right]
    exact h.slice_value

/-- The comments after the value are those after the comma. -/
theorem commentTexts_tail (hl : l.IsSound) :
    commentTexts s.text ⟨s.stopAt (i + 1 + l.count), p + byteLength l.text⟩ = l.trailing := by
  have htail : (commentsIn (',' :: l.tail)).map (·.text) = l.trailing := by
    rw [commentsIn_cons_of_ne (by decide), hl.tail.notes]
  rcases h.stopAt_last hl with ⟨-, hnil, hstop⟩ | ⟨-, hstop⟩
  · -- without a value the spaces after the colon come first
    have hslice : slice s.text ⟨l.keyStop p + 1, p + byteLength l.text⟩ = l.pad ++ ',' :: l.tail := by
      have hbytes := l.byteLength_text p
      obtain ⟨before, rest, htext, rfl⟩ := h.text
      have hcolon : byteLength [':'] = 1 := rfl
      have hcomma : byteLength (',' :: l.tail) = 1 + byteLength l.tail := rfl
      have hstart : l.keyStop (byteLength before) + 1 =
          byteLength (before ++ ('\n' :: l.gap ++ (l.key ++ [':']))) := by
        rw [keyStop, keyStart, byteLength_append, byteLength_append, byteLength_append, hcolon]
        omega
      refine slice_part (z := '\n' :: rest) ?_ hstart ?_
      · rw [htext, Line.text, hnil]
        simp
      · rw [hbytes, valueStop, valueStart, hnil, ← hstart, byteLength_append, hcomma, byteLength]
        omega
    have hspaces : '/' ∉ l.pad := fun hmem => absurd (hl.pad.2 _ hmem) (by decide)
    rw [hstop, commentTexts, hslice, commentsIn, commentsFrom_append_of_not_mem _ _ hspaces,
      commentsFrom_texts _ 0]
    exact htail
  · rw [hstop, commentTexts, h.slice_tail]
    exact htail

/-- Reading the element of a line. -/
theorem readElement (hl : l.IsSound) (hnext : p + byteLength l.text < s.startAt (i + 3 + l.count)) (rbrace : Nat) :
    ∃ e, LiteralFill.readElement s rbrace p i (i + 1 + l.count) (some (i + 2 + l.count)) =
      (e, p + byteLength l.text) ∧ l.Says s.text e := by
  have hleading : commentTexts s.text ⟨min p (l.keyStart p), l.keyStart p⟩ = l.leading := by
    rw [Nat.min_eq_left (show p ≤ l.keyStart p from Nat.le_add_right _ _), commentTexts, h.slice_gap, hl.gap.notes]
  have hafter : s.stopAt (i + 2 + l.count) = l.valueStop p + 1 := by
    rw [Lexed.stopAt, h.comma]
    rfl
  have hline : lineEnd s.text ⟨l.valueStop p + 1, max (s.startAt (i + 2 + l.count + 1)) (l.valueStop p + 1)⟩ =
      p + byteLength l.text := by
    refine h.lineEnd_tail hl (Nat.lt_of_lt_of_le hnext ?_)
    have hadd : i + 3 + l.count = i + 2 + l.count + 1 := by omega
    exact hadd ▸ Nat.le_max_left _ _
  have hgap : (if l.trailing.isEmpty then l.valueStop p + 1 else p + byteLength l.text) = p + byteLength l.text := by
    split
    · next hnone =>
      rw [l.byteLength_text, hl.noTail (List.isEmpty_iff.mp hnone)]
      rfl
    · rfl
  have hread : LiteralFill.readElement s rbrace p i (i + 1 + l.count) (some (i + 2 + l.count)) =
      (⟨(LiteralFill.elementKey s i (i + 1 + l.count)).1,
        valueSpan s (LiteralFill.elementKey s i (i + 1 + l.count)).1 (LiteralFill.elementKey s i (i + 1 + l.count)).2
          (i + 1 + l.count), ⟨l.keyStart p, s.stopAt (i + 1 + l.count)⟩, l.leading, joinNotes l.trailing⟩,
        p + byteLength l.text) := by
    simp only [LiteralFill.readElement, Option.map_some, Option.getD_some, hafter, hline, h.commentTexts_tail hl, hgap,
      h.startAt_key, hleading, joinNotes]
  exact ⟨_, hread, ⟨_, congrArg Prod.fst (h.elementKey)⟩, h.slice_valueSpan hl, rfl, rfl⟩

end StandsAt

/-! ## Lines one after another -/

/-- The number of tokens of lines. -/
def size (ls : List Line) : Nat := (ls.map fun l => 3 + l.count).foldr (· + ·) 0

theorem size_cons (l : Line) (ls : List Line) : size (l :: ls) = 3 + l.count + size ls := rfl

/-- The text of lines. -/
def texts (ls : List Line) : List Char := ls.flatMap text

theorem texts_cons (l : Line) (ls : List Line) : texts (l :: ls) = l.text ++ texts ls := rfl

theorem isNextLine_texts (ls : List Line) (rest : List Char) : IsNextLine (texts ls ++ '\n' :: rest) := by
  cases ls with
  | nil => exact ⟨rest, rfl⟩
  | cons l ls =>
    rw [texts_cons, text]
    exact ⟨_, rfl⟩

theorem HasLexemes.kinds {w : List Lexeme} (h : l.HasLexemes w) (p : Nat) :
    (tokensWithin p false w).1.map (·.kind) = .ident :: .colon :: (kindsWithin false l.value ++ [.comma]) := by
  rw [h.tokens, List.map_cons, List.map_cons, List.map_append, kinds_tokensWithin]
  rfl

/-- The lexemes of lines, of which the tokens are balanced. -/
theorem lexemes_texts {ls : List Line} (hls : ∀ l ∈ ls, l.IsSound) (rest : List Char) : ∃ w,
    lexemes (texts ls ++ '\n' :: rest) = w ++ lexemes ('\n' :: rest) ∧ (∀ m ∈ w, m.isSound) ∧
    ∀ p, IsBalanced ((tokensWithin p false w).1.map (·.kind)) ∧ (tokensWithin p false w).1.length = size ls ∧
      (tokensWithin p false w).2 = false := by
  induction ls with
  | nil => exact ⟨[], rfl, by simp, fun _ => ⟨.none, rfl, rfl⟩⟩
  | cons l ls ih =>
    obtain ⟨w, hw, hlexemes⟩ := (hls l (by simp)).hasLexemes (isNextLine_texts ls rest)
    obtain ⟨v, hv, hsound, hbalanced⟩ := ih fun m hm => hls m (by simp [hm])
    refine ⟨w ++ v, by rw [texts_cons, List.append_assoc, hw, hv, List.append_assoc],
      fun m hm => (List.mem_append.mp hm).elim (hlexemes.sound m) (hsound m), fun p => ?_⟩
    have hpending : (tokensWithin p false w).2 = false := by rw [hlexemes.tokens]
    obtain ⟨hb, hlength, hend⟩ := hbalanced (p + byteLength (lexemesText w))
    rw [tokensWithin_append, hpending, List.map_append, hlexemes.kinds, List.length_append, hlexemes.length, hlength]
    have hline : IsBalanced (.ident :: .colon :: (kindsWithin false l.value ++ [.comma])) :=
      .single rfl (.single rfl ((hls l (by simp)).value.value.balanced.append (.single rfl .none)))
    exact ⟨hline.append hb, (size_cons l ls).symm, hend⟩

/-- Tokens on later lines start beyond the end of a line. -/
theorem lt_startAt (hrest : IsNextLine rest) (h : s.Continues i p false rest) (hi : i < s.size) : p < s.startAt i := by
  obtain ⟨rest, rfl⟩ := hrest
  exact (h.chunk (v := ['\n']) (w := [⟨.newline, ['\n']⟩]) (lexemes_newline rest)).2.le_startAt (Nat.le_refl _) hi

/-- The elements of lines, and what is left after them. -/
theorem readElements (hm : s.IsMatched) {ls : List Line} (hls : ∀ l ∈ ls, l.IsSound) {rbrace fuel : Nat}
    (h : s.Continues i p false (texts ls ++ '\n' :: rest)) (hsize : i + size ls = rbrace) (hr : rbrace < s.size)
    (hfuel : ls.length < fuel) :
    ∃ es, LiteralFill.readElements s rbrace fuel i p = (es, p + byteLength (texts ls)) ∧
      List.Forall₂ (fun l e => l.Says s.text e) ls es ∧
      s.Continues rbrace (p + byteLength (texts ls)) false ('\n' :: rest) := by
  induction ls generalizing i p fuel with
  | nil =>
    obtain ⟨fuel, rfl⟩ : ∃ n, fuel = n + 1 := ⟨fuel - 1, by omega⟩
    obtain rfl : i = rbrace := hsize
    have hnone : LiteralFill.elementTokens s i (i - i) i none = (none, i) := by
      rw [Nat.sub_self, LiteralFill.elementTokens]
    refine ⟨[], ?_, .nil, h⟩
    rw [LiteralFill.readElements, hnone]
    simp
    rfl
  | cons l ls ih =>
    obtain ⟨fuel, rfl⟩ : ∃ n, fuel = n + 1 := ⟨fuel - 1, by omega⟩
    rw [size_cons] at hsize
    rw [texts_cons, List.append_assoc] at h
    have hnextLine := isNextLine_texts ls rest
    obtain ⟨hstands, hcontinues⟩ := (hls l (by simp)).standsAt hnextLine h
    have hnext := lt_startAt hnextLine hcontinues (by omega)
    obtain ⟨e, he, hsaid⟩ := hstands.readElement (hls l (by simp)) hnext rbrace
    obtain ⟨es, hes, hall, hend⟩ := ih (fun m hm => hls m (by simp [hm])) hcontinues (by omega) (by simpa using hfuel)
    have hcomma : i + 2 + l.count < rbrace := by omega
    have hadd : i + 2 + l.count + 1 = i + 3 + l.count := by omega
    rw [texts_cons, byteLength_append, ← Nat.add_assoc]
    refine ⟨e :: es, ?_, .cons hsaid hall, hend⟩
    rw [LiteralFill.readElements, hstands.elementTokens (hls l (by simp)) hm hcomma]
    simp only [if_pos hcomma, he, hadd, hes, List.singleton_append]

end Line

/-! ## A literal of lines -/

/-- The lexemes of lines between braces. -/
theorem lexemes_lines {ls : List Line} (hls : ∀ l ∈ ls, l.IsSound) {closing : List Char} {notes : List String}
    (hclosing : IsGapText ('\n' :: closing) IsUnblank notes) (r : List Char) : ∃ w,
    lexemes (Line.texts ls ++ '\n' :: (closing ++ '\x7d' :: r)) = w ++ closeBrace :: lexemes r ∧
    (∀ m ∈ w, m.isSound) ∧ IsBalanced ((tokensWithin 0 false w).1.map (·.kind)) ∧
      (tokensWithin 0 false w).1.length = Line.size ls := by
  obtain ⟨w, hw, hsound, htokens⟩ := Line.lexemes_texts hls (closing ++ '\x7d' :: r)
  obtain ⟨gs, hgs, htrivia⟩ := hclosing.lexemes ('\x7d' :: r) (by rintro d ⟨⟩; rfl)
  obtain ⟨hbalanced, hlength, hpending⟩ := htokens 0
  have hwithin : (tokensWithin 0 false (w ++ gs)).1 = (tokensWithin 0 false w).1 := by
    rw [tokensWithin_append, hpending, tokensWithin_trivia htrivia, List.append_nil]
  have hbrace : lexemes ('\x7d' :: r) = closeBrace :: lexemes r := lexemes_fixed rfl
  have hinner : lexemes ('\n' :: (closing ++ '\x7d' :: r)) = gs ++ closeBrace :: lexemes r := hbrace ▸ hgs
  exact ⟨w ++ gs, by rw [hw, hinner, List.append_assoc],
    fun m hm => (List.mem_append.mp hm).elim (hsound m) fun hg => isSound_of_isTrivia (htrivia m hg),
    hwithin ▸ hbalanced, hwithin ▸ hlength⟩

/-- A literal with lines between its braces has the elements of the lines, and the comments behind them. -/
theorem splitElements_lines {s : Lexed} (hm : s.IsMatched) {lbrace : Nat} {ls : List Line} (hls : ∀ l ∈ ls, l.IsSound)
    {closing rest : List Char} {notes : List String} (hclosing : IsGapText ('\n' :: closing) IsUnblank notes)
    (hsize : lbrace + 1 + Line.size ls < s.size)
    (h : s.Continues (lbrace + 1) (s.stopAt lbrace) false (Line.texts ls ++ '\n' :: (closing ++ '\x7d' :: rest))) :
    ∃ es, splitElements s lbrace (lbrace + 1 + Line.size ls) = (es, notes) ∧
      List.Forall₂ (fun l e => l.Says s.text e) ls es := by
  have hlength : ls.length ≤ Line.size ls := by
    clear h hls hsize
    induction ls with
    | nil => exact Nat.le_refl _
    | cons l ls ih =>
      rw [Line.size_cons, List.length_cons]
      omega
  have hfuel : ls.length < lbrace + 1 + Line.size ls - lbrace := by omega
  obtain ⟨es, hread, hall, hend⟩ := Line.readElements hm hls h rfl hsize hfuel
  obtain ⟨hbrace, -⟩ := (hclosing.passes (by rintro d ⟨⟩; rfl) hend).token (v := ['\x7d']) (lexemes_fixed rfl)
  have hstart : s.startAt (lbrace + 1 + Line.size ls) =
      s.stopAt lbrace + byteLength (Line.texts ls) + byteLength ('\n' :: closing) := by
    rw [Lexed.startAt, hbrace]
    rfl
  have hslice : slice s.text ⟨_, _ + byteLength ('\n' :: closing)⟩ = '\n' :: closing := hend.slice
  refine ⟨es, ?_, hall⟩
  rw [splitElements, hread]
  simp only [hstart, Nat.min_eq_left (Nat.le_add_right _ _), commentTexts, hslice, hclosing.notes]

end LiteralFill
