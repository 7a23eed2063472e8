import LiteralFill.Proofs.Balance
import LiteralFill.Proofs.Elements
import LiteralFill.Proofs.Lexing.Whole
import Mathlib.Data.List.TakeWhile

/-!
The lines of a filled literal read back. A line has a key, a value and a comma, with comments before the key
and after the comma; each line gives one element with this key, value and comments.
-/

namespace LiteralFill

/-! ## Texts of values -/

/-- A text that stands for itself as the value of an element: it is read on its own, has no comma outside its
brackets, and neither begins with white space nor ends with anything but a token that is written. -/
structure IsValueText (text : List Char) : Prop where
  sound : ∀ l ∈ lexemes text, l.isSound
  begins : ∀ c ∈ text.head?, isBlank c = false
  ends : ∀ l ∈ (lexemes text).getLast?, l.isToken
  value : IsValue (kindsWithin false text)
  last : (kindsWithin false text).getLast? ≠ some .semicolon

/-! ## Reading on -/

namespace Lexed

/-- From the token `i` and the position `p` on there is the text `rest`. `pending` says that a newline there
stands for a semicolon. -/
structure Continues (s : Lexed) (i p : Nat) (pending : Bool) (rest : List Char) : Prop where
  tokens : s.tokens.toList.drop i = tokensFrom p pending (lexemes rest)
  text : ∃ before, s.text = before ++ rest ∧ byteLength before = p

namespace Continues

variable {s : Lexed} {i p : Nat} {pending : Bool} {v rest : List Char}

theorem slice (h : s.Continues i p pending (v ++ rest)) :
    LiteralFill.slice s.text ⟨p, p + byteLength v⟩ = v := by
  obtain ⟨before, htext, rfl⟩ := h.text
  rw [htext, LiteralFill.slice, Span.length, Nat.add_sub_cancel_left, dropBytes_byteLength, takeBytes_byteLength]

/-- The tokens of some lexemes, and what follows them. -/
theorem chunk (h : s.Continues i p pending (v ++ rest)) {w : List Lexeme}
    (hv : lexemes (v ++ rest) = w ++ lexemes rest) :
    (∀ k, k < (tokensWithin p pending w).1.length → s.tokens[i + k]? = (tokensWithin p pending w).1[k]?) ∧
      s.Continues (i + (tokensWithin p pending w).1.length) (p + byteLength v) (tokensWithin p pending w).2
        rest := by
  obtain ⟨before, htext, rfl⟩ := h.text
  have hw : lexemesText w = v := by
    have := congrArg lexemesText hv
    rw [lexemesText_append, lexemesText_lexemes, lexemesText_lexemes] at this
    exact (List.append_cancel_right this).symm
  have htokens := h.tokens
  rw [hv, tokensFrom_append, hw] at htokens
  refine ⟨fun k hk => ?_, ?_, before ++ v, by rw [htext, List.append_assoc], byteLength_append _ _⟩
  · rw [← Array.getElem?_toList, ← List.getElem?_drop, htokens, List.getElem?_append_left hk]
  · rw [← List.drop_drop, htokens, List.drop_left]

/-- The next token. -/
theorem token {k : TokenKind} (h : s.Continues i p pending (v ++ rest))
    (hv : lexemes (v ++ rest) = ⟨.token k, v⟩ :: lexemes rest) :
    s.tokens[i]? = some ⟨k, p, v⟩ ∧ s.Continues (i + 1) (p + byteLength v) k.endsStatement rest := by
  obtain ⟨htoken, hrest⟩ := h.chunk (w := [⟨.token k, v⟩]) hv
  exact ⟨htoken 0 (by simp [tokensWithin, lexemeTokens]), hrest⟩

/-- Tokens to come start further on. -/
theorem le_startAt (h : s.Continues i p pending rest) {j : Nat} (hij : i ≤ j) (hj : j < s.size) :
    p ≤ s.startAt j := by
  obtain ⟨t, ht⟩ := exists_token hj
  have hmem : t ∈ s.tokens.toList.drop i := by
    refine List.mem_iff_getElem?.mpr ⟨j - i, ?_⟩
    rw [List.getElem?_drop, Array.getElem?_toList, Nat.add_sub_cancel' hij, ht]
  rw [h.tokens] at hmem
  have hwithin := (tokensFrom_isWithin hmem).1
  simpa [startAt, ht] using hwithin

end Continues

end Lexed

/-! ## What is no token -/

/-- A sound lexeme is a token, or none is to be seen of it among the tokens. -/
theorem isTrivia_of_isSound {l : Lexeme} (h : l.isSound) (ht : l.isToken = false) : l.isTrivia := by
  obtain ⟨kind, text⟩ := l
  cases kind with
  | token k => cases ht
  | openComment => cases h
  | _ => rfl

theorem isSound_of_isTrivia {l : Lexeme} (h : l.isTrivia) : l.isSound := by
  obtain ⟨kind, text⟩ := l
  cases kind with
  | token k => cases h
  | openComment => cases h
  | _ => rfl

/-- A text without tokens up to what may follow it, with the comments in it. -/
structure IsGapText (text : List Char) (follows : List Char → Prop) (notes : List String) : Prop where
  lexemes : ∀ r, follows r → ∃ gs, LiteralFill.lexemes (text ++ r) = gs ++ LiteralFill.lexemes r ∧
    ∀ l ∈ gs, l.isTrivia
  notes : (commentsIn text).map (·.text) = notes

/-- The next text does not lengthen blanks. -/
def IsUnblank (r : List Char) : Prop := ∀ d ∈ r.head?, isLineBlank d = false

/-- The next text begins a line. -/
def IsNextLine (r : List Char) : Prop := ∃ r', r = '\n' :: r'

/-- A text without tokens is passed over. -/
theorem IsGapText.passes {text r : List Char} {follows : List Char → Prop} {notes : List String}
    (h : IsGapText text follows notes) (hr : follows r) {s : Lexed} {i p : Nat}
    (hs : s.Continues i p false (text ++ r)) : s.Continues i (p + byteLength text) false r := by
  obtain ⟨gs, hgs, htrivia⟩ := h.lexemes r hr
  have hrest := (hs.chunk hgs).2
  rw [tokensWithin_trivia htrivia] at hrest
  exact hrest

/-! ## Lines -/

/-- A line of a literal from the newline before it on: comments and indentation, the key, its colon, spaces,
the value, a comma and what comes after it. -/
structure Line where
  gap : List Char
  key : List Char
  pad : List Char
  value : List Char
  tail : List Char
  leading : List String
  trailing : List String

/-- How the texts of comments after an element are kept. -/
def joinNotes (notes : List String) : Option String :=
  if notes.isEmpty then none else some (" ".intercalate notes)

namespace Line

/-- The text of a line. -/
def text (l : Line) : List Char :=
  '\n' :: (l.gap ++ (l.key ++ ':' :: (l.pad ++ (l.value ++ ',' :: l.tail))))

/-- The parts of a line are what they are taken for. -/
structure IsSound (l : Line) : Prop where
  gap : IsGapText ('\n' :: l.gap) IsUnblank l.leading
  key : IsIdentifier l.key
  pad : l.pad ≠ [] ∧ ∀ c ∈ l.pad, c = ' '
  value : IsValueText l.value
  tail : IsGapText l.tail IsNextLine l.trailing
  noLine : '\n' ∉ l.tail
  noTail : l.trailing = [] → l.tail = []

/-- What a line says: the key, the value and the comments. -/
def Says (l : Line) (text : List Char) (e : Element) : Prop :=
  (∃ span, e.key = some ⟨String.ofList l.key, span, true⟩) ∧ slice text e.value = l.value ∧
    e.leading = l.leading ∧ e.trailing = joinNotes l.trailing

end Line

/-! ## The tokens of an element -/

section

variable {s : Lexed} {rbrace i fuel : Nat} {extent : Option (Nat × Nat)}

theorem elementTokens_single (hm : s.IsMatched) (hlt : i < rbrace) {k : TokenKind}
    (hk : s.kindAt i = some k) (hb : k.isBracket = false) (hc : k ≠ .comma) (hs : k ≠ .semicolon) :
    elementTokens s rbrace (fuel + 1) i extent =
      elementTokens s rbrace fuel (i + 1) (some ((extent.map (·.1)).getD i, i)) := by
  have hnone : s.closerOf i = none := by
    rw [hm i, hk]
    cases k with
    | opener b => cases hb
    | _ => rfl
  rw [elementTokens_other hlt (by simpa [hk] using hc) (by simpa [hk] using hs), hnone]
  rfl

theorem elementTokens_group (hlt : i < rbrace) {b : Bracket} (hk : s.kindAt i = some (.opener b)) {c : Nat}
    (hc : s.closerOf i = some c) (hle : c ≤ rbrace) :
    elementTokens s rbrace (fuel + 1) i extent =
      elementTokens s rbrace fuel (c + 1) (some ((extent.map (·.1)).getD i, c)) := by
  rw [elementTokens_other hlt (by simp [hk]) (by simp [hk]), hc]
  simp [Option.filter, hle]

/-- The tokens of a value are added to an element that has begun. The last of them is its last. -/
theorem elementTokens_value (hm : s.IsMatched) {ks rest : List TokenKind} (hv : IsValue ks) (first last : Nat)
    (hk : s.kindsFrom i = ks ++ rest) (hle : i + ks.length ≤ rbrace) (hf : rbrace ≤ i + fuel) :
    ∃ n last', rbrace ≤ i + ks.length + n ∧
      elementTokens s rbrace fuel i (some (first, last)) =
        elementTokens s rbrace n (i + ks.length) (some (first, last')) ∧
      (ks = [] → last' = last) ∧
      (ks ≠ [] → ks.getLast? ≠ some .semicolon → last' + 1 = i + ks.length) := by
  induction hv generalizing i fuel last with
  | none => exact ⟨fuel, last, hf, rfl, fun _ => rfl, fun h => absurd rfl h⟩
  | @single k ks hb hc _ ih =>
    rw [List.length_cons] at hle
    obtain ⟨fuel, rfl⟩ : ∃ n, fuel = n + 1 := ⟨fuel - 1, by omega⟩
    have hkind : s.kindAt i = some k := Lexed.kindAt_of_kindsFrom hk
    have hrest : s.kindsFrom (i + 1) = ks ++ rest := Lexed.kindsFrom_of_append [k] hk
    have hadd : i + (k :: ks).length = i + 1 + ks.length := by rw [List.length_cons]; omega
    rw [hadd]
    by_cases hs : k = .semicolon
    · subst hs
      obtain ⟨n, last', hn, heq, hnil, hcons⟩ := ih last hrest (by omega) (show rbrace ≤ i + 1 + fuel by omega)
      refine ⟨n, last', hn, (elementTokens_semicolon (by omega) hkind).trans heq,
        fun h => (List.cons_ne_nil _ _ h).elim, ?_⟩
      intro _ hlast
      cases ks with
      | nil => exact absurd rfl hlast
      | cons k' ks => exact hcons (List.cons_ne_nil _ _) (by simpa using hlast)
    · obtain ⟨n, last', hn, heq, hnil, hcons⟩ := ih i hrest (by omega) (show rbrace ≤ i + 1 + fuel by omega)
      refine ⟨n, last', hn, (elementTokens_single hm (by omega) hkind hb hc hs).trans heq,
        fun h => (List.cons_ne_nil _ _ h).elim, ?_⟩
      intro _ hlast
      cases ks with
      | nil =>
        rw [hnil rfl]
        rfl
      | cons k' ks => exact hcons (List.cons_ne_nil _ _) (by simpa using hlast)
  | @group b inside ks hi _ ih =>
    simp only [List.length_cons, List.length_append] at hle
    obtain ⟨fuel, rfl⟩ : ∃ n, fuel = n + 1 := ⟨fuel - 1, by omega⟩
    rw [List.cons_append, List.append_assoc] at hk
    have hkind : s.kindAt i = some (.opener b) := Lexed.kindAt_of_kindsFrom hk
    have hclose := hm.closerOf_balanced hi hk
    have hinner : s.kindsFrom (i + 1) = inside ++ (.closer b :: ks ++ rest) := Lexed.kindsFrom_of_append [_] hk
    have hrest : s.kindsFrom (i + 1 + inside.length + 1) = ks ++ rest :=
      Lexed.kindsFrom_of_append [_] (Lexed.kindsFrom_of_append _ hinner)
    have hadd : i + (TokenKind.opener b :: (inside ++ .closer b :: ks)).length =
        i + 1 + inside.length + 1 + ks.length := by
      simp only [List.length_cons, List.length_append]
      omega
    rw [hadd]
    obtain ⟨n, last', hn, heq, hnil, hcons⟩ := ih (i + 1 + inside.length) hrest (by omega)
      (show rbrace ≤ i + 1 + inside.length + 1 + fuel by omega)
    refine ⟨n, last', hn, (elementTokens_group (by omega) hkind hclose (by omega)).trans heq,
      fun h => (List.cons_ne_nil _ _ h).elim, ?_⟩
    intro _ hlast
    cases ks with
    | nil =>
      rw [hnil rfl]
      rfl
    | cons k' ks =>
      refine hcons (List.cons_ne_nil _ _) ?_
      rw [← List.cons_append, List.append_cons, getLast?_append_right _ (List.cons_ne_nil _ _)] at hlast
      exact hlast

/-- An element that is a key, a colon and a value, up to its comma. -/
theorem elementTokens_keyed (hm : s.IsMatched) {ks rest : List TokenKind} (hv : IsValue ks)
    (hlast : ks.getLast? ≠ some .semicolon) (hk : s.kindsFrom i = .ident :: .colon :: (ks ++ .comma :: rest))
    (hle : i + 2 + ks.length < rbrace) :
    elementTokens s rbrace (rbrace - i) i none = (some (i, i + 1 + ks.length), i + 2 + ks.length) := by
  obtain ⟨m, hm'⟩ : ∃ m, rbrace - i = m + 2 := ⟨rbrace - i - 2, by omega⟩
  have hident : s.kindAt i = some .ident := Lexed.kindAt_of_kindsFrom hk
  have hrest : s.kindsFrom (i + 1) = .colon :: (ks ++ .comma :: rest) := Lexed.kindsFrom_of_append [_] hk
  have hcolon : s.kindAt (i + 1) = some .colon := Lexed.kindAt_of_kindsFrom hrest
  have hvalue : s.kindsFrom (i + 2) = ks ++ .comma :: rest := Lexed.kindsFrom_of_append [_] hrest
  have hcomma : s.kindAt (i + 2 + ks.length) = some .comma :=
    Lexed.kindAt_of_kindsFrom (Lexed.kindsFrom_of_append ks hvalue)
  rw [hm', elementTokens_single hm (by omega) hident rfl (by decide) (by decide),
    elementTokens_single hm (by omega) hcolon rfl (by decide) (by decide)]
  obtain ⟨n, last', hn, heq, hnil, hcons⟩ := elementTokens_value hm hv i (i + 1) hvalue
    (show i + 2 + ks.length ≤ rbrace by omega) (show rbrace ≤ i + 2 + m by omega)
  obtain ⟨n, rfl⟩ : ∃ k, n = k + 1 := ⟨n - 1, by omega⟩
  have hend : last' = i + 1 + ks.length := by
    by_cases hks : ks = []
    · rw [hnil hks, hks]
      rfl
    · have := hcons hks hlast
      omega
  rw [hend] at heq
  exact heq.trans (elementTokens_comma (by omega) hcomma)

end

/-! ## The tokens of a value -/

namespace IsValueText

variable {v : List Char} (h : IsValueText v)
include h

theorem lexemes_append {r : List Char} (hr : Separated r) : lexemes (v ++ r) = lexemes v ++ lexemes r :=
  lexemes_append_of_token h.sound h.ends hr

omit h in
theorem length_eq (p : Nat) : (tokensWithin p false (lexemes v)).1.length = (kindsWithin false v).length := by
  rw [← kinds_tokensWithin p, List.length_map]

/-- A text without tokens is empty. -/
theorem eq_nil (hnil : kindsWithin false v = []) : v = [] := by
  cases hlast : (lexemes v).getLast? with
  | none =>
    have := lexemesText_lexemes v
    rw [List.getLast?_eq_none_iff.mp hlast] at this
    exact this.symm
  | some l =>
    obtain ⟨ls, hls⟩ := List.getLast?_eq_some_iff.mp hlast
    have htoken := h.ends l hlast
    obtain ⟨kind, cs⟩ := l
    cases kind with
    | token k =>
      unfold kindsWithin at hnil
      rw [hls, tokensWithin_append] at hnil
      simp [tokensWithin, lexemeTokens] at hnil
    | _ => cases htoken

/-- The last token ends where the text does. -/
theorem last_token (hne : kindsWithin false v ≠ []) (p : Nat) :
    ∃ t, (tokensWithin p false (lexemes v)).1.getLast? = some t ∧ t.stop = p + byteLength v := by
  cases hlast : (lexemes v).getLast? with
  | none =>
    rw [kindsWithin, List.getLast?_eq_none_iff.mp hlast] at hne
    exact absurd rfl hne
  | some l =>
    obtain ⟨ls, hls⟩ := List.getLast?_eq_some_iff.mp hlast
    have htoken := h.ends l hlast
    obtain ⟨kind, cs⟩ := l
    cases kind with
    | token k =>
      have htext := lexemesText_lexemes v
      rw [hls] at htext
      rw [hls, tokensWithin_append, getLast?_append_right _ (by simp [tokensWithin, lexemeTokens])]
      refine ⟨⟨k, p + byteLength (lexemesText ls), cs⟩, by simp [tokensWithin, lexemeTokens], ?_⟩
      rw [← htext, lexemesText_append, byteLength_append]
      simp [Token.stop, Nat.add_assoc]
    | _ => cases htoken

/-- The first token, and what stands before it, which does not begin with white space. -/
theorem first_token (hne : kindsWithin false v ≠ []) (p : Nat) :
    ∃ t g r, (tokensWithin p false (lexemes v)).1.head? = some t ∧ v = g ++ r ∧
      t.start = p + byteLength g ∧ ∀ c ∈ g.head?, isBlank c = false := by
  generalize hgs : (lexemes v).takeWhile (fun l => !l.isToken) = gs
  generalize hms : (lexemes v).dropWhile (fun l => !l.isToken) = ms
  have hsplit : lexemes v = gs ++ ms := by rw [← hgs, ← hms, List.takeWhile_append_dropWhile]
  have htrivia : ∀ l ∈ gs, l.isTrivia := by
    intro l hl
    refine isTrivia_of_isSound (h.sound l (by rw [hsplit]; exact List.mem_append_left _ hl)) ?_
    rw [← hgs] at hl
    simpa using List.mem_takeWhile_imp hl
  have htext := lexemesText_lexemes v
  rw [hsplit, lexemesText_append] at htext
  cases ms with
  | nil =>
    rw [List.append_nil] at hsplit
    rw [kindsWithin, hsplit, tokensWithin_trivia htrivia] at hne
    exact absurd rfl hne
  | cons l ms =>
    have htoken : l.isToken := by
      have := List.head?_dropWhile_not (fun l : Lexeme => !l.isToken) (lexemes v)
      rw [hms] at this
      simpa using this
    obtain ⟨kind, cs⟩ := l
    cases kind with
    | token k =>
      refine ⟨⟨k, p + byteLength (lexemesText gs), cs⟩, lexemesText gs, _, ?_, htext.symm, rfl, ?_⟩
      · rw [hsplit, tokensWithin_append, tokensWithin_trivia htrivia]
        rfl
      · intro c hc
        refine h.begins c ?_
        rw [← htext]
        cases hg : lexemesText gs with
        | nil =>
          rw [hg] at hc
          cases hc
        | cons d g =>
          rw [hg] at hc
          exact hc
    | _ => cases htoken

end IsValueText

end LiteralFill
