import LiteralFill.Proofs.Lexing.Token

/-!
Texts that are read on their own, whatever follows them, and the kinds of the tokens within them.
-/

namespace LiteralFill

/-- A lexeme that is a token. -/
def Lexeme.isToken (l : Lexeme) : Bool :=
  match l.kind with
  | .token _ => true
  | _ => false

/-- A text of whole lexemes that does not end in a line comment: what follows is read on its own. -/
structure IsWhole (text : List Char) : Prop where
  sound : ∀ l ∈ lexemes text, l.isSound
  ended : ∀ l ∈ (lexemes text).getLast?, l.kind ≠ .lineComment

/-- The kinds of the tokens within a text. `pending` says that a token before it can end a statement. -/
def kindsWithin (pending : Bool) (text : List Char) : List TokenKind :=
  (tokensWithin 0 pending (lexemes text)).1.map (·.kind)

theorem lexemes_fixed {c : Char} {cs : List Char} {kind : TokenKind}
    (h : lexemeAt c cs = (.token kind, 1)) : lexemes (c :: cs) = ⟨.token kind, [c]⟩ :: lexemes cs := by
  rw [lexemes_cons, h]
  rfl

theorem IsWhole.lexemes_append {p : List Char} (h : IsWhole p) {c : Char} (hc : c ∈ separators)
    (hb : isLineBlank c = false) (r : List Char) : lexemes (p ++ c :: r) = lexemes p ++ lexemes (c :: r) := by
  refine lexemes_append_of_append (r := []) (by rw [List.append_nil, lexemes_nil, List.append_nil])
    h.sound ?_ ?_
  · rintro d ⟨⟩
    exact hc
  · intro l hl
    have hne := h.ended l hl
    unfold LexemeKind.stopsBefore
    split
    · rintro d ⟨⟩
      exact hb
    · exact absurd ‹_› hne
    · trivial

theorem kinds_tokensWithin (offset : Nat) (pending : Bool) (text : List Char) :
    (tokensWithin offset pending (lexemes text)).1.map (·.kind) = kindsWithin pending text := by
  have hshift := tokensWithin_shift 0 offset pending (lexemes text)
  rw [Nat.zero_add] at hshift
  rw [hshift, List.map_map]
  rfl

/-! ## Texts one after another -/

theorem getLast?_append_right {α : Type} (xs : List α) {ys : List α} (h : ys ≠ []) :
    (xs ++ ys).getLast? = ys.getLast? := by
  rw [List.getLast?_append, List.getLast?_eq_some_getLast h]
  rfl

/-- A text that ends with a token goes up to the next separator. -/
theorem lexemes_append_of_token {p r : List Char} (hsound : ∀ l ∈ lexemes p, l.isSound)
    (hended : ∀ l ∈ (lexemes p).getLast?, l.isToken) (hr : Separated r) :
    lexemes (p ++ r) = lexemes p ++ lexemes r := by
  refine lexemes_append_of_append (r := []) (by rw [List.append_nil, lexemes_nil, List.append_nil])
    hsound hr fun l hl => ?_
  have htoken := hended l hl
  obtain ⟨kind, text⟩ := l
  cases kind with
  | token _ => trivial
  | _ => cases htoken

/-- Blanks go up to the next character that is none. -/
theorem lexemes_blanks {b r : List Char} (hne : b ≠ []) (hb : ∀ c ∈ b, isLineBlank c)
    (hr : ∀ d ∈ r.head?, isLineBlank d = false) : lexemes (b ++ r) = ⟨.blank, b⟩ :: lexemes r := by
  obtain ⟨c, b, rfl⟩ := List.exists_cons_of_ne_nil hne
  have hrest : r.takeWhile isLineBlank = [] := by
    cases r with
    | nil => rfl
    | cons d r => simp [hr d rfl]
  have hlength : runLength isLineBlank (b ++ r) = b.length := by
    rw [runLength, List.takeWhile_append_of_pos fun d hd => hb d (by simp [hd]), hrest, List.append_nil]
  rw [List.cons_append, lexemes_cons, lexemeAt_blank _ (hb c (by simp)), hlength, Nat.add_comm]
  simp

theorem lexemes_newline (r : List Char) : lexemes ('\n' :: r) = ⟨.newline, ['\n']⟩ :: lexemes r := by
  rw [lexemes_cons, lexemeAt_newline]
  rfl

/-- The kinds within two texts in a row, if it makes no difference to the second what comes before. -/
theorem kindsWithin_append {a b : List Char} (h : lexemes (a ++ b) = lexemes a ++ lexemes b)
    (hb : ∀ p, kindsWithin p b = kindsWithin false b) (pending : Bool) :
    kindsWithin pending (a ++ b) = kindsWithin pending a ++ kindsWithin false b := by
  rw [kindsWithin, h, tokensWithin_append, List.map_append, kinds_tokensWithin, kinds_tokensWithin, hb]

/-! ## Identifiers -/

/-- A letter with letters and digits behind it that is no reserved word. -/
structure IsIdentifier (name : List Char) : Prop where
  letters : ∃ c cs, name = c :: cs ∧ startsIdent c ∧ ∀ d ∈ cs, continuesIdent d
  word : Keyword.ofText? name = none

instance (name : List Char) : Decidable (IsIdentifier name) :=
  decidable_of_iff (name.head?.any startsIdent && name.tail.all continuesIdent && (Keyword.ofText? name).isNone) <| by
    simp only [Bool.and_eq_true, List.all_eq_true, Option.isNone_iff_eq_none]
    cases name with
    | nil => simpa using fun h : IsIdentifier [] => by simpa using h.letters
    | cons c cs =>
      constructor
      · rintro ⟨⟨hc, hcs⟩, hword⟩
        exact ⟨⟨c, cs, rfl, by simpa using hc, hcs⟩, hword⟩
      · rintro ⟨⟨_, _, ⟨⟩, hc, hcs⟩, hword⟩
        exact ⟨⟨by simpa using hc, hcs⟩, hword⟩

/-- An identifier goes up to the next character that cannot continue it. -/
theorem IsIdentifier.lexemes_append {name r : List Char} (h : IsIdentifier name)
    (hr : ∀ d ∈ r.head?, continuesIdent d = false) :
    lexemes (name ++ r) = ⟨.token .ident, name⟩ :: lexemes r := by
  obtain ⟨c, cs, rfl, hc, hcs⟩ := h.letters
  have hrest : r.takeWhile continuesIdent = [] := by
    cases r with
    | nil => rfl
    | cons d r => simp [hr d rfl]
  have hlength : runLength continuesIdent (cs ++ r) = cs.length := by
    rw [runLength, List.takeWhile_append_of_pos hcs, hrest, List.append_nil]
  have hkind : ∀ next, wordKind (c :: cs) next = .ident := by
    intro next
    unfold wordKind
    rw [h.word]
  rw [List.cons_append, lexemes_cons, lexemeAt_word _ hc, hlength, List.take_left, hkind, Nat.add_comm 1]
  simp

/-! ## Texts from a token to a token -/

/-- A text that begins and ends with a token, and the kinds of its tokens. -/
structure IsPart (text : List Char) (ks : List TokenKind) : Prop where
  sound : ∀ l ∈ lexemes text, l.isSound
  begins : ∃ l ls, lexemes text = l :: ls ∧ l.isToken
  ends : ∀ l ∈ (lexemes text).getLast?, l.isToken
  kinds : kindsWithin false text = ks

namespace IsPart

variable {a b : List Char} {ks ls : List TokenKind}

theorem kindsWithin_eq (h : IsPart a ks) (pending : Bool) : kindsWithin pending a = ks := by
  rw [← h.kinds]
  obtain ⟨⟨kind, text⟩, rest, hfirst, htoken⟩ := h.begins
  unfold kindsWithin
  rw [hfirst]
  cases kind with
  | token _ => rfl
  | _ => cases htoken

theorem lexemes_append (h : IsPart a ks) {r : List Char} (hr : Separated r) :
    lexemes (a ++ r) = lexemes a ++ lexemes r := lexemes_append_of_token h.sound h.ends hr

theorem ne_nil (h : IsPart a ks) : a ≠ [] := by
  rintro rfl
  obtain ⟨l, rest, hfirst, -⟩ := h.begins
  cases hfirst

theorem not_blank (h : IsPart a ks) : ∀ d ∈ a.head?, isLineBlank d = false := by
  obtain ⟨l, rest, hfirst, htoken⟩ := h.begins
  intro d hd
  obtain ⟨cs, rfl⟩ : ∃ cs, a = d :: cs := List.head?_eq_some_iff.mp hd
  rw [← Bool.not_eq_true]
  intro hblank
  rw [lexemes_cons, lexemeAt_blank _ hblank, List.cons.injEq] at hfirst
  obtain ⟨rfl, -⟩ := hfirst
  cases htoken

/-- What is cut where a lexeme of the first text ends. -/
theorem append_of_lexemes (ha : IsPart a ks) (hb : IsPart b ls)
    (h : lexemes (a ++ b) = lexemes a ++ lexemes b) : IsPart (a ++ b) (ks ++ ls) := by
  obtain ⟨l, rest, hfirst, htoken⟩ := ha.begins
  obtain ⟨m, more, hfirst', -⟩ := hb.begins
  refine ⟨?_, ⟨l, rest ++ lexemes b, by rw [h, hfirst, List.cons_append], htoken⟩, ?_, ?_⟩
  · intro m hm
    rw [h] at hm
    exact (List.mem_append.mp hm).elim (ha.sound m) (hb.sound m)
  · rw [h, getLast?_append_right _ (by rw [hfirst']; exact List.cons_ne_nil _ _)]
    exact hb.ends
  · rw [kindsWithin_append h fun p => by rw [hb.kindsWithin_eq, hb.kinds], ha.kinds, hb.kinds]

/-- A text that begins with a separator. -/
theorem append (ha : IsPart a ks) (hb : IsPart b ls) (hsep : Separated b) : IsPart (a ++ b) (ks ++ ls) :=
  ha.append_of_lexemes hb (ha.lexemes_append hsep)

/-- A text behind a space. -/
theorem space (ha : IsPart a ks) (hb : IsPart b ls) : IsPart (a ++ ' ' :: b) (ks ++ ls) := by
  have hspace : lexemes (' ' :: b) = ⟨.blank, [' ']⟩ :: lexemes b := by
    refine lexemes_blanks (b := [' ']) (by simp) (fun c hc => ?_) hb.not_blank
    obtain rfl := List.mem_singleton.mp hc
    rfl
  have h : lexemes (a ++ ' ' :: b) = lexemes a ++ ⟨.blank, [' ']⟩ :: lexemes b := by
    rw [ha.lexemes_append (by rintro d ⟨⟩; decide), hspace]
  obtain ⟨l, rest, hfirst, htoken⟩ := ha.begins
  obtain ⟨m, more, hfirst', -⟩ := hb.begins
  refine ⟨?_, ⟨l, rest ++ _ :: lexemes b, by rw [h, hfirst, List.cons_append], htoken⟩, ?_, ?_⟩
  · intro m hm
    rw [h] at hm
    rcases List.mem_append.mp hm with hm | hm
    · exact ha.sound m hm
    · rcases List.mem_cons.mp hm with rfl | hm
      · rfl
      · exact hb.sound m hm
  · rw [h, ← List.singleton_append, ← List.append_assoc,
      getLast?_append_right _ (by rw [hfirst']; exact List.cons_ne_nil _ _)]
    exact hb.ends
  · have hblank : ∀ p, kindsWithin p (' ' :: b) = ls := by
      intro p
      unfold kindsWithin
      rw [hspace, tokensWithin_cons]
      exact (kinds_tokensWithin _ p b).trans (hb.kindsWithin_eq p)
    rw [kindsWithin_append (by rw [h, hspace]) fun p => by rw [hblank, hblank], ha.kinds, hblank]

/-- A token of one character, whatever follows it. -/
theorem single {c : Char} {k : TokenKind} (h : lexemeAt c [] = (.token k, 1))
    (hk : Lexeme.isSound ⟨.token k, [c]⟩) : IsPart [c] [k] := by
  have hlexemes : lexemes [c] = [⟨.token k, [c]⟩] := lexemes_fixed h
  refine ⟨?_, ⟨_, _, hlexemes, rfl⟩, ?_, ?_⟩
  · simpa [hlexemes] using hk
  · simp [hlexemes, Lexeme.isToken]
  · simp [kindsWithin, hlexemes, tokensWithin_cons, lexemeTokens]

/-- A text behind a token of one character. -/
theorem cons {c : Char} {k : TokenKind} (h : lexemeAt c [] = (.token k, 1))
    (hb : lexemeAt c b = (.token k, 1)) (hk : Lexeme.isSound ⟨.token k, [c]⟩) (hpart : IsPart b ls) :
    IsPart (c :: b) (k :: ls) := by
  have hlexemes : lexemes [c] = [⟨.token k, [c]⟩] := lexemes_fixed h
  refine (single h hk).append_of_lexemes hpart ?_
  rw [List.singleton_append, lexemes_fixed hb, hlexemes]
  rfl

end IsPart

end LiteralFill
