import LiteralFill.Proofs.Digits
import LiteralFill.Proofs.Replacement
import LiteralFill.Proofs.Filled.Line

/-!
Texts from token to token. Whatever is cut out of a text of sound lexemes, from the start of one token to the
end of another, is read on its own as the tokens between the cuts.
-/

namespace LiteralFill

/-! ## Lexemes in a row -/

/-- Lexemes in a row are those of their text. -/
theorem lexemes_between {text : List Char} {before between after : List Lexeme}
    (h : lexemes text = before ++ (between ++ after)) (hsound : ∀ l ∈ lexemes text, l.isSound) :
    lexemes (lexemesText between) = between := by
  have htext := lexemes_of_append before h
  rw [lexemesText_append] at htext
  have hafter : lexemes (lexemesText after) = after :=
    lexemes_of_append (before ++ between) (by rw [h, List.append_assoc])
  have hends : Separated ([] : List Char) := by simp [Separated]
  have hcut := lexemes_append_of_append (r := lexemesText after) (by rw [htext, hafter])
    (fun l hl => hsound l (by rw [h]; simp [hl])) hends fun l _ => by
      unfold LexemeKind.stopsBefore
      split <;> simp
  simpa [lexemes_nil] using hcut

/-! ## White space -/

/-- Blanks or a newline. -/
def Lexeme.isSpace (l : Lexeme) : Bool := l.kind == .blank || l.kind == .newline

theorem isBlank_of_isLineBlank {c : Char} (h : isLineBlank c) : isBlank c := by
  simp only [isLineBlank, Bool.or_eq_true, beq_iff_eq] at h
  rcases h with ((rfl | rfl) | rfl) | rfl <;> decide

/-- No letter is white space. -/
theorem isBlank_of_startsIdent {c : Char} (h : startsIdent c) : isBlank c = false := by
  rw [startsIdent, Bool.or_eq_true, beq_iff_eq] at h
  rcases h with rfl | h
  · decide
  rw [isLetter] at h
  split at h
  · have hrange := isAlpha_iff.mp h
    simp [isBlank, inRanges, blankRanges]
    omega
  · have happart : (blankRanges.all fun r => letterRanges.all fun l => r.2 < l.1 || l.2 < r.1) = true := by
      decide +kernel
    simp only [List.all_eq_true, Bool.or_eq_true, decide_eq_true_eq] at happart
    rw [inRanges, List.any_eq_true] at h
    obtain ⟨l, hl, hc⟩ := h
    rw [isBlank, inRanges, List.any_eq_false]
    intro r hr
    have hrl := happart r hr l hl
    simp only [Bool.and_eq_true, decide_eq_true_eq] at hc ⊢
    omega

/-- What is read at white space is blanks, a newline or nothing known. -/
theorem isBlank_of_lexemeAt {c : Char} {cs : List Char} {text : List Char}
    (hsound : Lexeme.isSound ⟨(lexemeAt c cs).1, text⟩) (hspace : Lexeme.isSpace ⟨(lexemeAt c cs).1, text⟩ = false) :
    isBlank c = false := by
  cases lexeme_cases c cs with
  | blank hc => simp [lexemeAt_blank _ hc, Lexeme.isSpace] at hspace
  | newline => simp [lexemeAt_newline, Lexeme.isSpace] at hspace
  | byteOrderMark => decide
  | word hc => exact isBlank_of_startsIdent hc
  | number hc => exact isBlank_of_isDigit hc
  | fraction _ => decide
  | string => decide
  | rawString => decide
  | rune => decide
  | lineComment _ => decide
  | blockComment _ => decide
  | fixed hc =>
    have hfixed : ∀ e ∈ fixedTokens, ∀ d ∈ e.1.head?, isBlank d = false := by
      have hall : fixedTokens.all fun e => e.1.head?.all fun d => !isBlank d := by decide
      simpa only [List.all_eq_true, Option.all_eq_true, Bool.not_eq_true', Option.mem_def] using hall
    rw [lexemeAt_fixed hc] at hsound
    cases hf : fixedToken (c :: cs) with
    | none => simp [hf, Lexeme.isSound] at hsound
    | some e =>
      obtain ⟨kind, n⟩ := e
      have hmem := fixedToken_text hf
      have hne := fixedTokens_nonempty hmem
      cases n with
      | zero => exact absurd rfl hne
      | succ n => exact hfixed _ hmem c rfl

/-- The first character of a lexeme that is no white space is none either. -/
theorem not_isBlank_of_lexemes {text : List Char} {l : Lexeme} {rest : List Lexeme} (h : lexemes text = l :: rest)
    (hsound : l.isSound) (hspace : l.isSpace = false) : ∀ c ∈ text.head?, isBlank c = false := by
  rintro c hc
  obtain ⟨cs, rfl⟩ : ∃ cs, text = c :: cs := List.head?_eq_some_iff.mp hc
  rw [lexemes_cons, List.cons.injEq] at h
  obtain ⟨rfl, -⟩ := h
  exact isBlank_of_lexemeAt hsound hspace

theorem isBlank_of_isSpace {text : List Char} {l : Lexeme} {rest : List Lexeme} (h : lexemes text = l :: rest)
    (hspace : l.isSpace) : ∀ c ∈ l.text, isBlank c := by
  have hformed := isFormed_of_lexemes h
  obtain ⟨kind, cs⟩ := l
  intro c hc
  cases kind with
  | blank => exact isBlank_of_isLineBlank (hformed c hc)
  | newline =>
    obtain rfl : cs = ['\n'] := hformed
    obtain rfl := List.mem_singleton.mp hc
    decide
  | _ => cases hspace

/-- White space at the start of a text of lexemes is taken off with the lexemes that are white space. -/
theorem trimStart_lexemesText {ls : List Lexeme} (h : lexemes (lexemesText ls) = ls) (hsound : ∀ l ∈ ls, l.isSound) :
    trimStart (lexemesText ls) = lexemesText (ls.dropWhile Lexeme.isSpace) := by
  induction ls with
  | nil => rfl
  | cons l ls ih =>
    by_cases hspace : l.isSpace
    · have hrest : lexemes (lexemesText ls) = ls := lexemes_of_append [l] h
      rw [List.dropWhile_cons_of_pos hspace, ← ih hrest fun m hm => hsound m (by simp [hm]), lexemesText_cons,
        trimStart, trimStart, List.dropWhile_append_of_pos (isBlank_of_isSpace h hspace)]
    · rw [Bool.not_eq_true] at hspace
      have hfirst := not_isBlank_of_lexemes h (hsound l (by simp)) hspace
      rw [List.dropWhile_cons_of_neg (by simp [hspace])]
      cases htext : lexemesText (l :: ls) with
      | nil => rfl
      | cons c cs => exact List.dropWhile_cons_of_neg (by simp [hfirst c (by rw [htext]; rfl)])

/-- White space with no statement before it gives no token. -/
theorem kinds_dropWhile_isSpace (ls : List Lexeme) :
    (tokensWithin 0 false (ls.dropWhile Lexeme.isSpace)).1.map (·.kind) = (tokensWithin 0 false ls).1.map (·.kind) := by
  induction ls with
  | nil => rfl
  | cons l ls ih =>
    by_cases hspace : l.isSpace
    · have hnone : lexemeTokens 0 false l = ([], false) := by
        obtain ⟨kind, text⟩ := l
        cases kind <;> first | rfl | cases hspace
      rw [List.dropWhile_cons_of_pos hspace, ih, tokensWithin_cons, hnone]
      exact kinds_tokensWithin_lexemes _ _ _ _
    · rw [List.dropWhile_cons_of_neg hspace]

/-- Lexemes up to a token make a value without the white space before them. -/
theorem isValueText_trimStart {text w : List Char} {before between front after : List Lexeme} {k : TokenKind}
    (h : lexemes text = before ++ (between ++ after)) (hsound : ∀ l ∈ lexemes text, l.isSound)
    (hend : between = front ++ [⟨.token k, w⟩]) (hlast : k ≠ .semicolon)
    (hvalue : IsValue ((tokensWithin 0 false between).1.map (·.kind))) :
    IsValueText (trimStart (lexemesText between)) := by
  have hmem : ∀ l ∈ between, l.isSound := fun l hl => hsound l (by rw [h]; simp [hl])
  have hlexemes := lexemes_between h hsound
  rw [trimStart_lexemesText hlexemes hmem]
  rw [← kinds_dropWhile_isSpace] at hvalue
  have hfirst := List.head?_dropWhile_not Lexeme.isSpace between
  have hcut : between.takeWhile Lexeme.isSpace ++ between.dropWhile Lexeme.isSpace = between :=
    List.takeWhile_append_dropWhile
  obtain ⟨v, hv⟩ : ∃ v, between.dropWhile Lexeme.isSpace = v ++ [⟨.token k, w⟩] := by
    rw [hend, List.dropWhile_append]
    split
    · exact ⟨[], rfl⟩
    · exact ⟨_, rfl⟩
  generalize between.dropWhile Lexeme.isSpace = ms at *
  have hms : lexemes (lexemesText ms) = ms := lexemes_of_append _ (hlexemes.trans hcut.symm)
  refine ⟨fun l hl => ?_, ?_, fun l hl => ?_, by rwa [kindsWithin, hms], ?_⟩
  · rw [hms] at hl
    exact hmem l (by rw [← hcut]; exact List.mem_append_right _ hl)
  · cases ms with
    | nil => simp
    | cons l rest =>
      exact not_isBlank_of_lexemes hms (hmem l (by rw [← hcut]; simp)) (by simpa using hfirst)
  · rw [hms, hv, List.getLast?_concat] at hl
    cases hl
    rfl
  · rw [kindsWithin, hms, hv, tokensWithin_append, List.map_append,
      getLast?_append_right _ (by simp [tokensWithin, lexemeTokens])]
    simpa [tokensWithin, lexemeTokens] using hlast

/-- A sound lexeme read as an identifier is one. -/
theorem isIdentifier_of_lexemes {text : List Char} {l : Lexeme} {rest : List Lexeme} (h : lexemes text = l :: rest)
    (hkind : l.kind = .token .ident) (hsound : l.isSound) : IsIdentifier l.text := by
  cases text with
  | nil => cases h
  | cons c cs =>
    rw [lexemes_cons, List.cons.injEq] at h
    obtain ⟨rfl, -⟩ := h
    have hstart := startsIdent_of_lexemeAt hkind
    refine ⟨?_, by simpa [Lexeme.isSound, show (lexemeAt c cs).1 = _ from hkind] using hsound⟩
    rw [lexemeAt_word _ hstart]
    simp only [Nat.add_comm 1, List.take_succ_cons, take_runLength]
    exact ⟨c, _, rfl, hstart, fun d hd => List.mem_takeWhile_imp hd⟩

/-! ## Tokens one after another -/

namespace Lexed

variable {s : Lexed} {i j m : Nat}

/-- What the tokens from one index up to another are. -/
def kindsBetween (s : Lexed) (i j : Nat) : List TokenKind := (s.kindsFrom i).take (j - i)

theorem kindsBetween_self (s : Lexed) (i : Nat) : s.kindsBetween i i = [] := by
  rw [kindsBetween, Nat.sub_self, List.take_zero]

theorem kindsBetween_append (s : Lexed) (him : i ≤ m) (hmj : m ≤ j) :
    s.kindsBetween i j = s.kindsBetween i m ++ s.kindsBetween m j := by
  have hdrop : s.kindsFrom m = (s.kindsFrom i).drop (m - i) := by
    simp only [kindsFrom, ← List.map_drop, List.drop_drop]
    congr 2
    omega
  have hsum : j - i = m - i + (j - m) := by omega
  rw [kindsBetween, kindsBetween, kindsBetween, hdrop, hsum, List.take_add]

theorem kindsBetween_cons {k : TokenKind} (hk : s.kindAt i = some k) (hij : i < j) :
    s.kindsBetween i j = k :: s.kindsBetween (i + 1) j := by
  have hsucc : j - i = j - (i + 1) + 1 := by omega
  rw [kindsBetween, kindsBetween, kindsFrom_cons hk, hsucc, List.take_succ_cons]

/-! ## Cuts at tokens -/

variable (hs : s.IsRead) (hsound : ∀ l ∈ lexemes s.text, l.isSound)
include hs hsound

/-- The lexemes before a token that is written, and as many tokens as are before it. -/
theorem IsRead.split {t : Token} (ht : s.tokens[i]? = some t) (hne : t.text ≠ []) : ∃ before after,
    lexemes s.text = before ++ ⟨.token t.kind, t.text⟩ :: after ∧ byteLength (lexemesText before) = t.start ∧
      (tokensWithin 0 false before).1.length = i := by
  obtain ⟨before, after, heq, hp⟩ := mem_placed (hs.placed_of_token hsound ht hne).1
  have hstart : s.startAt i = t.start := by simp [startAt, ht]
  rw [hstart, Nat.zero_add] at hp
  refine ⟨before, after, heq, hp.symm, ?_⟩
  generalize hn : (tokensWithin 0 false before).1.length = n
  have hget : s.tokens[n]? = some t := by
    rw [← Array.getElem?_toList, hs.tokens_eq, heq, tokensFrom_append, Nat.zero_add, ← hp, tokensFrom_cons,
      List.getElem?_append_right (by omega), hn, Nat.sub_self]
    rfl
  have hpos := byteLength_pos hne
  have hlt : i < s.size := (Array.getElem?_eq_some_iff.mp ht).1
  have hlt' : n < s.size := (Array.getElem?_eq_some_iff.mp hget).1
  have hafter : ∀ {a b : Nat}, s.tokens[a]? = some t → s.tokens[b]? = some t → b < s.size → ¬ a < b := by
    intro a b ha hb hbs hab
    have := hs.stop_le_start hab hbs
    simp only [stopAt, startAt, ha, hb, Option.map_some, Option.getD_some, Token.stop] at this
    omega
  have h1 := hafter ht hget hlt'
  have h2 := hafter hget ht hlt
  omega

omit hsound in
/-- The tokens of lexemes in a row. -/
theorem IsRead.kinds_of_lexemes {before inner after : List Lexeme} (h : lexemes s.text = before ++ (inner ++ after))
    (hi : (tokensWithin 0 false before).1.length = i) (hm : (tokensWithin 0 false (before ++ inner)).1.length = m) :
    s.kindsBetween i m = (tokensWithin 0 (tokensWithin 0 false before).2 inner).1.map (·.kind) := by
  rw [tokensWithin_append, List.length_append, hi] at hm
  have htokens : s.kindsFrom i =
      (tokensWithin (0 + byteLength (lexemesText before)) (tokensWithin 0 false before).2 inner).1.map (·.kind) ++
        (tokensFrom (0 + byteLength (lexemesText before) + byteLength (lexemesText inner))
          (tokensWithin (0 + byteLength (lexemesText before)) (tokensWithin 0 false before).2 inner).2 after).map
            (·.kind) := by
    rw [kindsFrom, hs.tokens_eq, h, tokensFrom_append, ← hi, List.drop_left, tokensFrom_append, List.map_append]
  have hsub : m - i = ((tokensWithin (0 + byteLength (lexemesText before)) (tokensWithin 0 false before).2
      inner).1.map (·.kind)).length := by
    rw [List.length_map]
    omega
  rw [kindsBetween, htokens, hsub, List.take_left]
  exact kinds_tokensWithin_lexemes _ _ _ _

/-- The lexemes from one written token through another. -/
theorem IsRead.between {t u : Token} (him : i ≤ m) (ht : s.tokens[i]? = some t) (hne : t.text ≠ [])
    (hu : s.tokens[m]? = some u) (hne' : u.text ≠ []) : ∃ before inner after,
    lexemes s.text = before ++ (inner ++ after) ∧ byteLength (lexemesText before) = t.start ∧
      byteLength (lexemesText (before ++ inner)) = u.stop ∧
      (∃ ls, inner = ⟨.token t.kind, t.text⟩ :: ls) ∧ (∃ ls, inner = ls ++ [⟨.token u.kind, u.text⟩]) ∧
      ∀ p pending, (tokensWithin p pending inner).1.map (·.kind) = s.kindsBetween i (m + 1) := by
  obtain ⟨before, rest, hbefore, hstart, hcount⟩ := hs.split hsound ht hne
  obtain ⟨upto, after, hupto, hstart', hcount'⟩ := hs.split hsound hu hne'
  obtain ⟨inner, rfl, hinner⟩ : ∃ inner, upto = before ++ inner ∧
      ⟨.token t.kind, t.text⟩ :: rest = inner ++ ⟨.token u.kind, u.text⟩ :: after := by
    rcases List.append_eq_append_iff.mp (hbefore.symm.trans hupto) with h | ⟨w, rfl, hw⟩
    · exact h
    · cases w with
      | nil => exact ⟨[], (List.append_nil _).symm.trans (List.append_nil _).symm, by simpa using hw.symm⟩
      | cons l w =>
        obtain ⟨rfl, -⟩ := List.cons.inj hw
        rw [tokensWithin_append, List.length_append, hcount', tokensWithin_cons] at hcount
        simp only [lexemeTokens, List.length_append, List.length_singleton] at hcount
        omega
  have hfirst : ∃ ls, inner ++ [⟨.token u.kind, u.text⟩] = ⟨.token t.kind, t.text⟩ :: ls := by
    cases inner with
    | nil => exact ⟨[], by rw [List.nil_append, (List.cons.inj hinner).1]⟩
    | cons l inner => exact ⟨_, by rw [List.cons_append, ← (List.cons.inj hinner).1]⟩
  have hstop : byteLength (lexemesText (before ++ (inner ++ [⟨.token u.kind, u.text⟩]))) = u.stop := by
    rw [← List.append_assoc, lexemesText_append, byteLength_append, hstart']
    simp [Token.stop]
  have hlength : (tokensWithin 0 false (before ++ (inner ++ [⟨.token u.kind, u.text⟩]))).1.length = m + 1 := by
    rw [← List.append_assoc, tokensWithin_append, List.length_append, hcount']
    rfl
  have hall : lexemes s.text = before ++ (inner ++ [⟨.token u.kind, u.text⟩] ++ after) := by simp [hupto]
  refine ⟨before, _, after, hall, hstart, hstop, hfirst, ⟨inner, rfl⟩, fun p pending => ?_⟩
  obtain ⟨ls, hls⟩ := hfirst
  rw [kinds_of_lexemes hs hall hcount hlength, hls]
  exact kinds_tokensWithin_lexemes _ _ _ _

/-- The text from one written token through another. -/
theorem IsRead.isPart {t u : Token} (him : i ≤ m) (ht : s.tokens[i]? = some t) (hne : t.text ≠ [])
    (hu : s.tokens[m]? = some u) (hne' : u.text ≠ []) :
    IsPart (slice s.text ⟨s.startAt i, s.stopAt m⟩) (s.kindsBetween i (m + 1)) := by
  obtain ⟨before, inner, after, hall, hstart, hstop, ⟨ls, hls⟩, ⟨ls', hls'⟩, hkinds⟩ :=
    hs.between hsound him ht hne hu hne'
  have hslice : slice s.text ⟨s.startAt i, s.stopAt m⟩ = lexemesText inner := by
    rw [← slice_eq after (by rw [hall, List.append_assoc]), hstart, hstop]
    simp [startAt, stopAt, ht, hu]
  have hinner := lexemes_between hall hsound
  rw [hslice]
  refine ⟨fun l hl => ?_, ⟨_, ls, by rw [hinner, hls], rfl⟩, fun l hl => ?_, ?_⟩
  · rw [hinner] at hl
    exact hsound l (by rw [hall]; simp [hl])
  · rw [hinner, hls', List.getLast?_concat] at hl
    cases hl
    rfl
  · rw [kindsWithin, hinner, hkinds]

/-- The text behind a token that ends no statement, through another token, without the white space before it. -/
theorem IsRead.isValueText {t u : Token} (him : i < m) (ht : s.tokens[i]? = some t) (hne : t.text ≠ [])
    (hends : t.kind.endsStatement = false) (hu : s.tokens[m]? = some u) (hne' : u.text ≠ [])
    (hvalue : IsValue (s.kindsBetween (i + 1) (m + 1))) (hlast : u.kind ≠ .semicolon) :
    IsValueText (trimStart (slice s.text ⟨s.stopAt i, s.stopAt m⟩)) := by
  obtain ⟨before, inner, after, hall, hstart, hstop, ⟨ls, rfl⟩, ⟨ls', hls'⟩, hkinds⟩ :=
    hs.between hsound (Nat.le_of_lt him) ht hne hu hne'
  obtain ⟨w, rfl⟩ : ∃ w, ls = w ++ [⟨.token u.kind, u.text⟩] := by
    cases ls' with
    | nil =>
      obtain ⟨-, rfl⟩ := List.cons.inj hls'
      have hle := hs.stop_le_start him (Array.getElem?_eq_some_iff.mp hu).1
      have hpos := byteLength_pos hne'
      simp only [stopAt, startAt, ht, hu, Option.map_some, Option.getD_some, Token.stop] at hle
      rw [lexemesText_append, byteLength_append, hstart] at hstop
      simp only [lexemesText_cons, lexemesText_nil, List.append_nil, Token.stop] at hstop
      omega
    | cons l ls' => exact ⟨ls', (List.cons.inj hls').2⟩
  have hafter : lexemes s.text = (before ++ [⟨.token t.kind, t.text⟩]) ++
      (w ++ [⟨.token u.kind, u.text⟩] ++ after) := by simp [hall]
  have hslice : slice s.text ⟨s.stopAt i, s.stopAt m⟩ = lexemesText (w ++ [⟨.token u.kind, u.text⟩]) := by
    have hparts := hafter
    rw [← List.append_assoc] at hparts
    rw [← slice_eq after hparts]
    congr 2
    · simp [stopAt, ht, Token.stop, byteLength_append, hstart]
    · simp [stopAt, hu, ← hstop]
  rw [hslice]
  refine isValueText_trimStart hafter hsound rfl hlast ?_
  have hcons := hkinds 0 false
  rw [kindsBetween_cons (k := t.kind) (by simp [kindAt, ht]) (by omega), tokensWithin_cons] at hcons
  simp only [lexemeTokens, hends, List.singleton_append, List.map_cons, List.cons.injEq, true_and] at hcons
  rw [kinds_tokensWithin_lexemes _ _ _ _, hcons]
  exact hvalue

/-- The names in a text are identifiers. -/
theorem IsRead.isIdentifier (h : s.kindAt i = some .ident) : IsIdentifier (s.nameAt i).toList := by
  obtain ⟨t, ht⟩ := exists_token (kindAt_lt h)
  have hkind := kind_of_token ht h
  have hne : t.text ≠ [] := hs.text_ne_nil ht (by simp [hkind])
  obtain ⟨before, after, heq, -, -⟩ := hs.split hsound ht hne
  have hname : (s.nameAt i).toList = t.text := by simp [nameAt, ht, Token.name]
  rw [hname]
  exact isIdentifier_of_lexemes (lexemes_of_append before heq) (by rw [hkind]) (hsound _ (by simp [heq]))

end Lexed

end LiteralFill
