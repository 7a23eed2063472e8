import LiteralFill.Proofs.Filled.TypeText

/-!
The lengths of arrays. The text of a length begins behind the opening bracket and ends before the closing one, or
where a newline stands for a semicolon. When it holds nothing but tokens and blanks, it is read on its own as the
tokens between the brackets.
-/

namespace LiteralFill

/-- Tokens and blanks, but no comment and no line break. -/
def IsPlain (text : List Char) : Prop := ∀ l ∈ lexemes text, l.isToken ∨ l.kind = .blank

instance (text : List Char) : Decidable (IsPlain text) :=
  inferInstanceAs (Decidable (∀ l ∈ lexemes text, l.isToken ∨ l.kind = .blank))

/-! ## Semicolons that are not written -/

/-- A newline, or a comment that may hold one. -/
def Lexeme.breaksLine (l : Lexeme) : Prop := l.kind = .newline ∨ l.kind = .blockComment

/-- A token without characters comes from a newline, or from a comment with one. -/
theorem lexemeTokens_implied {offset : Nat} {pending : Bool} {l : Lexeme} {t : Token}
    (h : t ∈ (lexemeTokens offset pending l).1) (ht : t.text = []) (hl : l.text ≠ []) :
    l.breaksLine ∧ ∃ cut rest, l.text = cut ++ '\n' :: rest ∧ t.start = offset + byteLength cut := by
  obtain ⟨kind, text⟩ := l
  cases kind <;> simp only [lexemeTokens] at h
  case newline | blockComment =>
    cases pending <;> cases hline : newlineAt offset text <;> simp [hline] at h
    obtain ⟨cut, rest, htext, -, hstart⟩ := newlineAt_eq_some.mp hline
    exact ⟨by simp [Lexeme.breaksLine], cut, rest, htext, by rw [h, ← hstart]; rfl⟩
  case openComment | token =>
    rw [List.mem_singleton] at h
    rw [h] at ht
    exact absurd ht hl
  all_goals cases h

/-- Where a token without characters stands: between two lexemes, or within one that breaks a line. What follows it
is a newline, or nothing. -/
theorem tokensFrom_cut {offset i : Nat} {pending : Bool} {ls : List Lexeme} {t : Token}
    (h : (tokensFrom offset pending ls)[i]? = some t) (ht : t.text = []) (hls : ∀ l ∈ ls, l.text ≠ []) :
    ∃ before after cut rest, ls = before ++ after ∧ (tokensWithin offset pending before).1.length = i ∧
      lexemesText after = cut ++ rest ∧ (∀ d ∈ rest.head?, d = '\n') ∧
      t.start = offset + byteLength (lexemesText before ++ cut) ∧
      (cut = [] ∨ ∃ l after', after = l :: after' ∧ l.breaksLine) := by
  induction ls generalizing offset i pending with
  | nil =>
    rw [tokensFrom] at h
    split at h
    · obtain ⟨hi, rfl⟩ := List.getElem?_eq_some_iff.mp h
      obtain rfl : i = 0 := by simpa using hi
      exact ⟨[], [], [], [], rfl, rfl, rfl, by simp, rfl, .inl rfl⟩
    · cases h
  | cons l ls ih =>
    rw [tokensFrom_cons] at h
    have hlength := lexemeTokens_length offset pending l
    rcases Nat.lt_or_ge i (lexemeTokens offset pending l).1.length with hi | hi
    · rw [List.getElem?_append_left hi] at h
      obtain ⟨hbreaks, cut, rest, htext, hstart⟩ :=
        lexemeTokens_implied (List.mem_of_getElem? h) ht (hls l List.mem_cons_self)
      refine ⟨[], l :: ls, cut, '\n' :: rest ++ lexemesText ls, rfl, ?_, ?_, ?_, hstart, .inr ⟨l, ls, rfl, hbreaks⟩⟩
      · rw [tokensWithin_nil, List.length_nil]
        omega
      · rw [lexemesText_cons, htext, List.append_assoc]
      · rintro d ⟨⟩
        rfl
    · rw [List.getElem?_append_right hi] at h
      obtain ⟨before, after, cut, rest, rfl, hcount, htext, hrest, hstart, hcut⟩ :=
        ih h fun m hm => hls m (List.mem_cons_of_mem l hm)
      refine ⟨l :: before, after, cut, rest, rfl, ?_, htext, hrest, ?_, hcut⟩
      · rw [tokensWithin_cons, List.length_append, hcount]
        omega
      · rw [hstart, lexemesText_cons, List.append_assoc, byteLength_append l.text, Nat.add_assoc]

/-- The beginning of a newline or a comment, up to a line break in it, is not plain. -/
theorem not_isPlain_of_breaksLine {l : Lexeme} {after : List Lexeme} (h : lexemes (lexemesText (l :: after)) = l :: after)
    (hl : l.breaksLine) {cut rest : List Char} (hcut : lexemesText (l :: after) = cut ++ rest) (hne : cut ≠ [])
    (hrest : ∀ d ∈ rest.head?, d = '\n') : ¬ IsPlain cut := by
  have hformed := isFormed_of_lexemes h
  obtain ⟨c, cut, rfl⟩ := List.exists_cons_of_ne_nil hne
  rw [lexemesText_cons] at hcut
  obtain ⟨kind, text⟩ := l
  intro hplain
  have hfirst := hplain _ (by rw [lexemes_cons]; exact List.mem_cons_self)
  rcases hl with hl | hl <;> obtain rfl := hl
  · obtain rfl : text = ['\n'] := hformed
    obtain ⟨rfl, -⟩ := List.cons.inj hcut
    rw [lexemeAt_newline] at hfirst
    simp [Lexeme.isToken] at hfirst
  · obtain ⟨body, rfl, -⟩ := hformed
    obtain ⟨rfl, hbody⟩ := List.cons.inj hcut
    cases cut with
    | nil => exact absurd (hrest '*' (by rw [← show _ = rest from hbody]; rfl)) (by decide)
    | cons d cut =>
      obtain ⟨rfl, -⟩ := List.cons.inj hbody
      rw [lexemeAt_blockComment] at hfirst
      cases hclose : throughClose cut <;> simp [hclose, Lexeme.isToken] at hfirst

/-- Lexemes that are cut off within one that breaks a line: if nothing but tokens and blanks is left, the cut is
before it. -/
theorem lexemes_of_plain {inner after : List Lexeme} {cut behind : List Char}
    (h : lexemes (lexemesText (inner ++ after)) = inner ++ after) (hsound : ∀ l ∈ inner, l.isSound)
    (hafter : lexemesText after = cut ++ behind) (hbehind : ∀ d ∈ behind.head?, d = '\n')
    (hcut : cut = [] ∨ ∃ l after', after = l :: after' ∧ l.breaksLine)
    (hplain : IsPlain (lexemesText inner ++ cut)) : lexemes (lexemesText inner ++ cut) = inner := by
  have hlexemes : lexemes (lexemesText inner ++ cut) = inner ++ lexemes cut := by
    have htext : lexemesText (inner ++ after) = lexemesText inner ++ (cut ++ behind) := by
      rw [lexemesText_append, hafter]
    rw [htext] at h
    have hstop : cut = [] → ∀ l ∈ inner.getLast?, l.kind.stopsBefore [] := by
      rintro - ⟨kind, text⟩ -
      cases kind <;> simp [LexemeKind.stopsBefore]
    have hcut := lexemes_append_of_cut h rfl hsound (by simp [Separated] : Separated []) hstop
    rwa [List.append_nil] at hcut
  by_cases hne : cut = []
  · rw [hlexemes, hne, lexemes_nil, List.append_nil]
  · obtain ⟨l, after', rfl, hbreaks⟩ := hcut.resolve_left hne
    refine absurd (fun m hm => ?_) (not_isPlain_of_breaksLine (lexemes_of_append inner h) hbreaks hafter hne hbehind)
    exact hplain m (by rw [hlexemes]; exact List.mem_append_right inner hm)

namespace Lexed

variable {s : Lexed} {i m : Nat} (hs : s.IsRead) (hsound : ∀ l ∈ lexemes s.text, l.isSound)
include hs hsound

/-- The text from a written token up to a semicolon that is not written, if it holds only tokens and blanks. -/
theorem IsRead.read_implied {t u : Token} (him : i < m) (ht : s.tokens[i]? = some t) (hne : t.text ≠ [])
    (hu : s.tokens[m]? = some u) (hnil : u.text = []) (hplain : IsPlain (slice s.text ⟨s.startAt i, s.stopAt m⟩)) :
    (∀ l ∈ lexemes (slice s.text ⟨s.startAt i, s.stopAt m⟩), l.isSound) ∧
      kindsWithin false (slice s.text ⟨s.startAt i, s.stopAt m⟩) = s.kindsBetween i m := by
  obtain ⟨before, rest, hbefore, hstart, hcount⟩ := hs.split hsound ht hne
  rw [← Array.getElem?_toList, hs.tokens_eq] at hu
  obtain ⟨upto, after, cut, behind, hupto, hcount', hafter, hbehind, hstart', hcut⟩ :=
    tokensFrom_cut hu hnil (fun l hl => text_ne_nil_of_mem hl)
  rw [← hs.tokens_eq, Array.getElem?_toList] at hu
  obtain ⟨inner, rfl, hinner⟩ : ∃ inner, upto = before ++ inner ∧
      ⟨.token t.kind, t.text⟩ :: rest = inner ++ after := by
    rcases List.append_eq_append_iff.mp (hbefore.symm.trans hupto) with h | ⟨w, rfl, -⟩
    · exact h
    · rw [tokensWithin_append, List.length_append] at hcount
      omega
  have hall : lexemes s.text = before ++ (inner ++ after) := by rw [hupto, List.append_assoc]
  have hne' : inner ≠ [] := by
    rintro rfl
    rw [List.append_nil] at hcount'
    omega
  have hlast : byteLength (lexemesText (before ++ inner) ++ cut) =
      byteLength (lexemesText before) + byteLength (lexemesText inner ++ cut) := by
    rw [lexemesText_append, List.append_assoc, byteLength_append]
  have hslice : slice s.text ⟨s.startAt i, s.stopAt m⟩ = lexemesText inner ++ cut := by
    have htext : s.text = lexemesText before ++ ((lexemesText inner ++ cut) ++ behind) := by
      rw [List.append_assoc, ← hafter, ← lexemesText_append, ← lexemesText_append, ← hall, lexemesText_lexemes]
    refine slice_part htext (by simp [startAt, ht, hstart]) ?_
    simpa [stopAt, hu, Token.stop, hnil, hstart', byteLength] using hlast
  have hsound' : ∀ l ∈ inner, l.isSound := fun l hl => hsound l (by rw [hall]; simp [hl])
  rw [hslice] at hplain
  have hlexemes : lexemes (lexemesText inner ++ cut) = inner :=
    lexemes_of_plain (lexemes_of_append before hall) hsound' hafter hbehind hcut hplain
  rw [hslice, kindsWithin, hlexemes, hs.kinds_of_lexemes hall hcount hcount']
  refine ⟨hsound', ?_⟩
  obtain ⟨l, ls, rfl⟩ := List.exists_cons_of_ne_nil hne'
  obtain ⟨rfl, -⟩ := List.cons.inj hinner
  rfl

/-- The text between square brackets is the length of an array, if it holds only tokens and blanks. -/
theorem IsRead.isLengthText (hp : s.IsPaired) {o c : Nat} (hc : s.closerOf o = some c) (hlt : o + 1 < c)
    (hplain : IsPlain (slice s.text ⟨s.startAt (o + 1), s.stopAt (c - 1)⟩)) :
    IsLengthText (slice s.text ⟨s.startAt (o + 1), s.stopAt (c - 1)⟩) := by
  have hm := hs.matched
  obtain ⟨-, hcs, b, hopen, -⟩ := hm.closer_spec hc
  obtain ⟨t, ht⟩ := exists_token (show o + 1 < s.size by omega)
  obtain ⟨u, hu⟩ := exists_token (show c - 1 < s.size by omega)
  have hne := hs.text_ne_nil_of_succ hopen ht rfl
  by_cases hnil : u.text = []
  · have hlast : s.kindAt (c - 1) = some .semicolon := by
      by_contra hk
      exact hs.text_ne_nil hu (fun h => hk (by simp [kindAt, hu, h])) hnil
    have hne' : o + 1 ≠ c - 1 := by
      rintro h
      rw [h, hu] at ht
      cases ht
      exact hne hnil
    obtain ⟨hsound', hkinds⟩ := hs.read_implied hsound (by omega) ht hne hu hnil hplain
    refine ⟨hsound', hplain, ?_⟩
    rw [hkinds]
    refine IsPaired.isBalanced hm hp hc (Nat.lt_succ_self o) (by omega) (Nat.sub_le c 1) (isClear_start s o) ?_
    intro j d hj hjc hd
    have hdc := hm.isClear_closer hc j d hj (by omega) hd
    obtain ⟨-, -, b', -, hclose⟩ := hm.closer_spec hd
    have hdl : d ≠ c - 1 := by
      rintro rfl
      rw [hlast] at hclose
      cases hclose
    omega
  · have hpart := hs.isPart hsound (show o + 1 ≤ c - 1 by omega) ht hne hu hnil
    rw [Nat.sub_add_cancel (by omega)] at hpart
    refine ⟨hpart.sound, hplain, ?_⟩
    rw [hpart.kinds]
    exact IsPaired.isBalanced_inside hm hp hc

end Lexed

end LiteralFill
