import LiteralFill.Proofs.Brackets
import LiteralFill.Proofs.Lexing.Comment
import LiteralFill.Proofs.Lexing.Diagnostic

/-!
The tokens of the elements of a literal. The search for an element passes whole brackets, so it stops only
at places that no inner brackets enclose, and what it leaves between two elements are the comma and
semicolons.
-/

namespace LiteralFill

/-! ## The tokens of a text -/

namespace Lexed

/-- The tokens and the closers are those of the text. -/
structure IsRead (s : Lexed) : Prop where
  tokens_eq : s.tokens.toList = tokensFrom 0 false (lexemes s.text)
  matched : s.IsMatched

theorem isRead_ofText (text : List Char) : (ofText text).1.IsRead :=
  ⟨rfl, isMatched_ofText text⟩

variable {s : Lexed} (hs : s.IsRead)
include hs

theorem IsRead.mem {i : Nat} {t : Token} (h : s.tokens[i]? = some t) :
    t ∈ tokensFrom 0 false (lexemes s.text) := by
  rw [← hs.tokens_eq]
  exact Array.mem_toList_iff.mpr (Array.mem_of_getElem? h)

omit hs in
theorem exists_token {i : Nat} (h : i < s.size) : ∃ t, s.tokens[i]? = some t :=
  ⟨s.tokens[i], Array.getElem?_eq_getElem h⟩

theorem IsRead.stop_le_start {i j : Nat} (hij : i < j) (hj : j < s.size) :
    s.stopAt i ≤ s.startAt j := by
  obtain ⟨t, ht⟩ := exists_token (Nat.lt_trans hij hj)
  obtain ⟨u, hu⟩ := exists_token hj
  have hp := tokensFrom_pairwise 0 false (lexemes s.text)
  rw [← hs.tokens_eq, List.pairwise_iff_getElem] at hp
  have := hp i j (Nat.lt_trans hij hj) hj hij
  obtain ⟨hi', rfl⟩ := Array.getElem?_eq_some_iff.mp ht
  obtain ⟨hj', rfl⟩ := Array.getElem?_eq_some_iff.mp hu
  simp only [Array.getElem_toList] at this
  simp only [stopAt, startAt, ht, hu, Option.map_some, Option.getD_some]
  exact this

omit hs in
theorem start_le_stop {i : Nat} (hi : i < s.size) : s.startAt i ≤ s.stopAt i := by
  obtain ⟨t, ht⟩ := exists_token hi
  simp only [startAt, stopAt, ht, Option.map_some, Option.getD_some, Token.stop]
  omega

theorem IsRead.start_le_start {i j : Nat} (hij : i ≤ j) (hj : j < s.size) :
    s.startAt i ≤ s.startAt j := by
  rcases Nat.lt_or_eq_of_le hij with h | rfl
  · exact Nat.le_trans (start_le_stop (Nat.lt_trans h hj)) (hs.stop_le_start h hj)
  · exact Nat.le_refl _

theorem IsRead.stop_le_stop {i j : Nat} (hij : i ≤ j) (hj : j < s.size) :
    s.stopAt i ≤ s.stopAt j := by
  rcases Nat.lt_or_eq_of_le hij with h | rfl
  · exact Nat.le_trans (hs.stop_le_start h hj) (start_le_stop hj)
  · exact Nat.le_refl _

/-- A token without characters is a semicolon. -/
theorem IsRead.text_ne_nil {i : Nat} {t : Token} (h : s.tokens[i]? = some t)
    (hk : t.kind ≠ .semicolon) : t.text ≠ [] := by
  intro hnil
  have hmem := hs.mem h
  have himplied : ∀ (offset : Nat) (pending : Bool) (ls : List Lexeme), (∀ l ∈ ls, l.text ≠ []) →
      ∀ u ∈ tokensFrom offset pending ls, u.text = [] → u.kind = .semicolon := by
    intro offset pending ls
    induction ls generalizing offset pending with
    | nil =>
      intro _ u hu _
      cases pending <;> simp [tokensFrom] at hu
      rw [hu]
      rfl
    | cons l ls ih =>
      intro hne u hu hu'
      rw [tokensFrom_cons, List.mem_append] at hu
      rcases hu with hu | hu
      · have hl := hne l (by simp)
        obtain ⟨kind, text⟩ := l
        cases kind <;> simp only [lexemeTokens] at hu
        case newline | blockComment =>
          cases pending <;> cases hn : newlineAt offset text <;> simp [hn] at hu
          rw [hu]
          rfl
        case openComment | token =>
          rw [List.mem_singleton] at hu
          subst hu
          exact absurd hu' hl
        all_goals simp at hu
      · exact ih _ _ (fun m hm => hne m (by simp [hm])) u hu hu'
  exact hk (himplied 0 false _ (fun l hl => text_ne_nil_of_mem hl) t hmem hnil)

/-- The lexeme of a token with characters. -/
theorem IsRead.placed_of_token (hclean : ∀ l ∈ lexemes s.text, l.isSound) {i : Nat} {t : Token}
    (ht : s.tokens[i]? = some t) (hne : t.text ≠ []) :
    (s.startAt i, ⟨.token t.kind, t.text⟩) ∈ placed 0 (lexemes s.text) ∧
      s.stopAt i = s.startAt i + byteLength t.text := by
  obtain ⟨kind, hmem, hcase⟩ := lexeme_of_token (hs.mem ht) hne
  refine ⟨?_, by simp [startAt, stopAt, ht, Token.stop]⟩
  rcases hcase with rfl | ⟨rfl, -⟩
  · simpa [startAt, ht] using hmem
  · have hl : (⟨.openComment, t.text⟩ : Lexeme) ∈ lexemes s.text := by
      rw [← placed_map_snd 0 (lexemes s.text)]
      exact List.mem_map_of_mem (f := (·.2)) hmem
    have := hclean _ hl
    simp [Lexeme.isSound] at this

/-- The lexeme of a token of a known kind. -/
theorem IsRead.placed_of_kind (hclean : ∀ l ∈ lexemes s.text, l.isSound) {i : Nat} {k : TokenKind}
    (h : s.kindAt i = some k) (hk : k ≠ .semicolon) :
    ∃ cs, (s.startAt i, ⟨.token k, cs⟩) ∈ placed 0 (lexemes s.text) ∧
      s.stopAt i = s.startAt i + byteLength cs := by
  obtain ⟨t, ht⟩ := exists_token (kindAt_lt h)
  have hkind := kind_of_token ht h
  subst hkind
  exact ⟨t.text, hs.placed_of_token hclean ht (hs.text_ne_nil ht hk)⟩

omit hs in
/-- A token that is no semicolon has a kind, which is another one. -/
theorem exists_kind {i : Nat} (hi : i < s.size) (h : s.kindAt i ≠ some .semicolon) :
    ∃ k, s.kindAt i = some k ∧ k ≠ .semicolon := by
  obtain ⟨t, ht⟩ := exists_token hi
  have hk : s.kindAt i = some t.kind := by simp [kindAt, ht]
  exact ⟨t.kind, hk, fun heq => h (by rw [hk, heq])⟩

/-- A text can be cut where a token starts that is no semicolon, and where it stops. -/
theorem IsRead.isCut_of_kind (hclean : ∀ l ∈ lexemes s.text, l.isSound) {i : Nat} {k : TokenKind}
    (h : s.kindAt i = some k) (hk : k ≠ .semicolon) :
    IsCut (lexemes s.text) (s.startAt i) ∧ IsCut (lexemes s.text) (s.stopAt i) := by
  obtain ⟨cs, hplaced, hstop⟩ := hs.placed_of_kind hclean h hk
  rw [hstop]
  exact isCut_of_mem hplaced

/-- The token of a lexeme, with its index. -/
theorem IsRead.token_of_placed {p : Nat} {k : TokenKind} {cs : List Char}
    (h : (p, ⟨.token k, cs⟩) ∈ placed 0 (lexemes s.text)) :
    ∃ i, s.kindAt i = some k ∧ s.startAt i = p ∧ s.stopAt i = p + byteLength cs := by
  have hmem := token_of_lexeme false h
  rw [← hs.tokens_eq, Array.mem_toList_iff] at hmem
  obtain ⟨i, hi, hget⟩ := Array.mem_iff_getElem.mp hmem
  have ht : s.tokens[i]? = some ⟨k, p, cs⟩ := by rw [← hget]; exact Array.getElem?_eq_getElem hi
  exact ⟨i, by simp [kindAt, ht], by simp [startAt, ht], by simp [stopAt, ht, Token.stop]⟩

/-- A token lexeme between two tokens is a token between them. -/
theorem IsRead.token_between {p a b : Nat} {k : TokenKind} {cs : List Char}
    (h : (p, ⟨.token k, cs⟩) ∈ placed 0 (lexemes s.text)) (ha : a < s.size)
    (h1 : s.stopAt a ≤ p) (h2 : p < s.startAt b) : ∃ i, a < i ∧ i < b ∧ s.kindAt i = some k := by
  obtain ⟨i, hk, hstart, hstop⟩ := hs.token_of_placed h
  have hi := kindAt_lt hk
  have hmem : (⟨.token k, cs⟩ : Lexeme) ∈ lexemes s.text := by
    rw [← placed_map_snd 0 (lexemes s.text)]
    exact List.mem_map_of_mem (f := (·.2)) h
  have hpos := byteLength_pos (text_ne_nil_of_mem hmem)
  simp only at hpos
  refine ⟨i, ?_, ?_, hk⟩
  · rcases Nat.lt_or_ge a i with hai | hai
    · exact hai
    · have := hs.stop_le_stop hai ha
      omega
  · rcases Nat.lt_or_ge i b with hib | hib
    · exact hib
    · have := hs.start_le_start hib hi
      omega

/-- A newline stands for no semicolon after a token that ends no statement. -/
theorem IsRead.text_ne_nil_of_succ {i : Nat} {k : TokenKind} {u : Token} (h : s.kindAt i = some k)
    (hu : s.tokens[i + 1]? = some u) (hk : k.endsStatement = false) : u.text ≠ [] := by
  obtain ⟨t, ht⟩ := exists_token (kindAt_lt h)
  have hkind := kind_of_token ht h
  intro hnil
  have himplied := (tokensFrom_implied 0 false
    fun l (hl : l ∈ lexemes s.text) => text_ne_nil_of_mem hl).2
  rw [← hs.tokens_eq] at himplied
  have := himplied i t u (by simpa using ht) (by simpa using hu) hnil
  rw [hkind, hk] at this
  cases this

/-- Behind a token that ends no statement stands a token with characters. -/
theorem IsRead.placed_succ (hclean : ∀ l ∈ lexemes s.text, l.isSound) {i : Nat} {k : TokenKind}
    (h : s.kindAt i = some k) (hk : k.endsStatement = false) (hi : i + 1 < s.size) :
    ∃ kind cs, (s.startAt (i + 1), ⟨.token kind, cs⟩) ∈ placed 0 (lexemes s.text) := by
  obtain ⟨u, hu⟩ := exists_token hi
  exact ⟨u.kind, u.text, (hs.placed_of_token hclean hu (hs.text_ne_nil_of_succ h hu hk)).1⟩

end Lexed

/-! ## Places outside inner brackets -/

namespace Lexed

/-- No brackets that open after `lbrace` and before an index are still open there. -/
def IsClear (s : Lexed) (lbrace p : Nat) : Prop :=
  ∀ j c, lbrace < j → j < p → s.closerOf j = some c → c < p

variable {s : Lexed} {lbrace : Nat}

theorem isClear_start (s : Lexed) (lbrace : Nat) : s.IsClear lbrace (lbrace + 1) := by
  intro j c h1 h2
  omega

theorem IsClear.succ {p : Nat} (h : s.IsClear lbrace p) (hp : s.closerOf p = none) :
    s.IsClear lbrace (p + 1) := by
  intro j c h1 h2 hc
  by_cases hj : j < p
  · exact Nat.lt_succ_of_lt (h j c h1 hj hc)
  · have : j = p := by omega
    rw [this, hp] at hc
    cases hc

theorem IsMatched.closerOf_closer (hm : s.IsMatched) {c : Nat} {b : Bracket}
    (h : s.kindAt c = some (.closer b)) : s.closerOf c = none := by
  rw [hm c, h]

theorem IsClear.past (hm : s.IsMatched) {p c : Nat} (h : s.IsClear lbrace p)
    (hp : s.closerOf p = some c) : s.IsClear lbrace (c + 1) := by
  obtain ⟨hlt, -, b, -, hclose⟩ := hm.closer_spec hp
  intro j d h1 h2 hd
  rcases Nat.lt_trichotomy j p with hj | rfl | hj
  · have := h j d h1 hj hd
    omega
  · rw [hp] at hd
    cases hd
    omega
  · by_cases hjc : j = c
    · rw [hjc, hm.closerOf_closer hclose] at hd
      cases hd
    · obtain ⟨a, -, hk, -⟩ := hm.opener_of_closerOf hd
      obtain ⟨d', hd', hd''⟩ := hm.inner hp hj (by omega) hk
      rw [hd] at hd''
      cases hd''
      omega

/-- Tokens that open nothing leave a place clear. -/
theorem IsClear.extend (hm : s.IsMatched) {p q : Nat} (h : s.IsClear lbrace p)
    (hkinds : ∀ j, p ≤ j → j < q → ∀ b, s.kindAt j ≠ some (.opener b)) (hpq : p ≤ q) :
    s.IsClear lbrace q := by
  intro j c h1 h2 hc
  by_cases hj : j < p
  · exact Nat.lt_of_lt_of_le (h j c h1 hj hc) hpq
  · obtain ⟨b, -, hk, -⟩ := hm.opener_of_closerOf hc
    exact absurd hk (hkinds j (by omega) h2 b)

end Lexed

/-! ## The search for an element -/

/-- The tokens from `i` up to `stop` are semicolons, except for an element from `first` through `last`. -/
structure IsElement (s : Lexed) (lbrace i stop first last : Nat) : Prop where
  le_first : i ≤ first
  first_le_last : first ≤ last
  last_lt : last < stop
  before : ∀ j, i ≤ j → j < first → s.kindAt j = some .semicolon
  after : ∀ j, last < j → j < stop → s.kindAt j = some .semicolon
  clear_first : s.IsClear lbrace first
  clear_last : s.IsClear lbrace (last + 1)
  first_kind : s.kindAt first ≠ some .semicolon ∧ s.kindAt first ≠ some .comma
  last_kind : s.kindAt last ≠ some .semicolon ∧ s.kindAt last ≠ some .comma

/-- The tokens from `i` up to `stop` hold an element, or semicolons only. -/
def IsExtent (s : Lexed) (lbrace i stop : Nat) : Option (Nat × Nat) → Prop
  | none => ∀ j, i ≤ j → j < stop → s.kindAt j = some .semicolon
  | some (first, last) => IsElement s lbrace i stop first last

theorem IsExtent.semicolon {s : Lexed} {lbrace i stop : Nat} {extent : Option (Nat × Nat)}
    (h : IsExtent s lbrace i stop extent) (hk : s.kindAt stop = some .semicolon) :
    IsExtent s lbrace i (stop + 1) extent := by
  have hnext : ∀ p, (∀ j, p ≤ j → j < stop → s.kindAt j = some .semicolon) →
      ∀ j, p ≤ j → j < stop + 1 → s.kindAt j = some .semicolon := by
    intro p hp j h1 h2
    by_cases hj : j < stop
    · exact hp j h1 hj
    · have : j = stop := by omega
      rw [this, hk]
  cases extent with
  | none => exact hnext i h
  | some e =>
    obtain ⟨first, last⟩ := e
    exact { h with last_lt := Nat.lt_succ_of_lt h.last_lt, after := hnext (last + 1) h.after }

/-- One more token, or the brackets it opens, is added to an element. -/
theorem IsExtent.add {s : Lexed} {lbrace i p close : Nat} {extent : Option (Nat × Nat)}
    (h : IsExtent s lbrace i p extent) (hip : i ≤ p) (hpc : p ≤ close)
    (hclear : s.IsClear lbrace p) (hnext : s.IsClear lbrace (close + 1))
    (hk : s.kindAt p ≠ some .semicolon ∧ s.kindAt p ≠ some .comma)
    (hc : s.kindAt close ≠ some .semicolon ∧ s.kindAt close ≠ some .comma) :
    IsExtent s lbrace i (close + 1) (some ((extent.map (·.1)).getD p, close)) := by
  have hafter : ∀ j, close < j → j < close + 1 → s.kindAt j = some .semicolon := by
    intro j h1 h2
    omega
  cases extent with
  | none => exact ⟨hip, hpc, Nat.lt_succ_self _, h, hafter, hclear, hnext, hk, hc⟩
  | some e =>
    obtain ⟨first, last⟩ := e
    have h1 := h.first_le_last
    have h2 := h.last_lt
    exact ⟨h.le_first, by simp only [Option.map_some, Option.getD_some]; omega, Nat.lt_succ_self _,
      h.before, hafter, h.clear_first, hnext, h.first_kind, hc⟩

section

variable {s : Lexed} {rbrace fuel i : Nat} {extent : Option (Nat × Nat)}

theorem elementTokens_comma (hlt : i < rbrace) (hk : s.kindAt i = some .comma) :
    elementTokens s rbrace (fuel + 1) i extent = (extent, i) := by
  rw [elementTokens, if_pos hlt, hk]

theorem elementTokens_semicolon (hlt : i < rbrace) (hk : s.kindAt i = some .semicolon) :
    elementTokens s rbrace (fuel + 1) i extent = elementTokens s rbrace fuel (i + 1) extent := by
  rw [elementTokens, if_pos hlt, hk]

/-- Any other token is the last of its element so far, or the bracket that closes it is. -/
theorem elementTokens_other (hlt : i < rbrace) (hcomma : s.kindAt i ≠ some .comma)
    (hsemicolon : s.kindAt i ≠ some .semicolon) :
    elementTokens s rbrace (fuel + 1) i extent =
      elementTokens s rbrace fuel (((s.closerOf i).filter (· ≤ rbrace)).getD i + 1)
        (some ((extent.map (·.1)).getD i, ((s.closerOf i).filter (· ≤ rbrace)).getD i)) := by
  rw [elementTokens, if_pos hlt]
  split
  · exact absurd ‹_› hcomma
  · exact absurd ‹_› hsemicolon
  · cases s.closerOf i with
    | none => rfl
    | some close => by_cases h : close ≤ rbrace <;> simp [Option.filter, h]

end

/-- Where the search for an element stops, and what it found. -/
theorem elementTokens_spec {s : Lexed} (hm : s.IsMatched) {lbrace rbrace : Nat}
    (hbrace : s.closerOf lbrace = some rbrace) {i fuel p stop : Nat}
    {extent out : Option (Nat × Nat)} (hfuel : rbrace ≤ p + fuel) (hp : p ≤ rbrace)
    (hlp : lbrace < p) (hip : i ≤ p) (hclear : s.IsClear lbrace p)
    (hextent : IsExtent s lbrace i p extent)
    (h : elementTokens s rbrace fuel p extent = (out, stop)) :
    p ≤ stop ∧ stop ≤ rbrace ∧ (stop < rbrace → s.kindAt stop = some .comma) ∧
      s.IsClear lbrace stop ∧ IsExtent s lbrace i stop out := by
  induction fuel generalizing p extent with
  | zero =>
    have : p = rbrace := by omega
    cases h
    exact ⟨Nat.le_refl _, hp, fun hlt => by omega, hclear, hextent⟩
  | succ fuel ih =>
    by_cases hlt : p < rbrace
    · by_cases hcomma : s.kindAt p = some .comma
      · rw [elementTokens_comma hlt hcomma] at h
        cases h
        exact ⟨Nat.le_refl _, hp, fun _ => hcomma, hclear, hextent⟩
      by_cases hsemicolon : s.kindAt p = some .semicolon
      · rw [elementTokens_semicolon hlt hsemicolon] at h
        have hnone : s.closerOf p = none := by rw [hm p, hsemicolon]
        have := ih (by omega) (by omega) (by omega) (by omega) (hclear.succ hnone)
          (hextent.semicolon hsemicolon) h
        exact ⟨by omega, this.2⟩
      rw [elementTokens_other hlt hcomma hsemicolon] at h
      have hother := And.intro hsemicolon hcomma
      cases hc : s.closerOf p with
      | none =>
        rw [hc] at h
        have hsucc := hclear.succ hc
        have := ih (by omega) (by omega) (by omega) (by omega) hsucc
          (hextent.add hip (Nat.le_refl _) hclear hsucc hother hother) h
        exact ⟨by omega, this.2⟩
      | some close =>
        obtain ⟨hpc, -, b, hopen, hclose⟩ := hm.closer_spec hc
        obtain ⟨d, hd, hd'⟩ := hm.inner hbrace hlp hlt hopen
        rw [hc] at hd'
        cases hd'
        have hle : close ≤ rbrace := by omega
        simp only [hc, Option.filter, hle, decide_true, ↓reduceIte, Option.getD_some] at h
        have hpast := hclear.past hm hc
        have := ih (by omega) (by omega) (by omega) (by omega) hpast
          (hextent.add hip (by omega) hclear hpast hother (by rw [hclose]; simp)) h
        exact ⟨by omega, this.2⟩
    · rw [elementTokens, if_neg hlt] at h
      cases h
      exact ⟨Nat.le_refl _, hp, fun hlt' => absurd hlt' hlt, hclear, hextent⟩

/-- The search for an element passes no comma outside inner brackets. -/
theorem elementTokens_noComma {s : Lexed} (hm : s.IsMatched) {lbrace rbrace p fuel stop : Nat}
    {extent out : Option (Nat × Nat)} (hlp : lbrace < p)
    (h : elementTokens s rbrace fuel p extent = (out, stop)) {k : Nat} (hpk : p ≤ k) (hk : k < stop)
    (hclear : s.IsClear lbrace k) : s.kindAt k ≠ some .comma := by
  induction fuel generalizing p extent with
  | zero =>
    cases h
    omega
  | succ fuel ih =>
    by_cases hlt : p < rbrace
    · by_cases hcomma : s.kindAt p = some .comma
      · rw [elementTokens_comma hlt hcomma] at h
        cases h
        omega
      rcases Nat.eq_or_lt_of_le hpk with rfl | hpk
      · exact hcomma
      by_cases hsemicolon : s.kindAt p = some .semicolon
      · rw [elementTokens_semicolon hlt hsemicolon] at h
        exact ih (by omega) h hpk
      rw [elementTokens_other hlt hcomma hsemicolon] at h
      cases hc : s.closerOf p with
      | none =>
        rw [hc] at h
        exact ih (Nat.lt_succ_of_lt hlp) h hpk
      | some close =>
        -- a place inside the brackets that open here is not clear
        have hpc := (hm.closer_spec hc).1
        have hck := hclear p close hlp hpk hc
        rw [hc] at h
        by_cases hle : close ≤ rbrace
        · simp only [Option.filter, hle, decide_true, ↓reduceIte, Option.getD_some] at h
          exact ih (by omega) h hck
        · simp only [Option.filter, hle, decide_false, Bool.false_eq_true, ↓reduceIte, Option.getD_none] at h
          exact ih (Nat.lt_succ_of_lt hlp) h hpk
    · rw [elementTokens, if_neg hlt] at h
      cases h
      omega

/-- The colon of a key stands after the first token of its element. -/
theorem keyColon_spec {s : Lexed} (hm : s.IsMatched) {first last fuel i colon : Nat}
    (h : keyColon s first last fuel i = some colon) :
    i ≤ colon ∧ colon ≤ last ∧ first < colon ∧ s.kindAt colon = some .colon := by
  induction fuel generalizing i with
  | zero => simp [keyColon] at h
  | succ fuel ih =>
    rw [keyColon] at h
    by_cases hi : i ≤ last
    · rw [if_pos hi] at h
      split at h
      · rename_i hk
        by_cases hf : first < i
        · rw [if_pos hf, Option.some.injEq] at h
          subst h
          exact ⟨Nat.le_refl _, hi, hf, hk⟩
        · rw [if_neg hf] at h
          have := ih h
          exact ⟨by omega, this.2⟩
      · have := ih h
        have hskip := hm.lt_skipGroup (show i < last + 1 by omega)
        exact ⟨by omega, this.2⟩
      · have := ih h
        exact ⟨by omega, this.2⟩
    · simp [hi] at h

/-! ## The reading of the elements -/

/-- The tokens from `i` up to `stop` hold no comma outside inner brackets, and one element or none. -/
structure IsPiece (s : Lexed) (lbrace i stop : Nat) (extent : Option (Nat × Nat)) : Prop where
  behind : lbrace < i
  le_stop : i ≤ stop
  clear : s.IsClear lbrace i
  clear_stop : s.IsClear lbrace stop
  noComma : ∀ k, i ≤ k → k < stop → s.IsClear lbrace k → s.kindAt k ≠ some .comma
  isExtent : IsExtent s lbrace i stop extent

/-- The elements that are read from an index on, piece by piece, and the positions before and after them
from which comments are handed out. -/
inductive ReadsElements (s : Lexed) (lbrace rbrace : Nat) : Nat → Nat → List Element → Nat → Prop
  | nil {i gap} (piece : IsPiece s lbrace i rbrace none) : ReadsElements s lbrace rbrace i gap [] gap
  | last {i gap first last e next} (piece : IsPiece s lbrace i rbrace (some (first, last)))
      (read : readElement s rbrace gap first last none = (e, next)) :
      ReadsElements s lbrace rbrace i gap [e] next
  | skip {i gap stop es next} (piece : IsPiece s lbrace i stop none) (lt : stop < rbrace)
      (comma : s.kindAt stop = some .comma) (rest : ReadsElements s lbrace rbrace (stop + 1) gap es next) :
      ReadsElements s lbrace rbrace i gap es next
  | cons {i gap stop first last e mid es next} (piece : IsPiece s lbrace i stop (some (first, last)))
      (lt : stop < rbrace) (comma : s.kindAt stop = some .comma)
      (read : readElement s rbrace gap first last (some stop) = (e, mid))
      (rest : ReadsElements s lbrace rbrace (stop + 1) mid es next) :
      ReadsElements s lbrace rbrace i gap (e :: es) next

section

variable {s : Lexed} (hm : s.IsMatched) {lbrace rbrace : Nat} (hbrace : s.closerOf lbrace = some rbrace)
include hm hbrace

theorem elementTokens_isPiece {i : Nat} (hli : lbrace < i) (hir : i ≤ rbrace) (hclear : s.IsClear lbrace i) :
    ∃ extent stop, elementTokens s rbrace (rbrace - i) i none = (extent, stop) ∧
      IsPiece s lbrace i stop extent ∧ stop ≤ rbrace ∧ (stop < rbrace → s.kindAt stop = some .comma) := by
  rcases h : elementTokens s rbrace (rbrace - i) i none with ⟨extent, stop⟩
  obtain ⟨hle, hstop, hcomma, hclear', hextent⟩ := elementTokens_spec hm hbrace (by omega) hir hli
    (Nat.le_refl i) hclear (show IsExtent s lbrace i i none from fun j h1 h2 => by omega) h
  exact ⟨extent, stop, rfl,
    ⟨hli, hle, hclear, hclear', fun k h1 h2 => elementTokens_noComma hm hli h h1 h2, hextent⟩, hstop, hcomma⟩

/-- With fuel for every token that is left, the reader gives all elements. -/
theorem readElements_readsElements {fuel i gap : Nat} (hli : lbrace < i) (hir : i ≤ rbrace)
    (hclear : s.IsClear lbrace i) (hfuel : rbrace < i + fuel) :
    ReadsElements s lbrace rbrace i gap (readElements s rbrace fuel i gap).1
      (readElements s rbrace fuel i gap).2 := by
  induction fuel generalizing i gap with
  | zero => omega
  | succ fuel ih =>
    obtain ⟨extent, stop, htokens, piece, hle, hcomma⟩ := elementTokens_isPiece hm hbrace hli hir hclear
    have hstart := piece.le_stop
    rw [readElements, htokens]
    by_cases hlt : stop < rbrace
    · have hpast : s.IsClear lbrace (stop + 1) := piece.clear_stop.succ (by rw [hm stop, hcomma hlt])
      have hrest : ∀ gap, ReadsElements s lbrace rbrace (stop + 1) gap (readElements s rbrace fuel (stop + 1) gap).1
          (readElements s rbrace fuel (stop + 1) gap).2 := fun gap => ih (by omega) hlt hpast (by omega)
      simp only [hlt, ↓reduceIte]
      rcases extent with - | ⟨first, last⟩
      · exact .skip piece hlt (hcomma hlt) (hrest gap)
      · exact .cons piece hlt (hcomma hlt) rfl (hrest _)
    · obtain rfl : stop = rbrace := by omega
      simp only [hlt, ↓reduceIte]
      rcases extent with - | ⟨first, last⟩
      · exact .nil piece
      · exact .last piece rfl

/-- The elements between two braces are read from the opening one on. -/
theorem splitElements_readsElements : ∃ next,
    ReadsElements s lbrace rbrace (lbrace + 1) (s.stopAt lbrace) (splitElements s lbrace rbrace).1 next ∧
      (splitElements s lbrace rbrace).2 =
        commentTexts s.text ⟨min next (s.startAt rbrace), s.startAt rbrace⟩ := by
  have hlt := (hm.closer_spec hbrace).1
  exact ⟨_, readElements_readsElements hm hbrace (Nat.lt_succ_self lbrace) hlt (Lexed.isClear_start s lbrace)
    (by omega), rfl⟩

end

end LiteralFill
