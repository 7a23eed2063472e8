import LiteralFill.Proofs.Filled.Lines
import LiteralFill.Proofs.Paired

/-!
The values that a literal gives its elements. In a text without problems among its characters and brackets
each of them stands for itself as the value of an element, wherever it is written next.
-/

namespace LiteralFill

/-! ## White space before a text -/

theorem trimStart_append (x : List Char) {y : List Char} (h : ∀ c ∈ y.head?, isBlank c = false) :
    trimStart (x ++ y) = trimStart x ++ y := by
  rw [trimStart, trimStart, List.dropWhile_append]
  split
  · next hnil =>
    rw [List.isEmpty_iff.mp hnil]
    cases y with
    | nil => rfl
    | cons c y => exact List.dropWhile_cons_of_neg (by simp [h c rfl])
  · rfl

/-- A text at three positions. -/
theorem exists_pieces {text : List Char} {a b c : Nat} (ha : IsBoundary text a) (hb : IsBoundary text b)
    (hc : IsBoundary text c) (hab : a ≤ b) (hbc : b ≤ c) : ∃ x g u y, text = x ++ (g ++ (u ++ y)) ∧
      a = byteLength x ∧ b = byteLength (x ++ g) ∧ c = byteLength (x ++ (g ++ u)) := by
  have hcut : ∀ {x y x' y' : List Char}, x ++ y = x' ++ y' → byteLength x ≤ byteLength x' → ∃ w, x' = x ++ w := by
    intro x y x' y' h hle
    rcases List.append_eq_append_iff.mp h with ⟨w, rfl, -⟩ | ⟨w, rfl, -⟩
    · exact ⟨w, rfl⟩
    · cases w with
      | nil => exact ⟨[], by simp⟩
      | cons c w =>
        have hpos := byteLength_pos (List.cons_ne_nil c w)
        rw [byteLength_append] at hle
        omega
  obtain ⟨x, x', rfl, rfl⟩ := ha
  obtain ⟨y, y', hy, rfl⟩ := hb
  obtain ⟨z, z', hz, rfl⟩ := hc
  obtain ⟨g, rfl⟩ := hcut hy hab
  obtain ⟨u, rfl⟩ := hcut (hy.symm.trans hz) hbc
  rw [List.append_assoc] at hz
  exact ⟨x, g, u, z', hz.trans (by simp), rfl, rfl, by rw [List.append_assoc]⟩

namespace Lexed

variable {s : Lexed} {i m : Nat}

theorem IsRead.boundary_stop (hs : s.IsRead) (hsound : ∀ l ∈ lexemes s.text, l.isSound) {t : Token}
    (ht : s.tokens[i]? = some t) (hne : t.text ≠ []) : IsBoundary s.text (s.stopAt i) := by
  obtain ⟨before, after, heq, hstart, -⟩ := hs.split hsound ht hne
  refine ⟨lexemesText (before ++ [⟨.token t.kind, t.text⟩]), lexemesText after, ?_, ?_⟩
  · rw [← lexemesText_append, List.append_assoc, List.singleton_append, ← heq, lexemesText_lexemes]
  · simp [stopAt, ht, Token.stop, byteLength_append, hstart]

/-- A token that is written does not begin with white space. -/
theorem IsRead.not_isBlank (hs : s.IsRead) (hsound : ∀ l ∈ lexemes s.text, l.isSound) {t : Token}
    (ht : s.tokens[i]? = some t) (hne : t.text ≠ []) {x y : List Char} (hxy : s.text = x ++ y)
    (hx : s.startAt i = byteLength x) : ∀ c ∈ y.head?, isBlank c = false := by
  obtain ⟨before, after, heq, hstart, -⟩ := hs.split hsound ht hne
  have htext := lexemesText_lexemes s.text
  rw [heq, lexemesText_append, hxy] at htext
  have hlength : byteLength (lexemesText before) = byteLength x := by
    rw [hstart, ← hx]
    simp [startAt, ht]
  have hsame := congrArg (dropBytes (byteLength x)) htext
  rw [dropBytes_byteLength, ← hlength, dropBytes_byteLength] at hsame
  rw [← hsame]
  exact not_isBlank_of_lexemes (lexemes_of_append before heq) (hsound _ (by simp [heq])) rfl

end Lexed

/-! ## Values -/

/-- A text from a token to a token is a value if its tokens are those of one. -/
theorem IsPart.isValueText {v : List Char} {ks : List TokenKind} (h : IsPart v ks) (hvalue : IsValue ks)
    (hlast : ks.getLast? ≠ some .semicolon) : IsValueText v := by
  obtain ⟨l, ls, hfirst, htoken⟩ := h.begins
  refine ⟨h.sound, ?_, h.ends, h.kinds ▸ hvalue, h.kinds ▸ hlast⟩
  refine not_isBlank_of_lexemes hfirst (h.sound l (by simp [hfirst])) ?_
  obtain ⟨kind, text⟩ := l
  cases kind with
  | token k => rfl
  | _ => cases htoken

theorem isValueText_nil : IsValueText [] :=
  ⟨by simp [lexemes_nil], by simp, by simp [lexemes_nil], .none, by simp [kindsWithin, lexemes_nil]⟩

/-- A token that is written. -/
theorem Lexed.IsRead.exists_written {s : Lexed} (hs : s.IsRead) {i : Nat} (hi : i < s.size)
    (hk : s.kindAt i ≠ some .semicolon) : ∃ t, s.tokens[i]? = some t ∧ t.text ≠ [] ∧ t.kind ≠ .semicolon := by
  obtain ⟨k, hkind, hne⟩ := exists_kind hi hk
  obtain ⟨t, ht, rfl⟩ := Option.map_eq_some_iff.mp hkind
  exact ⟨t, ht, hs.text_ne_nil ht hne, hne⟩

theorem Lexed.kindsBetween_getLast {s : Lexed} {i last : Nat} {k : TokenKind} (hi : i ≤ last)
    (hk : s.kindAt last = some k) : (s.kindsBetween i (last + 1)).getLast? = some k := by
  rw [kindsBetween_append s hi (Nat.le_succ last), kindsBetween_cons hk (Nat.lt_succ_self last), kindsBetween_self,
    List.getLast?_concat]

section

variable {s : Lexed} (hs : s.IsRead) (hsound : ∀ l ∈ lexemes s.text, l.isSound) (hp : s.IsPaired)
  {lbrace rbrace : Nat} (hbrace : s.closerOf lbrace = some rbrace)
include hs hsound hp hbrace

omit hp hbrace in
/-- The value behind a colon is what follows the colon, without the white space it begins with. -/
theorem slice_valueSpan {colon last : Nat} {key : Key} (hkind : s.kindAt colon = some .colon) (hlt : colon < last)
    (hlast : last < s.size) (hne : s.kindAt last ≠ some .semicolon) :
    slice s.text (valueSpan s (some key) (some (colon + 1)) last) =
      trimStart (slice s.text ⟨s.stopAt colon, s.stopAt last⟩) := by
  obtain ⟨t, ht, htne, -⟩ := hs.exists_written (Nat.lt_trans hlt hlast) (by simp [hkind])
  obtain ⟨u, hu, hune, -⟩ := hs.exists_written hlast hne
  obtain ⟨v, hv⟩ := Lexed.exists_token (show colon + 1 < s.size by omega)
  have hvne : v.text ≠ [] := hs.text_ne_nil_of_succ hkind hv rfl
  obtain ⟨x, g, u', y, htext, ha, hb, hc⟩ := exists_pieces (hs.boundary_stop hsound ht htne)
    (hs.boundary (show colon + 1 < s.size by omega)) (hs.boundary_stop hsound hu hune)
    (hs.stop_le_start (Nat.lt_succ_self colon) (by omega))
    (Nat.le_trans (Lexed.start_le_stop (by omega)) (hs.stop_le_stop hlt hlast))
  have hfirst : ∀ c ∈ u'.head?, isBlank c = false := by
    intro c hc'
    refine hs.not_isBlank hsound hv hvne (x := x ++ g) (y := u' ++ y) (by rw [htext]; simp) hb c ?_
    rw [List.head?_append, hc']
    rfl
  have hwhole : slice s.text ⟨s.stopAt colon, s.stopAt last⟩ = g ++ u' :=
    slice_part (z := y) (by rw [htext]; simp) ha (by rw [hc, byteLength_append])
  have hgap : slice s.text ⟨s.stopAt colon, s.startAt (colon + 1)⟩ = g :=
    slice_part (z := u' ++ y) htext ha (by rw [hb, byteLength_append])
  have hblank : g = g.takeWhile isBlank ++ trimStart g := List.takeWhile_append_dropWhile.symm
  have hlength := congrArg byteLength hblank
  rw [byteLength_append] at hlength
  rw [hwhole, trimStart_append g hfirst, valueSpan]
  simp only [Nat.add_sub_cancel, hgap]
  refine slice_part (x := x ++ g.takeWhile isBlank) (z := y) ?_ ?_ ?_
  · rw [htext]
    conv_lhs => rw [hblank]
    simp
  · rw [ha, byteLength_append]
    omega
  · rw [hc]
    simp only [byteLength_append]
    omega

/-- The value of an element stands for itself. -/
theorem isValueText_valueSpan {i stop first last : Nat} (he : IsElement s lbrace i stop first last) (hi : lbrace < i)
    (hstop : stop ≤ rbrace)
    (hcomma : ∀ k, i ≤ k → k < stop → s.IsClear lbrace k → s.kindAt k ≠ some .comma) :
    IsValueText (slice s.text
      (valueSpan s (elementKey s first last).1 (elementKey s first last).2 last)) := by
  have hm := hs.matched
  have hsize := (hm.closer_spec hbrace).2.1
  have h1 := he.le_first
  have h2 := he.first_le_last
  have h3 := he.last_lt
  have hvalue : ∀ k, first ≤ k → k ≤ last → s.IsClear lbrace k → IsValue (s.kindsBetween k (last + 1)) := by
    intro k hk hk' hclear
    exact Lexed.IsPaired.isValue hm hp hbrace (by omega) (by omega) (by omega) hclear he.clear_last
      fun j h4 h5 => hcomma j (by omega) (by omega)
  obtain ⟨u, hu, hune, hukind⟩ := hs.exists_written (show last < s.size by omega) he.last_kind.1
  unfold elementKey
  cases hcolon : keyColon s first last (last + 1 - first) first with
  | none =>
    obtain ⟨t, ht, htne, -⟩ := hs.exists_written (show first < s.size by omega) he.first_kind.1
    refine (hs.isPart hsound h2 ht htne hu hune).isValueText (hvalue first (Nat.le_refl _) h2 he.clear_first) ?_
    rw [Lexed.kindsBetween_getLast h2 (Lexed.kindAt_of_token hu)]
    simpa using hukind
  | some colon =>
    obtain ⟨-, hle, hlt, hkind⟩ := keyColon_spec hm hcolon
    by_cases hlast : colon < last
    · obtain ⟨t, ht, htne, -⟩ := hs.exists_written (show colon < s.size by omega) (by simp [hkind])
      have hclear := keyColon_clear hm he.clear_first he.clear_last (by omega) hcolon
      have hpast : s.IsClear lbrace (colon + 1) := hclear.succ (by rw [hm colon, hkind])
      simp only [hlast, ↓reduceIte]
      rw [slice_valueSpan hs hsound hkind hlast (by omega) he.last_kind.1]
      exact hs.isValueText hsound hlast ht htne (by rw [Lexed.kind_of_token ht hkind]; rfl) hu hune
        (hvalue (colon + 1) (by omega) (by omega) hpast) hukind
    · simp only [hlast, ↓reduceIte, valueSpan, slice, Span.empty, Span.length, Nat.sub_self, takeBytes_zero]
      exact isValueText_nil

/-- So do the values of all elements that are read from a place on. -/
theorem isValueText_of_readsElements {i gap next : Nat} {es : List Element}
    (h : ReadsElements s lbrace rbrace i gap es next) : ∀ e ∈ es, IsValueText (slice s.text e.value) := by
  have hfound : ∀ {i stop gap comma first last e next}, IsPiece s lbrace i stop (some (first, last)) → stop ≤ rbrace →
      readElement s rbrace gap first last comma = (e, next) → IsValueText (slice s.text e.value) := by
    intro i stop gap comma first last e next piece hle read
    cases read
    exact isValueText_valueSpan hs hsound hp hbrace piece.isExtent piece.behind hle piece.noComma
  induction h with
  | nil piece => exact List.forall_mem_nil _
  | last piece read => exact List.forall_mem_singleton.mpr (hfound piece (Nat.le_refl _) read)
  | skip piece lt comma rest ih => exact ih
  | cons piece lt comma read rest ih => exact List.forall_mem_cons.mpr ⟨hfound piece (Nat.le_of_lt lt) read, ih⟩

end

/-- The values of the elements of a literal stand for themselves. -/
theorem SourceFile.isValueText_value {text : List Char} (hclean : (Lexed.ofText text).2 = []) {l : CompositeLiteral}
    (hl : l ∈ (SourceFile.parse text).literals) {e : Element} (he : e ∈ l.elements) :
    IsValueText (LiteralFill.slice text e.value) := by
  obtain ⟨o, lbrace, rbrace, ds, hhere⟩ := exists_literalHere hl
  obtain ⟨type, -, -, -, hbrace, rfl⟩ := Outline.literalHere_eq_some.mp hhere
  have hs := Lexed.isRead_ofText text
  have hsound : ∀ m ∈ lexemes text, m.isSound := isSound_of_diagnostics (List.append_eq_nil_iff.mp hclean).1
  obtain ⟨next, hread, -⟩ := splitElements_readsElements hs.matched hbrace
  exact isValueText_of_readsElements hs hsound (Lexed.isPaired_ofText hclean) hbrace hread e he

end LiteralFill
