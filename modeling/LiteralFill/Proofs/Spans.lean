import LiteralFill.Proofs.ElementGroups
import LiteralFill.Proofs.Filled.Value
import LiteralFill.Proofs.Reading.FieldSpans
import LiteralFill.Proofs.Reading.Reports

/-!
The spans of a file. Whatever the text is, each span that is recorded for it can be cut out of it, and spans lie in
one another as what they stand for does: fields in declarations and in the types of literals, local types in the
bodies they are declared in, elements between their braces, keys and values in their elements.
-/

namespace LiteralFill

/-! ## Spans of a text -/

/-- A span that can be cut out of a text: it ends in the text and behind its start, at no place within a character. -/
structure Span.IsIn (text : List Char) (span : Span) : Prop where
  ordered : span.start ≤ span.stop
  bounded : span.stop ≤ byteLength text
  starts : IsBoundary text span.start
  stops : IsBoundary text span.stop

theorem IsBoundary.le {text : List Char} {p : Nat} (h : IsBoundary text p) : p ≤ byteLength text := by
  obtain ⟨x, y, rfl, rfl⟩ := h
  rw [byteLength_append]
  exact Nat.le_add_right _ _

theorem Span.isIn {text : List Char} {a b : Nat} (ha : IsBoundary text a) (hb : IsBoundary text b) (hab : a ≤ b) :
    (⟨a, b⟩ : Span).IsIn text :=
  ⟨hab, hb.le, ha, hb⟩

theorem Span.isIn_end (text : List Char) : (Span.empty (byteLength text)).IsIn text :=
  have h : IsBoundary text (byteLength text) := ⟨text, [], (List.append_nil text).symm, rfl⟩
  isIn h h (Nat.le_refl _)

/-- What is cut out of the text by such a span, and what stands before and behind it. -/
theorem Span.IsIn.pieces {text : List Char} {span : Span} (h : span.IsIn text) : ∃ before behind,
    text = before ++ (slice text span ++ behind) ∧ span.start = byteLength before ∧
      span.stop = byteLength before + byteLength (slice text span) := by
  obtain ⟨x, g, u, y, htext, hstart, hstop, -⟩ := exists_pieces h.starts h.stops h.stops h.ordered (Nat.le_refl _)
  rw [byteLength_append] at hstop
  have hslice : slice text span = g := slice_part htext hstart hstop
  exact ⟨x, u ++ y, hslice ▸ htext, hstart, hslice ▸ hstop⟩

/-- The white space at the start of a gap ends at a boundary before the end of the gap. -/
theorem boundary_in_gap {text blanks rest : List Char} {a b : Nat} (ha : IsBoundary text a) (hb : IsBoundary text b)
    (hab : a ≤ b) (hgap : slice text ⟨a, b⟩ = blanks ++ rest) :
    IsBoundary text (a + byteLength blanks) ∧ a + byteLength blanks ≤ b := by
  obtain ⟨x, g, u, y, htext, rfl, rfl, -⟩ := exists_pieces ha hb hb hab (Nat.le_refl b)
  rw [slice_part htext rfl (byteLength_append x g)] at hgap
  subst hgap
  refine ⟨⟨x ++ blanks, rest ++ (u ++ y), by rw [htext]; simp, (byteLength_append x blanks).symm⟩, ?_⟩
  simp only [byteLength_append]
  omega

namespace Lexed

variable {s : Lexed} (hs : s.IsRead)
include hs

theorem IsRead.boundary_stopAt {i : Nat} (hi : i < s.size) : IsBoundary s.text (s.stopAt i) := by
  obtain ⟨t, ht⟩ := exists_token hi
  obtain ⟨before, after, hplace, hstart⟩ := tokensFrom_place (hs.mem ht)
  rw [lexemesText_lexemes] at hplace
  refine ⟨before ++ t.text, after, by rw [hplace, List.append_assoc], ?_⟩
  simp only [stopAt, ht, Option.map_some, Option.getD_some, Token.stop, byteLength_append]
  omega

/-- From the start of a token to the end of the same or a later one. -/
theorem IsRead.isIn {i j : Nat} (hij : i ≤ j) (hj : j < s.size) : (⟨s.startAt i, s.stopAt j⟩ : Span).IsIn s.text :=
  Span.isIn (hs.boundary (Nat.lt_of_le_of_lt hij hj)) (hs.boundary_stopAt hj)
    (Nat.le_trans (hs.start_le_start hij hj) (start_le_stop hj))

theorem IsRead.spanAt_isIn (i : Nat) : (s.spanAt i).IsIn s.text := by
  rcases Nat.lt_or_ge i s.size with hi | hi
  · rw [spanAt_eq hi]
    exact hs.isIn (Nat.le_refl i) hi
  · rw [spanAt, Array.getElem?_eq_none hi]
    exact Span.isIn_end s.text

theorem IsRead.isIn_of_spansTokens {first limit : Nat} {span : Span} (h : s.SpansTokens first limit span)
    (hlimit : limit ≤ s.size) : span.IsIn s.text := by
  obtain ⟨a, b, -, hab, hb, rfl⟩ := h
  obtain ⟨j, rfl⟩ : ∃ j, b = j + 1 := ⟨b - 1, by omega⟩
  exact hs.isIn (Nat.le_of_lt_succ hab) (by omega)

/-- What stands on some of the tokens lies within the span of all of them. -/
theorem IsRead.within_of_spansTokens {first limit : Nat} {span : Span} (h : s.SpansTokens first limit span)
    (hlimit : limit ≤ s.size) : span.Within ⟨s.startAt first, s.stopBefore limit⟩ := by
  obtain ⟨a, b, ha, hab, hb, rfl⟩ := h
  obtain ⟨j, rfl⟩ : ∃ j, b = j + 1 := ⟨b - 1, by omega⟩
  obtain ⟨k, rfl⟩ : ∃ k, limit = k + 1 := ⟨limit - 1, by omega⟩
  exact ⟨hs.start_le_start ha (by omega), hs.stop_le_stop (Nat.le_of_succ_le_succ hb) (by omega)⟩

theorem IsRead.block_isIn {b : Span} (hb : s.IsBlock b) : b.IsIn s.text := by
  obtain ⟨i, hi, rfl⟩ := hb
  have hisize := kindAt_lt hi
  rw [blockAt]
  cases hc : s.closerOf i with
  | none =>
    have hstart := hs.boundary hisize
    exact Span.isIn hstart (Span.isIn_end s.text).stops hstart.le
  | some close =>
    obtain ⟨hlt, hsize, -⟩ := hs.matched.closer_spec hc
    exact hs.isIn (Nat.le_of_lt hlt) hsize

end Lexed

/-! ## Problems -/

theorem lexicalDiagnostics_isIn {ls : List Lexeme} {text before : List Char} (htext : text = before ++ lexemesText ls) :
    ∀ p ∈ lexicalDiagnostics (byteLength before) ls, p.span.IsIn text := by
  induction ls generalizing before with
  | nil => simp [lexicalDiagnostics]
  | cons l ls ih =>
    rw [lexemesText_cons] at htext
    have hnext : text = (before ++ l.text) ++ lexemesText ls := by rw [htext, List.append_assoc]
    intro p hp
    rw [lexicalDiagnostics_cons, List.mem_append] at hp
    rcases hp with hp | hp
    · have hspan : p.span = ⟨byteLength before, byteLength before + byteLength l.text⟩ := by
        obtain ⟨kind, text⟩ := l
        unfold lexemeDiagnostics at hp
        split at hp
        · rw [List.mem_singleton.mp hp]
        · rw [List.mem_singleton.mp hp]
        · split at hp
          · cases hp
          · rw [List.mem_singleton.mp hp]
        · cases hp
      rw [hspan]
      exact Span.isIn ⟨before, _, htext, rfl⟩ ⟨_, _, hnext, (byteLength_append before l.text).symm⟩
        (Nat.le_add_right _ _)
    · rw [← byteLength_append] at hp
      exact ih hnext p hp

/-- Every problem of a file has a span of its text. -/
theorem SourceFile.diagnostics_isIn (text : List Char) :
    ∀ p ∈ (SourceFile.parse text).diagnostics, p.span.IsIn text := by
  have hs := Lexed.isRead_ofText text
  have hreport : ∀ p, (Lexed.ofText text).1.IsReport p → p.span.IsIn text := by
    rintro p ⟨i, message, rfl⟩
    exact hs.spanAt_isIn i
  obtain ⟨found, hall, hfound⟩ := Outline.run_keepsReports (Lexed.ofText text).1 (Lexed.ofText text).1.size
    (.start (Lexed.ofText text).2)
  intro p hp
  have hp : p ∈ (Lexed.ofText text).2 ++ found := hall ▸ hp
  rcases List.mem_append.mp hp with hp | hp
  · have hp : p ∈ lexicalDiagnostics 0 (lexemes text) ++ (Matching.ofTokens (tokenize text).1).diagnostics := hp
    rcases List.mem_append.mp hp with hp | hp
    · have hwhole : text = [] ++ lexemesText (lexemes text) := (lexemesText_lexemes text).symm
      exact lexicalDiagnostics_isIn hwhole p hp
    · obtain ⟨places, -, -, hplaces⟩ := Lexed.diagnostics_unpaired text (tokenize text).1
      rw [hplaces, List.mem_map] at hp
      obtain ⟨i, -, rfl⟩ := hp
      exact hreport _ ⟨i, _, rfl⟩
  · exact hreport p (hfound p hp)

/-! ## Elements -/

/-- The spans of an element. The value ends where the element ends; a key begins where the element begins and ends
before the value. -/
structure Element.SpansNest (text : List Char) (e : Element) : Prop where
  span : e.span.IsIn text
  nonempty : e.span.start < e.span.stop
  value : e.value.IsIn text
  value_start : e.span.start ≤ e.value.start
  value_stop : e.value.stop = e.span.stop
  key : ∀ k ∈ e.key, k.span.IsIn text ∧ k.span.start = e.span.start ∧ k.span.stop < e.value.start

/-- The value of an element with a key begins behind the colon, at a boundary, and not behind the end of the
element. -/
theorem IsKeyed.value_begins {s : Lexed} (hs : s.IsRead) {first colon last : Nat} {e : Element}
    (h : IsKeyed s first colon last e) (hcolon : colon ≤ last) (hlast : last < s.size) :
    ∃ p, e.value = ⟨p, s.stopAt last⟩ ∧ s.stopAt colon ≤ p ∧ IsBoundary s.text p ∧ p ≤ s.stopAt last := by
  rcases Nat.eq_or_lt_of_le hcolon with rfl | hlt
  · exact ⟨s.stopAt colon, h.no_value rfl, Nat.le_refl _, hs.boundary_stopAt hlast, Nat.le_refl _⟩
  · obtain ⟨blanks, behind, hgap, -, -, hvalue⟩ := h.value hlt
    obtain ⟨hp, hple⟩ := boundary_in_gap (hs.boundary_stopAt (by omega)) (hs.boundary (by omega))
      (hs.stop_le_start (Nat.lt_succ_self colon) (by omega)) hgap
    have hnext : s.startAt (colon + 1) ≤ s.stopAt last :=
      Nat.le_trans (hs.start_le_start hlt hlast) (Lexed.start_le_stop hlast)
    exact ⟨_, hvalue, Nat.le_add_right _ _, hp, Nat.le_trans hple hnext⟩

theorem Element.StandsOn.spansNest {s : Lexed} (hs : s.IsRead) {lbrace rbrace first : Nat} {rest : List Nat}
    {e : Element} (h : e.StandsOn s lbrace rbrace first rest) (hsize : rbrace < s.size) : e.SpansNest s.text := by
  have ho := hs.isOrdered
  have hlast : rest.getLastD first < s.size := Nat.lt_trans (h.inside _ h.last_mem).before hsize
  have hle : first ≤ rest.getLastD first := (h.bounds List.mem_cons_self).2
  have hspan := h.reads.span
  have hin : e.span.IsIn s.text := hspan ▸ hs.isIn hle hlast
  have hnonempty : e.span.start < e.span.stop := by
    have := (h.nonempty ho hsize).1
    have := hs.stop_le_stop hle hlast
    rw [hspan]
    simp only
    omega
  cases hcolon : rest.find? (s.isOuter lbrace .colon) with
  | none =>
    obtain ⟨hkey, hvalue⟩ := h.reads.positional hcolon
    refine ⟨hin, hnonempty, hvalue ▸ hin, by rw [hvalue], by rw [hvalue], ?_⟩
    rw [hkey]
    rintro k ⟨⟩
  | some colon =>
    have hkeyed := h.reads.keyed colon hcolon
    have hmem : colon ∈ rest := List.mem_of_find?_eq_some hcolon
    have hkind := (Lexed.isOuter_iff.mp (List.find?_some hcolon)).1
    have hfirst : first < colon := (List.pairwise_cons.mp h.sorted).1 colon hmem
    have hcl : colon ≤ rest.getLastD first := (h.bounds (List.mem_cons_of_mem first hmem)).2
    have hwritten := ho.start_lt_stop colon _ hkind (by decide)
    have hbefore : s.stopAt (colon - 1) ≤ s.startAt colon := hs.stop_le_start (by omega) (by omega)
    obtain ⟨p, hvalue, hcolonp, hp, hpl⟩ := hkeyed.value_begins hs hcl hlast
    refine ⟨hin, hnonempty, ?_, ?_, ?_, ?_⟩
    · rw [hvalue]
      exact Span.isIn hp (hs.boundary_stopAt hlast) hpl
    · have := hs.start_le_start (Nat.le_of_lt hfirst) (show colon < s.size by omega)
      rw [hvalue, hspan]
      simp only
      omega
    · rw [hvalue, hspan]
    · rw [hkeyed.key, hvalue, hspan]
      rintro k ⟨⟩
      exact ⟨hs.isIn (by omega) (by omega), rfl, by simp only; omega⟩

/-! ## Literals -/

/-- The spans of a literal. Its elements stand between the braces, one behind the other. -/
structure CompositeLiteral.SpansNest (text : List Char) (l : CompositeLiteral) : Prop where
  span : l.span.IsIn text
  typeSpan : l.typeSpan.IsIn text
  braceSpan : l.braceSpan.IsIn text
  type_stop : l.typeSpan.stop ≤ l.lbrace
  fields : ∀ f, l.type.HasField f → f.span.IsIn text ∧ f.span.Within l.typeSpan
  elements : ∀ e ∈ l.elements, e.SpansNest text ∧ l.lbrace < e.span.start ∧ e.span.stop ≤ l.rbrace
  ordered : l.elements.Pairwise fun d e => d.span.stop ≤ e.span.start

theorem SourceFile.literals_spansNest (text : List Char) :
    ∀ l ∈ (SourceFile.parse text).literals, l.SpansNest text := by
  intro l hl
  have hs := Lexed.isRead_ofText text
  obtain ⟨o, lbrace, rbrace, ds, hhere⟩ := exists_literalHere hl
  obtain ⟨type, hread, hopen, -, hbrace, rfl⟩ := Outline.literalHere_eq_some.mp hhere
  obtain ⟨hlt, hsize, b, hopen', hclose⟩ := hs.matched.closer_spec hbrace
  have hfirst : o.index < lbrace := (readType_reads hs.matched).lt hread
  have hstop := hs.stopAt_bracket hclose rfl
  have htype : (Lexed.ofText text).1.SpansTokens o.index lbrace
      ⟨(Lexed.ofText text).1.startAt o.index, (Lexed.ofText text).1.stopBefore lbrace⟩ :=
    ⟨o.index, lbrace, Nat.le_refl _, hfirst, Nat.le_refl _, rfl⟩
  have hfields := readType_fields hs.matched _ _ _ hread
  refine ⟨?_, hs.isIn_of_spansTokens htype (by omega), ?_, ?_, fun f hf => ?_, fun e he => ?_, ?_⟩
  · have := hs.isIn (show o.index ≤ rbrace by omega) hsize
    rwa [hstop] at this
  · have := hs.isIn (Nat.le_of_lt hlt) hsize
    rwa [hstop] at this
  · obtain ⟨j, rfl⟩ : ∃ j, lbrace = j + 1 := ⟨lbrace - 1, by omega⟩
    exact hs.stop_le_start (Nat.lt_succ_self j) (by omega)
  · have hspans : (Lexed.ofText text).1.SpansTokens o.index lbrace f.span := hfields f hf
    exact ⟨hs.isIn_of_spansTokens hspans (by omega), hs.within_of_spansTokens hspans (by omega)⟩
  · obtain ⟨n, hn, rfl⟩ := List.mem_iff_getElem.mp he
    obtain ⟨first, rest, -, hstands⟩ := exists_group hs.matched hbrace (List.getElem?_eq_getElem hn)
    refine ⟨hstands.spansNest hs hsize, ?_, ?_⟩
    · rw [hstands.reads.span]
      have hinside := hstands.inside first List.mem_cons_self
      exact hs.start_lt_start hinside.behind (Nat.lt_trans hinside.before hsize) hopen (by decide)
    · rw [hstands.reads.span]
      exact hs.stop_le_start (hstands.inside _ hstands.last_mem).before hsize
  · rw [List.pairwise_iff_getElem]
    intro m n hm hn hmn
    exact elements_pairwise hs.matched hbrace hs.isOrdered (List.getElem?_eq_getElem hm) (List.getElem?_eq_getElem hn)
      hmn

/-! ## Declarations -/

/-- A declared type and the tokens from its name on that it is read from. It stays in every region that it begins
in. -/
structure TypeDecl.StandsOn (s : Lexed) (first limit : Nat) (d : TypeDecl) : Prop where
  lt : first < limit
  le_size : limit ≤ s.size
  name : s.kindAt first = some .ident
  span : d.span = ⟨s.startAt first, s.stopBefore limit⟩
  fields : FieldsIn s first limit d.type
  stays : ∀ {i j}, s.IsRegion i j → i ≤ first → first ≤ j → limit ≤ j

section

open Reader

variable {s : Lexed} (hm : s.IsMatched)
include hm

theorem readTypeSpec_standsOn {scope : Option Span} {c c' : Cursor} {d : TypeDecl}
    (h : readTypeSpec s scope c = (some d, c')) : d.StandsOn s c.index c'.index := by
  have hname : s.kindAt c.index = some .ident := (readTypeSpec_begins (by rw [h])).1
  have hlt : c.index < c'.index := by
    have := readTypeSpec_lt hm (by rw [h])
    rwa [h] at this
  have hstays : ∀ {i j}, s.IsRegion i j → i ≤ c.index → c.index ≤ j → c'.index ≤ j := by
    intro i j hregion hi hj
    have := (readTypeSpec_stays hm hregion scope c hi hj).2
    rwa [h] at this
  obtain ⟨e, type, hle, hread, hspan, htype⟩ : ∃ e type, c.index ≤ e.index ∧ readType s e = (some type, c') ∧
      d.span = ⟨s.startAt c.index, s.stopBefore c'.index⟩ ∧ d.type = type := by
    obtain ⟨params, e, he⟩ := readParams_gives (s := s) ⟨c.index + 1, c.diagnostics⟩
    have hforward := readParams_forward hm ⟨c.index + 1, c.diagnostics⟩
    obtain ⟨isAlias, e', he'⟩ := AlwaysGives.eat (s := s) .assign e
    have hforward' := IsForward.eat (s := s) .assign e
    rw [he] at hforward
    rw [he'] at hforward'
    simp only at hforward hforward'
    rw [readTypeSpec, index_bind, if_pos hname, skip_bind, bind_some he, bind_some he', optional_bind] at h
    rcases hread : readType s e' with ⟨result, d'⟩
    rw [hread] at h
    cases result with
    | none => cases h
    | some type =>
      cases h
      exact ⟨e', type, by omega, hread, rfl, rfl⟩
  refine ⟨hlt, hstays (hm.isRegion_size 0) (Nat.zero_le _) (Nat.le_of_lt (Lexed.kindAt_lt hname)), hname, hspan, ?_,
    hstays⟩
  rw [htype]
  exact (readType_fields hm e type c' hread).mono hle (Nat.le_refl _)

end

section

open Reader

variable {s : Lexed} {α : Type} {P : α → Prop}

theorem readImport_spans {c c' : Cursor} {found : ImportSpec} (h : readImport s c = (some found, c')) :
    s.SpansTokens 0 s.size found.span := by
  obtain ⟨i, hi, ⟨found', d, hread, hspan, -, k, hk, -⟩ | ⟨d, hread, -⟩⟩ := readImport_spec s c
  · rw [h] at hread
    cases hread
    exact ⟨c.index, i + 1, Nat.zero_le _, by omega, Lexed.kindAt_lt hk, hspan⟩
  · rw [h] at hread
    cases hread

theorem readConsts_scope (hm : s.IsMatched) (scope : Option Span) :
    (readConsts s scope).Yields fun l => ∀ d ∈ l, d.scope = scope := by
  refine readDeclarations_all hm fun limit => .after fun first => .after fun names => ?_
  split
  · exact .after fun _ => .after fun _ => .give (by simp)
  · refine .after fun i => .after fun _ => .after fun assigned => ?_
    have hall : ∀ values : List (Option Nat),
        ∀ d ∈ names.zipIdx.map fun p => (⟨p.1, (values[p.2]?).join, scope⟩ : ConstDecl), d.scope = scope := by
      intro values d hd
      obtain ⟨p, -, rfl⟩ := List.mem_map.mp hd
      rfl
    split
    · exact .after fun values => .after fun _ => .give (hall values)
    · exact .after fun values => .after fun _ => .give (hall values)

end

/-! ## The pass -/

namespace Outline

variable {s : Lexed}

/-- What the pass has recorded so far, with the tokens it was read from. -/
structure Placed (s : Lexed) (o : Outline) : Prop where
  enclosed : Enclosed s o
  imports : ∀ i ∈ o.imports, s.SpansTokens 0 s.size i.span
  types : ∀ d ∈ o.types, ∃ first limit, d.StandsOn s first limit
  consts : ∀ d ∈ o.consts, ∀ b ∈ d.scope, s.IsBlock b

theorem Placed.step (hs : s.IsRead) {o : Outline} {t : Token} (h : Placed s o) (ht : s.tokens[o.index]? = some t) :
    Placed s (Outline.step s t o) := by
  obtain ⟨htypes, himports, hconsts⟩ := step_records s t o
  refine ⟨h.enclosed.step hs ht, fun i hi => ?_, fun d hd => ?_, fun d hd => ?_⟩
  · rcases List.mem_append.mp (himports ▸ hi) with hi | hi
    · exact h.imports i hi
    · exact recordedImports_all hs.matched (fun c found hread => readImport_spans (Prod.ext hread rfl)) t o i hi
  · rcases List.mem_append.mp (htypes ▸ hd) with hd | hd
    · exact h.types d hd
    · have hspec (scope : Option Span) :
          (readTypeSpec s scope).Yields fun d => ∃ first limit, d.StandsOn s first limit :=
        fun c d hread => ⟨_, _, readTypeSpec_standsOn hs.matched (Prod.ext hread rfl)⟩
      exact recordedTypes_all hs.matched hspec t o d hd
  · rcases List.mem_append.mp (hconsts ▸ hd) with hd | hd
    · exact h.consts d hd
    · unfold recordedConsts at hd
      split at hd
      · rw [read_of_yields (readConsts_scope hs.matched _) (by simp) o d hd]
        intro b hb
        obtain ⟨i, -, hi, rfl⟩ := h.enclosed.opened b (List.mem_of_find?_eq_some hb)
        exact ⟨i, hi, rfl⟩
      · cases hd

theorem Placed.run (hs : s.IsRead) {o : Outline} (h : Placed s o) (fuel : Nat) : Placed s (Outline.run s fuel o) := by
  induction fuel generalizing o with
  | zero => exact h
  | succ fuel ih =>
    rw [Outline.run]
    cases ht : s.tokens[o.index]? with
    | none => exact h
    | some t => exact ih (h.step hs ht)

theorem placed_start (s : Lexed) (ds : List Diagnostic) : Placed s (start ds) :=
  ⟨enclosed_start s ds, by simp [start], by simp [start], by simp [start]⟩

end Outline

/-! ## Files -/

/-- The spans of a declared type: its fields lie in it, and it lies in the body that it is local to. -/
structure TypeDecl.SpansNest (text : List Char) (d : TypeDecl) : Prop where
  span : d.span.IsIn text
  fields : ∀ f, d.type.HasField f → f.span.IsIn text ∧ f.span.Within d.span
  scope : ∀ b ∈ d.scope, b.IsIn text ∧ d.span.Within b

/-- A type that begins in a body ends there: from the opening brace to the closing one no bracket is closed that is
not opened, and a type stays where this is so. -/
theorem TypeDecl.StandsOn.within_block {s : Lexed} (hs : s.IsRead) {first limit : Nat} {d : TypeDecl}
    (h : d.StandsOn s first limit) {b : Span} (hb : s.IsBlock b) (hstart : b.start < d.span.start)
    (hstop : d.span.start < b.stop) : d.span.Within b := by
  obtain ⟨i, hi, rfl⟩ := hb
  obtain ⟨j, rfl⟩ : ∃ j, limit = j + 1 := ⟨limit - 1, by have := h.lt; omega⟩
  have hj : j < s.size := h.le_size
  have hfirst : first < s.size := Lexed.kindAt_lt h.name
  refine ⟨Nat.le_of_lt hstart, ?_⟩
  rw [h.span] at hstart hstop ⊢
  rw [Lexed.blockAt] at hstart hstop ⊢
  cases hc : s.closerOf i with
  | none => exact (hs.boundary_stopAt hj).le
  | some close =>
    rw [hc] at hstart hstop
    obtain ⟨hlt, hsize, bracket, -, hclose⟩ := hs.matched.closer_spec hc
    have hbehind : i < first := Nat.lt_of_not_le fun hle =>
      Nat.lt_irrefl _ (Nat.lt_of_lt_of_le hstart (hs.start_le_start hle (Lexed.kindAt_lt hi)))
    have hbefore : first < close := by
      refine Nat.lt_of_not_le fun hle => ?_
      rcases Nat.eq_or_lt_of_le hle with heq | hlt
      · rw [heq, h.name] at hclose
        cases hclose
      · have := hs.stop_le_start hlt hfirst
        exact Nat.lt_irrefl _ (Nat.lt_of_lt_of_le hstop this)
    have hin := h.stays (hs.matched.isRegion hc) hbehind (Nat.le_of_lt hbefore)
    exact hs.stop_le_stop (by omega) hsize

theorem TypeDecl.StandsOn.spansNest {s : Lexed} (hs : s.IsRead) {first limit : Nat} {d : TypeDecl}
    (h : d.StandsOn s first limit)
    (hscope : ∀ b ∈ d.scope, s.IsBlock b ∧ b.start < d.span.start ∧ d.span.start < b.stop) : d.SpansNest s.text where
  span := hs.isIn_of_spansTokens ⟨first, limit, Nat.le_refl _, h.lt, Nat.le_refl _, h.span⟩ h.le_size
  fields f hf :=
    have hspans := h.fields f hf
    ⟨hs.isIn_of_spansTokens hspans h.le_size, h.span ▸ hs.within_of_spansTokens hspans h.le_size⟩
  scope b hb :=
    have ⟨hblock, hstart, hstop⟩ := hscope b hb
    ⟨hs.block_isIn hblock, h.within_block hs hblock hstart hstop⟩

namespace SourceFile

/-- The spans of a file: all can be cut out of its text, and they lie in one another as they should. -/
structure SpansNest (f : SourceFile) : Prop where
  imports : ∀ i ∈ f.imports, i.span.IsIn f.text
  types : ∀ d ∈ f.types, d.SpansNest f.text
  consts : ∀ d ∈ f.consts, ∀ b ∈ d.scope, b.IsIn f.text
  literals : ∀ l ∈ f.literals, l.SpansNest f.text
  diagnostics : ∀ p ∈ f.diagnostics, p.span.IsIn f.text

/-- Whatever is read, the spans of the file that comes out nest. -/
theorem parse_spansNest (text : List Char) : (SourceFile.parse text).SpansNest :=
  have hs := Lexed.isRead_ofText text
  have hplaced := (Outline.placed_start _ _).run hs (Lexed.ofText text).1.size
  { imports := fun i hi => hs.isIn_of_spansTokens (hplaced.imports i hi) (Nat.le_refl _)
    types := fun d hd =>
      have ⟨_, _, hd'⟩ := hplaced.types d hd
      hd'.spansNest hs (hplaced.enclosed.scope d hd)
    consts := fun d hd b hb => hs.block_isIn (hplaced.consts d hd b hb)
    literals := literals_spansNest text
    diagnostics := diagnostics_isIn text }

end SourceFile

end LiteralFill
