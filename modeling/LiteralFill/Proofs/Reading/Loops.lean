import LiteralFill.Proofs.Reading.Regions

/-!
The loops over the lines of a struct type and over the declarations of a group. Each round passes at least one
token and none behind the brackets, so a loop ends where its brackets do, with as many steps as there are tokens
before that.
-/

namespace LiteralFill

open Reader

section

variable {s : Lexed} (hm : s.IsMatched) {first limit : Nat} (h : s.IsRegion first limit)
include hm h

/-- Wherever the reading of a line has given up, passing over the rest passes a token of it. -/
theorem recover_advances {c d : Cursor} (hfirst : first ≤ c.index) (hlt : c.index < limit)
    (hle : c.index ≤ d.index) (hlimit : d.index ≤ limit) :
    c.index < (recover s limit d).2.index ∧ (recover s limit d).2.index ≤ limit := by
  refine ⟨?_, afterSemicolon_le hm h (Nat.le_trans hfirst hle) hlimit⟩
  rcases Nat.eq_or_lt_of_le hle with heq | hgt
  · refine Nat.lt_of_le_of_lt hle (lt_afterSemicolon hm ?_)
    omega
  · exact Nat.lt_of_lt_of_le hgt (le_afterSemicolon hm limit d.index _ d.index)

/-! ## Struct types -/

omit hm h in
/-- The lines of a struct type end with its brace. -/
theorem readFields_index {inner : Reader TypeExpr} (hfield : (readField s inner limit).Advances first limit)
    {fuel : Nat} {fields : List (FieldDecl TypeExpr)} {c : Cursor} (hfirst : first ≤ c.index)
    (hlimit : c.index ≤ limit) (hfuel : limit ≤ c.index + fuel) :
    (readFields s inner limit fuel fields c).2.index = limit := by
  induction fuel generalizing fields c with
  | zero => exact Nat.le_antisymm hlimit hfuel
  | succ fuel ih =>
    rw [readFields, index_bind]
    split
    · next hlt =>
      rw [eat_bind]
      split
      · exact ih (Nat.le_succ_of_le hfirst) hlt (by simp only; omega)
      · obtain ⟨field, d, hd⟩ := @readField_some s inner limit c
        have hnext : c.index < d.index ∧ d.index ≤ limit := by simpa only [hd] using hfield c hfirst hlt
        simp only [Bool.false_eq_true, ↓reduceIte, bind_some hd]
        cases field with
        | none => exact ih (by omega) hnext.2 (by omega)
        | some field => exact ih (by omega) hnext.2 (by omega)
    · exact Nat.le_antisymm hlimit (Nat.not_lt.mp ‹_›)

omit h in
/-- Whatever a line of a struct type holds, its reader passes some of it and stays before the brace. -/
theorem readField_advances {inner : Reader TypeExpr} (hin : ReadsTypes s inner) {lbrace rbrace : Nat}
    (hc : s.closerOf lbrace = some rbrace) (hb : s.kindAt rbrace = some (.closer .brace)) :
    (readField s inner rbrace).Advances (lbrace + 1) rbrace := by
  intro c hfirst hlt
  refine ⟨readField_le hm hin hc hb hfirst hlt, ?_⟩
  have h := hm.isRegion hc
  rw [readField, index_bind, optional_bind]
  rcases hr : readFieldHead s inner rbrace c with ⟨result, d⟩
  cases result with
  | none => exact afterSemicolon_le hm h (Nat.le_succ_of_le hfirst) hlt
  | some head =>
    have hd := readFieldHead_le hm hin hc hb hfirst hlt hr
    obtain ⟨tag, e, he⟩ := @readTag_some s rbrace d
    have htag := readTag_le he
    have hlast := htag.2 hd.2
    simp only [bind_some he, index_bind]
    split
    · next hrest =>
      rw [eat_bind]
      split
      · exact hrest
      · exact afterSemicolon_le (i := e.index) hm h (by omega) hlast
    · exact hlast

/-! ## Groups of declarations -/

omit hm h in
/-- A group ends with its brackets. -/
theorem readGroup_index {α : Type} {spec : Nat → Reader (List α)} (hspec : (spec limit).Advances first limit)
    (hgives : AlwaysGives (spec limit)) {fuel : Nat} {found : List α} {c : Cursor} (hfirst : first ≤ c.index)
    (hlimit : c.index ≤ limit) (hfuel : limit ≤ c.index + fuel) :
    (readGroup s spec limit fuel found c).2.index = limit := by
  induction fuel generalizing found c with
  | zero => exact Nat.le_antisymm hlimit hfuel
  | succ fuel ih =>
    rw [readGroup, index_bind]
    split
    · next hlt =>
      rw [eat_bind]
      split
      · exact ih (Nat.le_succ_of_le hfirst) hlt (by simp only; omega)
      · obtain ⟨more, d, hd⟩ := hgives c
        have hnext : c.index < d.index ∧ d.index ≤ limit := by simpa only [hd] using hspec c hfirst hlt
        simp only [Bool.false_eq_true, ↓reduceIte, bind_some hd]
        exact ih (by omega) hnext.2 (by omega)
    · exact Nat.le_antisymm hlimit (Nat.not_lt.mp ‹_›)

theorem orRecover_advances {α : Type} {r : Reader α} (hr : r.StaysIn first limit)
    (hgave : ∀ c a, (r c).1 = some a → c.index < (r c).2.index) : (orRecover s limit r).Advances first limit := by
  intro c hfirst hlt
  have hstays := hr c hfirst (Nat.le_of_lt hlt)
  have hgave := hgave c
  rw [orRecover, optional_bind]
  generalize r c = x at hstays hgave
  obtain ⟨result, d⟩ := x
  cases result with
  | none => exact recover_advances hm h hfirst hlt hstays.1 hstays.2
  | some a => exact ⟨hgave a rfl, hstays.2⟩

omit hm

/-- Behind a token that closes nothing the reading goes on in the region. -/
theorem skip_le {α : Type} {k : TokenKind} {r : Reader α} {c : Cursor} (hk : s.kindAt c.index = some k)
    (hne : ∀ b, k ≠ .closer b) (hfirst : first ≤ c.index) (hlimit : c.index ≤ limit) (hr : r.StaysIn first limit) :
    ((skip 1 >>= fun _ => r) c).2.index ≤ limit :=
  (hr ⟨c.index + 1, c.diagnostics⟩ (Nat.le_succ_of_le hfirst) (h.lt_of_kind hk hne hlimit)).2

omit h in
/-- The path of an import is a text, alone or behind a name or a point. -/
theorem readImport_spec (s : Lexed) (c : Cursor) :
    ∃ i, (i = c.index ∨ i = c.index + 1 ∧ ∃ k, s.kindAt c.index = some k ∧ ∀ b, k ≠ .closer b) ∧
      ((∃ found d, readImport s c = (some found, d) ∧ found.span = ⟨s.startAt c.index, s.stopAt i⟩ ∧
          d.index = i + 1 ∧ ∃ k, s.kindAt i = some k ∧ ∀ b, k ≠ .closer b) ∨
        ∃ d, readImport s c = (none, d) ∧ d.index = i) := by
  have hpath : ∀ (alias? : Option String) (e : Cursor) (x : Option ImportSpec × Cursor),
      x = (do
        let i ← index
        if s.kindAt i = some .string || s.kindAt i = some .rawString then do
          skip 1
          give (ImportSpec.mk alias? (String.ofList (unquote (s.nameAt i).toList)) ⟨s.startAt c.index, s.stopAt i⟩)
        else do
          report s "expected import path"
          fail : Reader ImportSpec) e →
      (∃ found d, x = (some found, d) ∧ found.span = ⟨s.startAt c.index, s.stopAt e.index⟩ ∧
          d.index = e.index + 1 ∧ ∃ k, s.kindAt e.index = some k ∧ ∀ b, k ≠ .closer b) ∨
        ∃ d, x = (none, d) ∧ d.index = e.index := by
    rintro alias? e x rfl
    rw [index_bind]
    split
    · next hk =>
      simp only [Bool.or_eq_true, decide_eq_true_eq] at hk
      refine .inl ⟨_, _, rfl, rfl, rfl, ?_⟩
      rcases hk with hk | hk
      · exact ⟨_, hk, by simp⟩
      · exact ⟨_, hk, by simp⟩
    · exact .inr ⟨_, rfl, rfl⟩
  cases hk : s.kindAt c.index with
  | none => exact ⟨c.index, .inl rfl, hpath none c _ (by rw [readImport, index_bind, hk]; rfl)⟩
  | some k =>
    cases k with
    | ident =>
      exact ⟨c.index + 1, .inr ⟨rfl, _, rfl, by simp⟩,
        hpath (some (s.nameAt c.index)) ⟨c.index + 1, c.diagnostics⟩ _ (by rw [readImport, index_bind, hk]; rfl)⟩
    | dot =>
      exact ⟨c.index + 1, .inr ⟨rfl, _, rfl, by simp⟩,
        hpath (some ".") ⟨c.index + 1, c.diagnostics⟩ _ (by rw [readImport, index_bind, hk]; rfl)⟩
    | _ => exact ⟨c.index, .inl rfl, hpath none c _ (by rw [readImport, index_bind, hk]; rfl)⟩

theorem readImport_stays : (readImport s).StaysIn first limit := by
  intro c hfirst hlimit
  refine ⟨readImport_forward c, ?_⟩
  obtain ⟨i, hi, hread⟩ := readImport_spec s c
  have hile : i ≤ limit := by
    rcases hi with rfl | ⟨rfl, k, hk, hne⟩
    · exact hlimit
    · exact h.lt_of_kind hk hne hlimit
  rcases hread with ⟨found, d, hread, -, hd, k, hk, hne⟩ | ⟨d, hread, hd⟩
  · rw [hread, hd]
    exact h.lt_of_kind hk hne hile
  · rw [hread, hd]
    exact hile

omit h in
/-- An import that is read has passed its path. -/
theorem readImport_lt {c : Cursor} {found : ImportSpec} (h : (readImport s c).1 = some found) :
    c.index < (readImport s c).2.index := by
  obtain ⟨i, hi, ⟨spec, d, hread, -, hd, -⟩ | ⟨d, hread, -⟩⟩ := readImport_spec s c
  · rw [hread, hd]
    omega
  · rw [hread] at h
    cases h

include hm

theorem readParams_stays : (readParams s).StaysIn first limit := by
  intro c hfirst hlimit
  refine ⟨readParams_forward hm c, ?_⟩
  rw [readParams, index_bind]
  split
  · next hk =>
    simp only [Bool.and_eq_true, decide_eq_true_eq] at hk
    have hlt := h.lt_of_kind hk.1 (by simp) hlimit
    cases hclose : s.closerOf c.index with
    | none => exact hlt
    | some close => exact h.closed _ _ hfirst hlt hclose
  · exact hlimit

theorem readTypeSpec_stays (scope : Option Span) : (readTypeSpec s scope).StaysIn first limit := by
  intro c hfirst hlimit
  refine ⟨readTypeSpec_forward hm scope c, ?_⟩
  rw [readTypeSpec, index_bind]
  split
  · next hk =>
    refine skip_le h hk (by simp) hfirst hlimit ?_
    refine (readParams_stays hm h).bind fun _ => (StaysIn.eat h (by simp)).bind fun _ =>
      (readType_stays hm h).optional.bind fun type => ?_
    cases type with
    | none => exact (StaysIn.report _).bind fun _ => .fail
    | some type => exact StaysIn.index.bind fun _ => .give _
  · exact hlimit

omit hm in
theorem readConstNames_stays (fuel : Nat) (names : List String) :
    (readConstNames s fuel names).StaysIn first limit := by
  induction fuel generalizing names with
  | zero => exact .give names
  | succ fuel ih =>
    unfold readConstNames
    refine StaysIn.index.bind fun i => (StaysIn.eat h (by simp)).bind fun isName => ?_
    split
    · refine (StaysIn.eat h (by simp)).bind fun more => ?_
      split
      · exact ih _
      · exact .give _
    · exact .give names

theorem readConstValues_stays (fuel : Nat) (values : List (Option Nat)) :
    (readConstValues s limit fuel values).StaysIn first limit := by
  induction fuel generalizing values with
  | zero => exact .give values
  | succ fuel ih =>
    unfold readConstValues
    refine StaysIn.jump (fun i hfirst hlimit => ⟨le_afterValue hm limit _ i, afterValue_le hm h hfirst hlimit⟩)
      fun i _ => (StaysIn.eat h (by simp)).bind fun more => ?_
    split
    · exact ih _
    · exact .give _

theorem readConstSpec_advances (scope : Option Span) : (readConstSpec s scope limit).Advances first limit := by
  intro c hfirst hlt
  obtain ⟨names, d, hnames⟩ := readConstNames_gives (s := s) (s.size - c.index + 1) [] c
  have hd := readConstNames_stays h (s.size - c.index + 1) [] c hfirst (Nat.le_of_lt hlt)
  rw [hnames] at hd
  rw [readConstSpec, index_bind, bind_some hnames]
  split
  · exact recover_advances hm h hfirst hlt hd.1 hd.2
  · have hle := le_firstIndex (s := s) limit (fun k => k == .assign || k == .semicolon) (limit - d.index) d.index
    have hle' : firstIndex s limit (fun k => k == .assign || k == .semicolon) (limit - d.index) d.index ≤ limit :=
      firstIndex_le _ hd.2
    rw [index_bind, goTo_bind]
    generalize firstIndex s limit (fun k => k == .assign || k == .semicolon) (limit - d.index) d.index = i at hle hle'
    rw [eat_bind]
    split
    · next hassign =>
      have hnext := h.lt_of_kind hassign (by simp) hle'
      obtain ⟨values, e, hvalues⟩ := readConstValues_gives (s := s) limit (s.size - d.index + 1) []
        ⟨i + 1, d.diagnostics⟩
      have he := readConstValues_stays hm h (s.size - d.index + 1) [] ⟨i + 1, d.diagnostics⟩
        (by simp only at hd ⊢; omega) hnext
      rw [hvalues] at he
      simp only [↓reduceIte]
      rw [bind_some hvalues]
      exact recover_advances hm h hfirst hlt (by simp only at hd he; omega) he.2
    · exact recover_advances hm h hfirst hlt (d := ⟨i, d.diagnostics⟩) (by simp only at hd ⊢; omega) hle'

end

/-! ## Everything that is read -/

/-- In brackets of a struct type each line passes a token, all of them end at the brace, and the type behind it. -/
structure BodyEnds (s : Lexed) (inner : Reader TypeExpr) : Prop where
  advances : ∀ lbrace rbrace, s.kindAt lbrace = some (.opener .brace) → s.closerOf lbrace = some rbrace →
    (readField s inner rbrace).Advances (lbrace + 1) rbrace
  ends : ∀ lbrace rbrace fuel fields c, s.kindAt lbrace = some (.opener .brace) → s.closerOf lbrace = some rbrace →
    lbrace < c.index → c.index ≤ rbrace → rbrace ≤ c.index + fuel →
    (readFields s inner rbrace fuel fields c).2.index = rbrace
  behind : ∀ c t d, readStruct s inner c = (some t, d) →
    ∃ rbrace, s.closerOf (c.index + 1) = some rbrace ∧ d.index = rbrace + 1

/-- In parentheses each declaration passes a token, all of them end at the closing one or, if there is none, with
the tokens, and the group behind that. -/
structure GroupEnds {α : Type} (s : Lexed) (spec : Nat → Reader (List α)) : Prop where
  advances : ∀ o, s.kindAt o = some (.opener .paren) →
    (spec ((s.closerOf o).getD s.size)).Advances (o + 1) ((s.closerOf o).getD s.size)
  ends : ∀ o fuel found c, s.kindAt o = some (.opener .paren) → o < c.index →
    c.index ≤ (s.closerOf o).getD s.size → (s.closerOf o).getD s.size ≤ c.index + fuel →
    (readGroup s spec ((s.closerOf o).getD s.size) fuel found c).2.index = (s.closerOf o).getD s.size
  behind : ∀ c, s.kindAt (c.index + 1) = some (.opener .paren) →
    (readDeclarations s spec c).2.index = (s.closerOf (c.index + 1)).getD s.size + 1

section

variable {s : Lexed} (hm : s.IsMatched)
include hm

theorem bodyEnds {inner : Reader TypeExpr} (hin : ReadsTypes s inner) : BodyEnds s inner := by
  have hadvances : ∀ lbrace rbrace, s.kindAt lbrace = some (.opener .brace) → s.closerOf lbrace = some rbrace →
      (readField s inner rbrace).Advances (lbrace + 1) rbrace := by
    intro lbrace rbrace hk hc
    obtain ⟨-, -, b, hopen, hclose⟩ := hm.closer_spec hc
    rw [hk] at hopen
    cases hopen
    exact readField_advances hm hin hc hclose
  refine ⟨hadvances, fun lbrace rbrace fuel fields c hk hc hfirst hlimit hfuel =>
    readFields_index (hadvances lbrace rbrace hk hc) hfirst hlimit hfuel, fun c t d hread => ?_⟩
  rw [readStruct, index_bind, skip_bind] at hread
  split at hread
  · cases hc : s.closerOf (c.index + 1) with
    | none =>
      rw [hc] at hread
      cases hread
    | some rbrace =>
      obtain ⟨fields, e, hfields⟩ := @readFields_some s inner rbrace (rbrace - c.index) []
        ⟨c.index + 2, c.diagnostics⟩
      rw [hc, require_some_bind, goTo_bind, bind_some hfields] at hread
      cases hread
      exact ⟨rbrace, rfl, rfl⟩
  · cases hread

theorem groupEnds {α : Type} {spec : Nat → Reader (List α)} (hgives : ∀ limit, AlwaysGives (spec limit))
    (hspec : ∀ {first limit}, s.IsRegion first limit → (spec limit).Advances first limit) : GroupEnds s spec where
  advances o _ := hspec (hm.isRegion_getD o)
  ends o _ _ _ _ hfirst hlimit hfuel := readGroup_index (hspec (hm.isRegion_getD o)) (hgives _) hfirst hlimit hfuel
  behind c hk := by
    rcases readDeclarations_index hgives c with ⟨-, hindex⟩ | ⟨hne, -⟩
    · exact hindex
    · exact absurd hk hne

theorem readImports_ends : GroupEnds s fun limit => orRecover s limit (readImport s) :=
  groupEnds hm (fun limit => orRecover_gives limit _) fun h =>
    orRecover_advances hm h (readImport_stays h) fun _ _ => readImport_lt

theorem readTypes_ends (scope : Option Span) : GroupEnds s fun limit => orRecover s limit (readTypeSpec s scope) :=
  groupEnds hm (fun limit => orRecover_gives limit _) fun h =>
    orRecover_advances hm h (readTypeSpec_stays hm h scope) fun _ _ => readTypeSpec_lt hm

theorem readConsts_ends (scope : Option Span) : GroupEnds s (readConstSpec s scope) :=
  groupEnds hm (readConstSpec_gives scope) fun h => readConstSpec_advances hm h scope

/-- A type passes at least one token and takes brackets in pairs. -/
theorem readType_closed {c d : Cursor} {t : TypeExpr} (hread : readType s c = (some t, d)) :
    c.index < d.index ∧ s.IsClosedRange c.index d.index := by
  have hreads := readType_reads hm c
  rw [hread] at hreads
  obtain ⟨hlt, hitems, -⟩ := hreads.2 rfl
  exact ⟨hlt, hitems.isClosedRange hm⟩

end

/-- Whatever the tokens are, types take brackets in pairs and stay within those around them, read or given up, and
the loops over struct types and groups go forward and end where their brackets do. -/
theorem Lexed.ofTokens_reads (text : List Char) (tokens : List Token) :
    (∀ c t d, readType (ofTokens text tokens) c = (some t, d) →
      c.index < d.index ∧ (ofTokens text tokens).IsClosedRange c.index d.index) ∧
      (∀ o close, (ofTokens text tokens).closerOf o = some close →
        (readType (ofTokens text tokens)).StaysIn (o + 1) close) ∧
      (∀ depth, BodyEnds (ofTokens text tokens) (readTypeWithin (ofTokens text tokens) depth)) ∧
      (GroupEnds (ofTokens text tokens) fun limit =>
        orRecover (ofTokens text tokens) limit (readImport (ofTokens text tokens))) ∧
      (∀ scope, GroupEnds (ofTokens text tokens) fun limit =>
        orRecover (ofTokens text tokens) limit (readTypeSpec (ofTokens text tokens) scope)) ∧
      ∀ scope, GroupEnds (ofTokens text tokens) (readConstSpec (ofTokens text tokens) scope) := by
  have hm := isMatched_ofTokens text tokens
  exact ⟨fun _ _ _ hread => readType_closed hm hread, fun _ _ hc => readType_stays hm (hm.isRegion hc),
    fun depth => bodyEnds hm (readTypeWithin_reads hm depth), readImports_ends hm, readTypes_ends hm,
    readConsts_ends hm⟩

end LiteralFill
