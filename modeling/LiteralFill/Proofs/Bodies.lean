import LiteralFill.Proofs.Nesting
import LiteralFill.Proofs.Reading.Sizes

/-!
Where types are declared. The declared types of a file stand at names, one behind another. Of two pairs of braces
one stands within the other or behind it, whatever brackets of the text stay open; so the function bodies around
a position are nested, and a local type is recorded with the innermost of them.
-/

namespace LiteralFill

/-- A span that stands in another. -/
def Span.Within (a b : Span) : Prop := b.start ≤ a.start ∧ a.stop ≤ b.stop

theorem Span.contains_iff {a : Span} {x : Nat} : a.contains x = true ↔ a.start ≤ x ∧ x < a.stop := by
  simp [contains]

/-! ## Pairs of braces -/

namespace Lexed

/-- From a brace through the one that closes it, or to the end of the text if none does. -/
def blockAt (s : Lexed) (i : Nat) : Span :=
  ⟨s.startAt i,
    match s.closerOf i with
    | some close => s.stopAt close
    | none => byteLength s.text⟩

variable {s : Lexed} (hs : s.IsRead)
include hs

theorem IsRead.stopAt_le_length (i : Nat) : s.stopAt i ≤ byteLength s.text := by
  unfold stopAt
  cases ht : s.tokens[i]? with
  | none => exact Nat.zero_le _
  | some t =>
    have hstop := (tokensFrom_isWithin (hs.mem ht)).2
    rwa [lexemesText_lexemes, Nat.zero_add] at hstop

/-- Braces that open behind others open within them or behind their end, and in the first case they close within
them. -/
theorem IsRead.blockAt_nested {i j : Nat} (hij : i < j) (hj : s.kindAt j = some (.opener .brace)) :
    (s.blockAt i).stop ≤ s.startAt j ∨ (s.blockAt j).stop ≤ (s.blockAt i).stop := by
  have hlength : (s.blockAt j).stop ≤ byteLength s.text := by
    simp only [blockAt]
    split
    · exact hs.stopAt_le_length _
    · exact Nat.le_refl _
  cases hc : s.closerOf i with
  | none =>
    right
    simpa [blockAt, hc] using hlength
  | some c =>
    obtain ⟨-, hsize, b, -, hclose⟩ := hs.matched.closer_spec hc
    rcases Nat.lt_trichotomy j c with hjc | rfl | hcj
    · obtain ⟨d, hd, hclosed⟩ := hs.matched.inner hc hij hjc hj
      right
      simpa [blockAt, hc, hclosed] using hs.stop_le_stop (Nat.le_of_lt hd) hsize
    · rw [hj] at hclose
      cases hclose
    · left
      simpa [blockAt, hc] using hs.stop_le_start hcj (kindAt_lt hj)

/-- A name between brackets that are closed behind it. -/
theorem IsRead.blockAt_contains {i k : Nat} (hik : i < k) (hk : s.kindAt k = some .ident)
    (hclose : ∀ c, s.closerOf i = some c → k < c) :
    (s.blockAt i).contains (s.startAt k) := by
  obtain ⟨t, ht⟩ := exists_token (kindAt_lt hk)
  have hkind := kind_of_token ht hk
  have hpos := byteLength_pos (hs.text_ne_nil ht (by simp [hkind]))
  have hstop : s.startAt k < s.stopAt k := by
    simp only [startAt, stopAt, ht, Option.map_some, Option.getD_some, Token.stop]
    omega
  refine Span.contains_iff.mpr ⟨hs.start_le_start (Nat.le_of_lt hik) (kindAt_lt hk), ?_⟩
  cases hc : s.closerOf i with
  | none =>
    have hle := hs.stopAt_le_length k
    simp only [blockAt, hc]
    omega
  | some c =>
    have hsize := (hs.matched.closer_spec hc).2.1
    have hle := hs.stop_le_stop (Nat.le_of_lt (hclose c hc)) hsize
    simp only [blockAt, hc]
    omega

end Lexed

/-- A pair of braces. -/
def Lexed.IsBlock (s : Lexed) (b : Span) : Prop := ∃ i, s.kindAt i = some (.opener .brace) ∧ b = s.blockAt i

/-- Of two pairs of braces around one position, that which opens first is around the other. -/
theorem Lexed.IsBlock.within {s : Lexed} (hs : s.IsRead) {a b : Span} (ha : s.IsBlock a) (hb : s.IsBlock b) {x : Nat}
    (hxa : a.contains x) (hxb : b.contains x) (hle : b.start ≤ a.start) : a.Within b := by
  obtain ⟨i, hi, rfl⟩ := ha
  obtain ⟨j, hj, rfl⟩ := hb
  refine ⟨hle, ?_⟩
  rw [Span.contains_iff] at hxa hxb
  rcases Nat.lt_trichotomy i j with hij | rfl | hji
  · have hlt : s.startAt i < s.startAt j := hs.start_lt_start hij (kindAt_lt hj) hi (by decide)
    exact absurd hle (Nat.not_le_of_lt hlt)
  · exact Nat.le_refl _
  · rcases hs.blockAt_nested hji hi with hbehind | hwithin
    · have hstart : s.startAt i ≤ x := hxa.1
      omega
    · exact hwithin

/-! ## Declarations -/

/-- Types declared one behind another, at names from one index up to another. -/
structure DeclaredIn (s : Lexed) (first last : Nat) (ds : List TypeDecl) : Prop where
  begins : ∀ d ∈ ds, ∃ i, first ≤ i ∧ i < last ∧ s.kindAt i = some .ident ∧ d.span.start = s.startAt i
  ordered : ds.Pairwise fun d e => d.span.start < e.span.start

namespace DeclaredIn

variable {s : Lexed} {first last : Nat} {ds : List TypeDecl}

theorem nil : DeclaredIn s first last [] := ⟨by simp, .nil⟩

theorem mono {first' last' : Nat} (h : DeclaredIn s first last ds) (hfirst : first' ≤ first) (hlast : last ≤ last') :
    DeclaredIn s first' last' ds where
  begins d hd := by
    obtain ⟨i, hi, hi', hname⟩ := h.begins d hd
    exact ⟨i, by omega, by omega, hname⟩
  ordered := h.ordered

theorem append (hs : s.IsRead) {mid : Nat} {es : List TypeDecl} (h : DeclaredIn s first mid ds)
    (h' : DeclaredIn s mid last es) (hfirst : first ≤ mid) (hlast : mid ≤ last) :
    DeclaredIn s first last (ds ++ es) where
  begins d hd := by
    rcases List.mem_append.mp hd with hd | hd
    · exact (h.mono (Nat.le_refl _) hlast).begins d hd
    · exact (h'.mono hfirst (Nat.le_refl _)).begins d hd
  ordered := by
    refine List.pairwise_append.mpr ⟨h.ordered, h'.ordered, fun d hd e he => ?_⟩
    obtain ⟨i, -, hi, hident, hd⟩ := h.begins d hd
    obtain ⟨j, hj, -, hident', he⟩ := h'.begins e he
    rw [hd, he]
    exact hs.start_lt_start (by omega) (Lexed.kindAt_lt hident') hident (by decide)

end DeclaredIn

section

open Reader

variable {s : Lexed} {scope : Option Span}

/-- A declared type begins with its name. -/
theorem readTypeSpec_begins {c : Cursor} {d : TypeDecl} (h : (readTypeSpec s scope c).1 = some d) :
    s.kindAt c.index = some .ident ∧ d.span.start = s.startAt c.index ∧ d.scope = scope := by
  unfold readTypeSpec at h
  rw [index_bind] at h
  split at h
  · refine ⟨‹_›, (?_ : Reader.Yields _ fun d => d.span.start = s.startAt c.index ∧ d.scope = scope) c d h⟩
    refine .after fun _ => .after fun _ => .after fun _ => .after fun type => ?_
    cases type with
    | none => exact .after fun _ => .fail
    | some type => exact .after fun next => .give ⟨rfl, rfl⟩
  · cases h

theorem readTypeSpec_lt (hm : s.IsMatched) {c : Cursor} {d : TypeDecl} (h : (readTypeSpec s scope c).1 = some d) :
    c.index < (readTypeSpec s scope c).2.index := by
  have hident := (readTypeSpec_begins h).1
  rw [readTypeSpec, index_bind, if_pos hident, skip_bind]
  refine (?_ : IsForward _) ⟨c.index + 1, c.diagnostics⟩
  refine (readParams_forward hm).bind fun _ => (IsForward.eat .assign).bind fun _ =>
    (readType_forward hm).optional.bind fun type => ?_
  cases type with
  | none => exact (IsForward.report _).bind fun _ => .fail
  | some type => exact IsForward.index.bind fun _ => .give _

variable (hs : s.IsRead)
include hs

/-- One declaration, or what is passed over in its place. -/
theorem readTypeDecl_declares (limit : Nat) {c c' : Cursor} {ds : List TypeDecl}
    (h : orRecover s limit (readTypeSpec s scope) c = (some ds, c')) :
    c.index ≤ c'.index ∧ DeclaredIn s c.index (c.index + 1) ds ∧ (ds ≠ [] → c.index < c'.index) := by
  have hle := orRecover_forward hs.matched limit (readTypeSpec_forward hs.matched scope) c
  rw [h] at hle
  refine ⟨hle, ?_⟩
  rw [orRecover, optional_bind] at h
  cases hread : (readTypeSpec s scope c).1 with
  | none =>
    rw [hread] at h
    cases h
    exact ⟨.nil, fun hne => absurd rfl hne⟩
  | some d =>
    rw [hread] at h
    cases h
    obtain ⟨hident, hstart, -⟩ := readTypeSpec_begins hread
    refine ⟨⟨?_, List.pairwise_singleton _ _⟩, fun _ => readTypeSpec_lt hs.matched hread⟩
    intro e he
    obtain rfl := List.mem_singleton.mp he
    exact ⟨c.index, Nat.le_refl _, Nat.lt_succ_self _, hident, hstart⟩

/-- The types of a group stand before its end. -/
theorem readGroup_declares {close first fuel : Nat} {found ds : List TypeDecl} {c c' : Cursor}
    (hfirst : first ≤ c.index) (hfound : DeclaredIn s first (min c.index close) found)
    (h : readGroup s (fun limit => orRecover s limit (readTypeSpec s scope)) close fuel found c = (some ds, c')) :
    DeclaredIn s first close ds := by
  induction fuel generalizing found c with
  | zero =>
    cases h
    exact hfound.mono (Nat.le_refl _) (Nat.min_le_right ..)
  | succ fuel ih =>
    rw [readGroup, index_bind] at h
    split at h
    · next hlt =>
      rw [eat_bind] at h
      split at h
      · exact ih (Nat.le_succ_of_le hfirst) (hfound.mono (Nat.le_refl _) (by simp only; omega)) h
      · simp only [Bool.false_eq_true, ↓reduceIte] at h
        obtain ⟨more, d, hmore⟩ := orRecover_gives close (readTypeSpec s scope) c
        rw [bind_some hmore] at h
        obtain ⟨hle, hdeclared, hlt'⟩ := readTypeDecl_declares hs close hmore
        refine ih (Nat.le_trans hfirst hle) ?_ h
        cases more with
        | nil =>
          rw [List.append_nil]
          exact hfound.mono (Nat.le_refl _) (by omega)
        | cons e rest =>
          have hd := hlt' (List.cons_ne_nil e rest)
          exact (hfound.mono (Nat.le_refl _) (Nat.min_le_left ..)).append hs
            (hdeclared.mono (Nat.le_refl _) (by omega)) hfirst (by omega)
    · cases h
      exact hfound.mono (Nat.le_refl _) (Nat.min_le_right ..)

/-- The types that a keyword declares stand behind it, before whatever closes brackets that are open there. -/
theorem readTypes_declares {c c' : Cursor} {ds : List TypeDecl} (h : readTypes s scope c = (some ds, c')) :
    ∃ last ≤ c'.index, DeclaredIn s (c.index + 1) last ds ∧
      ∀ i close, s.closerOf i = some close → i ≤ c.index → c.index < close → last ≤ close := by
  have hgives (limit : Nat) : AlwaysGives (orRecover s limit (readTypeSpec s scope)) := orRecover_gives limit _
  unfold readTypes at h
  rcases readDeclarations_index hgives c with ⟨hparen, hnext⟩ | ⟨-, hsingle⟩
  · rw [h] at hnext
    have hnext : c'.index = (s.closerOf (c.index + 1)).getD s.size + 1 := hnext
    rw [readDeclarations, index_bind, skip_bind] at h
    simp only [hparen, ↓reduceIte, skip_bind] at h
    generalize hclose : (s.closerOf (c.index + 1)).getD s.size = close at h hnext
    obtain ⟨found, d, hgroup⟩ := readGroup_gives hgives close (close - c.index) [] ⟨c.index + 1 + 1, c.diagnostics⟩
    rw [bind_some hgroup] at h
    cases h
    refine ⟨close, by omega, (readGroup_declares hs (Nat.le_refl _) .nil hgroup).mono (by simp) (Nat.le_refl _), ?_⟩
    intro i outer houter hi hlt
    have hne : outer ≠ c.index + 1 := by
      rintro rfl
      obtain ⟨-, -, b, -, hkind⟩ := hs.matched.closer_spec houter
      rw [hparen] at hkind
      cases hkind
    obtain ⟨inner, hinner, hcloser⟩ := hs.matched.inner houter (show i < c.index + 1 by omega) (by omega) hparen
    rw [hcloser] at hclose
    simp only [Option.getD_some] at hclose
    omega
  · rw [hsingle] at h
    obtain ⟨hle, hdeclared, hlt⟩ := readTypeDecl_declares hs s.size h
    cases ds with
    | nil => exact ⟨c.index + 1, hle, .nil, fun _ _ _ _ hlt => hlt⟩
    | cons d rest =>
      have hlt := hlt (List.cons_ne_nil d rest)
      refine ⟨c.index + 1 + 1, hlt, hdeclared, fun i close hclose _ hlt => ?_⟩
      have hne : close ≠ c.index + 1 := by
        rintro rfl
        obtain ⟨-, -, b, -, hkind⟩ := hs.matched.closer_spec hclose
        obtain ⟨k, hk, hk', hident, -⟩ := hdeclared.begins d List.mem_cons_self
        obtain rfl : k = c.index + 1 := by
          simp only at hk hk'
          omega
        rw [hident] at hkind
        cases hkind
      omega

/-- All of them are declared in the body that is given. -/
theorem readTypes_scope {c c' : Cursor} {ds : List TypeDecl} (h : readTypes s scope c = (some ds, c')) :
    ∀ d ∈ ds, d.scope = scope := by
  have hspec : (readTypeSpec s scope).Yields fun d => d.scope = scope :=
    fun _ _ hread => (readTypeSpec_begins hread).2.2
  exact readDeclarations_all hs.matched (orRecover_all hspec) c ds (by rw [← readTypes, h])

end

/-! ## The pass -/

namespace Outline

variable {s : Lexed}

/-- The bodies around the pass after a token. -/
theorem step_bodies (s : Lexed) (t : Token) (o : Outline) :
    (step s t o).bodies = o.bodies ∨
      (t.kind = .opener .brace ∧ (step s t o).bodies = s.blockAt o.index :: o.bodies) ∨
      (t.kind = .closer .brace ∧ (step s t o).bodies = o.bodies.filter fun b => s.startAt o.index + 1 < b.stop) := by
  have hliteral (otherwise : Outline → Outline) (h : (otherwise o).bodies = o.bodies) :
      (stepLiteral s otherwise o).bodies = o.bodies := by
    rcases stepLiteral_eq s otherwise o with ⟨l, lbrace, rbrace, ds, -, he⟩ | ⟨-, he⟩
    · rw [he]
    · rw [he, h]
  have hbody : (stepTypeBody s o).bodies = o.bodies := by
    unfold stepTypeBody
    simp only
    split <;> rfl
  obtain ⟨kind, start, text⟩ := t
  cases kind with
  | opener b =>
    cases b with
    | brace =>
      simp only [step, stepOpenBrace]
      cases o.headerHere with
      | none => exact .inl rfl
      | some h =>
        cases hf : h.isFunc with
        | true =>
          right
          left
          simp only [hf, ↓reduceIte, true_and]
          rfl
        | false =>
          left
          simp only [hf, Bool.false_eq_true, ↓reduceIte]
          rfl
    | square => exact .inl (hliteral _ rfl)
    | paren => exact .inl rfl
  | closer b =>
    cases b with
    | brace =>
      refine .inr (.inr ⟨rfl, ?_⟩)
      simp only [step, stepCloseBrace]
      split
      · split <;> rfl
      · rfl
    | _ => exact .inl rfl
  | keyword w =>
    cases w with
    | packageWord =>
      simp only [step, stepPackage]
      split <;> exact .inl rfl
    | typeWord =>
      simp only [step]
      split <;> exact .inl rfl
    | mapWord => exact .inl (hliteral _ rfl)
    | structWord => exact .inl (hliteral _ hbody)
    | interfaceWord => exact .inl hbody
    | _ => exact .inl rfl
  | ident => exact .inl (hliteral _ rfl)
  | _ => exact .inl rfl

/-- The function bodies that are open, innermost first, and the types declared so far. A body that is around a
declared type is around the body that the type is recorded with. -/
structure Enclosed (s : Lexed) (o : Outline) : Prop where
  opened : ∀ b ∈ o.bodies, ∃ i < o.index, s.kindAt i = some (.opener .brace) ∧ b = s.blockAt i
  nested : o.bodies.Pairwise fun a b => b.start < a.start
  declared : DeclaredIn s 0 o.index o.types
  scope : ∀ d ∈ o.types, ∀ b ∈ d.scope, s.IsBlock b ∧ b.start < d.span.start ∧ d.span.start < b.stop
  around : ∀ d ∈ o.types, ∀ b ∈ o.bodies, b.contains d.span.start → ∃ c ∈ d.scope, c.Within b
  ended : ∀ d ∈ o.types, ∀ b ∈ d.scope, b ∈ o.bodies ∨ ∀ i, o.index ≤ i → i < s.size → b.stop ≤ s.startAt i
  innermost : ∀ d ∈ o.types, ∀ e ∈ o.types, ∀ b ∈ e.scope, b.contains d.span.start → ∃ c ∈ d.scope, c.Within b

namespace Enclosed

variable {o : Outline} {t : Token} (hs : s.IsRead) (h : Enclosed s o)
include hs h

/-- The body that a type is recorded with is within all that are open around its keyword. -/
theorem bodyAround {b : Span} (hb : b ∈ o.bodies) {x : Nat} (hx : b.contains x) :
    ∃ c ∈ o.bodyAround x, c.Within b := by
  cases hfound : o.bodyAround x with
  | none => exact absurd hx (by simpa using List.find?_eq_none.mp hfound b hb)
  | some c =>
    obtain ⟨hcx, before, after, hbodies, hbefore⟩ := List.find?_eq_some_iff_append.mp hfound
    have hblock (a : Span) (ha : a ∈ o.bodies) : s.IsBlock a := by
      obtain ⟨i, -, hi, rfl⟩ := h.opened a ha
      exact ⟨i, hi, rfl⟩
    have hc : c ∈ o.bodies := List.mem_of_find?_eq_some hfound
    refine ⟨c, rfl, (hblock c hc).within hs (hblock b hb) hcx hx ?_⟩
    rw [hbodies] at hb
    rcases List.mem_append.mp hb with hb | hb
    · exact absurd hx (by simpa using hbefore b hb)
    · have hnested := h.nested
      rw [hbodies] at hnested
      rcases List.mem_cons.mp hb with rfl | hb
      · exact Nat.le_refl _
      · exact Nat.le_of_lt ((List.pairwise_cons.mp (List.pairwise_append.mp hnested).2.1).1 b hb)

/-- The body that is recorded with types declared at the place of the pass, and where these types stand. -/
theorem recorded (ht : s.tokens[o.index]? = some t) : DeclaredIn s o.index (step s t o).index (recordedTypes s t o) ∧
    ∀ d ∈ recordedTypes s t o, t.kind = .keyword .typeWord ∧ d.scope = o.bodyAround (s.startAt o.index) ∧
      ∀ b ∈ o.bodies, b.contains d.span.start = b.contains (s.startAt o.index) := by
  unfold recordedTypes
  split
  · next hk =>
    obtain ⟨hword, hdeclares⟩ := hk
    have hkind : s.kindAt o.index = some (.keyword .typeWord) := by simp [Lexed.kindAt, ht, hword]
    have hstep : (step s t o).index = (o.read (readTypes s (o.bodyAround (s.startAt o.index)))).2.index := by
      simp only [step, hword, hdeclares, ↓reduceIte]
      rfl
    rw [hstep]
    unfold read
    cases hread : readTypes s (o.bodyAround (s.startAt o.index)) ⟨o.index, o.diagnostics⟩ with
    | mk found c =>
      cases found with
      | none => exact ⟨.nil, by simp⟩
      | some ds =>
        obtain ⟨last, hlast, hdeclared, hclosers⟩ := readTypes_declares hs hread
        refine ⟨hdeclared.mono (Nat.le_succ _) hlast, fun d hd => ⟨hword, readTypes_scope hs hread d hd, ?_⟩⟩
        intro b hb
        obtain ⟨i, hi, hopen, rfl⟩ := h.opened b hb
        obtain ⟨k, hk, hk', hident, hstart⟩ := hdeclared.begins d hd
        have hle : s.startAt i ≤ s.startAt o.index := hs.start_le_start (Nat.le_of_lt hi) (Lexed.kindAt_lt hkind)
        have hbehind : s.startAt o.index < s.startAt k :=
          hs.start_lt_start hk (Lexed.kindAt_lt hident) hkind (by decide)
        rw [hstart, Bool.eq_iff_iff]
        constructor
        · intro hname
          exact Span.contains_iff.mpr ⟨hle, Nat.lt_trans hbehind (Span.contains_iff.mp hname).2⟩
        · intro hword
          have hstop := (Span.contains_iff.mp hword).2
          refine hs.blockAt_contains (Nat.lt_trans hi hk) hident fun close hclose => ?_
          obtain ⟨-, hsize, b, -, hcloser⟩ := hs.matched.closer_spec hclose
          simp only [Lexed.blockAt, hclose] at hstop
          have hlt : o.index < close := by
            rcases Nat.lt_trichotomy o.index close with hlt | rfl | hgt
            · exact hlt
            · rw [hkind] at hcloser
              cases hcloser
            · have := hs.stop_le_start hgt (Lexed.kindAt_lt hkind)
              omega
          exact Nat.lt_of_lt_of_le hk' (hclosers i close hclose (Nat.le_of_lt hi) hlt)
  · exact ⟨.nil, by simp⟩

omit hs h in
/-- A body that is open after a step was open before it, or opens there. -/
theorem mem_step_bodies {b : Span} (hb : b ∈ (Outline.step s t o).bodies) :
    b ∈ o.bodies ∨ t.kind = .opener .brace ∧ b = s.blockAt o.index := by
  rcases step_bodies s t o with hsame | ⟨hk, hopened⟩ | ⟨-, hclosed⟩
  · exact .inl (hsame ▸ hb)
  · rw [hopened] at hb
    exact (List.mem_cons.mp hb).symm.imp_right fun hb => ⟨hk, hb⟩
  · rw [hclosed] at hb
    exact .inl (List.mem_of_mem_filter hb)

omit hs h in
theorem mem_step_types {d : TypeDecl} (hd : d ∈ (Outline.step s t o).types) : d ∈ o.types ∨ d ∈ recordedTypes s t o :=
  List.mem_append.mp ((step_records s t o).types ▸ hd)

variable (ht : s.tokens[o.index]? = some t)
include ht

/-- A type is recorded with a body that is open around its keyword. -/
theorem recorded_scope {d : TypeDecl} (hd : d ∈ recordedTypes s t o) {b : Span} (hb : b ∈ d.scope) :
    b ∈ o.bodies ∧ b.contains (s.startAt o.index) := by
  rw [((h.recorded hs ht).2 d hd).2.1] at hb
  have hfound : o.bodies.find? (fun b => b.contains (s.startAt o.index)) = some b := hb
  have hcontains := List.find?_some hfound
  exact ⟨List.mem_of_find?_eq_some hfound, hcontains⟩

theorem recorded_within {d : TypeDecl} (hd : d ∈ recordedTypes s t o) {b : Span} (hb : b ∈ o.bodies)
    (hcontains : b.contains d.span.start) : ∃ c ∈ d.scope, c.Within b := by
  obtain ⟨-, hbody, hsame⟩ := (h.recorded hs ht).2 d hd
  rw [hbody]
  exact h.bodyAround hs hb (hsame b hb ▸ hcontains)

theorem step_opened : ∀ b ∈ (Outline.step s t o).bodies,
    ∃ i < (Outline.step s t o).index, s.kindAt i = some (.opener .brace) ∧ b = s.blockAt i := by
  have hlt := step_lt hs.matched t o
  have hkind : s.kindAt o.index = some t.kind := by simp [Lexed.kindAt, ht]
  intro b hb
  rcases mem_step_bodies hb with hb | ⟨hk, rfl⟩
  · obtain ⟨i, hi, hopen⟩ := h.opened b hb
    exact ⟨i, Nat.lt_trans hi hlt, hopen⟩
  · exact ⟨o.index, hlt, hk ▸ hkind, rfl⟩

theorem step_nested : (Outline.step s t o).bodies.Pairwise fun a b => b.start < a.start := by
  have hindex : o.index < s.size := (Array.getElem?_eq_some_iff.mp ht).1
  rcases step_bodies s t o with hsame | ⟨hk, hopened⟩ | ⟨-, hclosed⟩
  · exact hsame ▸ h.nested
  · rw [hopened]
    refine List.pairwise_cons.mpr ⟨fun b hb => ?_, h.nested⟩
    obtain ⟨i, hi, hopen, rfl⟩ := h.opened b hb
    exact hs.start_lt_start hi hindex hopen (by decide)
  · rw [hclosed]
    exact h.nested.filter _

theorem step_scope : ∀ d ∈ (Outline.step s t o).types, ∀ b ∈ d.scope,
    s.IsBlock b ∧ b.start < d.span.start ∧ d.span.start < b.stop := by
  intro d hd b hb
  rcases mem_step_types hd with hd | hd
  · exact h.scope d hd b hb
  · obtain ⟨hdeclared, hrecorded⟩ := h.recorded hs ht
    obtain ⟨hopen, hcontains⟩ := h.recorded_scope hs ht hd hb
    obtain ⟨i, hi, hbrace, rfl⟩ := h.opened b hopen
    obtain ⟨k, hk, -, hident, hstart⟩ := hdeclared.begins d hd
    have hbehind := hs.start_lt_start (Nat.lt_of_lt_of_le hi hk) (Lexed.kindAt_lt hident) hbrace (by decide)
    rw [← (hrecorded d hd).2.2 _ hopen] at hcontains
    exact ⟨⟨i, hbrace, rfl⟩, hstart ▸ hbehind, (Span.contains_iff.mp hcontains).2⟩

theorem step_around : ∀ d ∈ (Outline.step s t o).types, ∀ b ∈ (Outline.step s t o).bodies,
    b.contains d.span.start → ∃ c ∈ d.scope, c.Within b := by
  have hindex : o.index < s.size := (Array.getElem?_eq_some_iff.mp ht).1
  intro d hd b hb hcontains
  rcases mem_step_types hd with hd | hd
  · rcases mem_step_bodies hb with hb | ⟨-, rfl⟩
    · exact h.around d hd b hb hcontains
    · -- a body that opens now is behind the types declared before
      obtain ⟨i, -, hi, hident, hstart⟩ := h.declared.begins d hd
      have hbehind := hs.start_lt_start hi hindex hident (by decide)
      rw [← hstart] at hbehind
      exact absurd (Span.contains_iff.mp hcontains).1 (Nat.not_le_of_lt hbehind)
  · rcases mem_step_bodies hb with hb | ⟨hk, -⟩
    · exact h.recorded_within hs ht hd hb hcontains
    · rw [((h.recorded hs ht).2 d hd).1] at hk
      cases hk

theorem step_ended : ∀ d ∈ (Outline.step s t o).types, ∀ b ∈ d.scope, b ∈ (Outline.step s t o).bodies ∨
    ∀ i, (Outline.step s t o).index ≤ i → i < s.size → b.stop ≤ s.startAt i := by
  have hlt := step_lt hs.matched t o
  have hkind : s.kindAt o.index = some t.kind := by simp [Lexed.kindAt, ht]
  intro d hd b hb
  rcases mem_step_types hd with hd | hd
  · rcases h.ended d hd b hb with hopen | hended
    · rcases step_bodies s t o with hsame | ⟨-, hopened⟩ | ⟨hk, hclosed⟩
      · exact .inl (hsame ▸ hopen)
      · exact .inl (hopened ▸ List.mem_cons_of_mem _ hopen)
      · by_cases hbehind : s.startAt o.index + 1 < b.stop
        · exact .inl (hclosed ▸ List.mem_filter.mpr ⟨hopen, by simpa using hbehind⟩)
        · right
          intro i hi hsize
          have hstop := hs.stopAt_bracket (hk ▸ hkind) rfl
          have := hs.stop_le_start (Nat.lt_of_lt_of_le hlt hi) hsize
          omega
    · exact .inr fun i hi => hended i (Nat.le_trans (Nat.le_of_lt hlt) hi)
  · have hword := ((h.recorded hs ht).2 d hd).1
    rcases step_bodies s t o with hsame | ⟨hk, -⟩ | ⟨hk, -⟩
    · exact .inl (hsame ▸ (h.recorded_scope hs ht hd hb).1)
    · rw [hword] at hk
      cases hk
    · rw [hword] at hk
      cases hk

theorem step_innermost : ∀ d ∈ (Outline.step s t o).types, ∀ e ∈ (Outline.step s t o).types, ∀ b ∈ e.scope,
    b.contains d.span.start → ∃ c ∈ d.scope, c.Within b := by
  intro d hd e he b hb hcontains
  rcases mem_step_types hd with hd | hd
  · rcases mem_step_types he with he | he
    · exact h.innermost d hd e he b hb hcontains
    · exact h.around d hd b (h.recorded_scope hs ht he hb).1 hcontains
  · rcases mem_step_types he with he | he
    · rcases h.ended e he b hb with hopen | hended
      · exact h.recorded_within hs ht hd hopen hcontains
      · -- a body that was left ends before what is declared now
        obtain ⟨i, hi, -, hident, hstart⟩ := (h.recorded hs ht).1.begins d hd
        have hbehind := hended i hi (Lexed.kindAt_lt hident)
        rw [← hstart] at hbehind
        exact absurd (Span.contains_iff.mp hcontains).2 (Nat.not_lt_of_le hbehind)
    · exact h.recorded_within hs ht hd (h.recorded_scope hs ht he hb).1 hcontains

theorem step : Enclosed s (Outline.step s t o) where
  opened := h.step_opened hs ht
  nested := h.step_nested hs ht
  declared := by
    rw [(step_records s t o).types]
    exact h.declared.append hs (h.recorded hs ht).1 (Nat.zero_le _) (Nat.le_of_lt (step_lt hs.matched t o))
  scope := h.step_scope hs ht
  around := h.step_around hs ht
  ended := h.step_ended hs ht
  innermost := h.step_innermost hs ht

omit ht in
theorem run (fuel : Nat) : Enclosed s (Outline.run s fuel o) := by
  induction fuel generalizing o with
  | zero => exact h
  | succ fuel ih =>
    rw [Outline.run]
    cases ht : s.tokens[o.index]? with
    | none => exact h
    | some t => exact ih (h.step hs ht)

end Enclosed

theorem enclosed_start (s : Lexed) (ds : List Diagnostic) : Enclosed s (start ds) := by
  constructor <;> simp [start, DeclaredIn.nil]

end Outline

/-! ## The types of a file -/

/-- The declarations of a file. -/
theorem SourceFile.enclosed_parse (text : List Char) :
    Outline.Enclosed (Lexed.ofText text).1 (Outline.run (Lexed.ofText text).1 (Lexed.ofText text).1.size
      (Outline.start (Lexed.ofText text).2)) :=
  (Outline.enclosed_start _ _).run (Lexed.isRead_ofText text) _

end LiteralFill
