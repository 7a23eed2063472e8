import LiteralFill.Proofs.Literals
import LiteralFill.Proofs.Reading.Following
import Mathlib.Data.List.Forall2

/-!
The pass over the tokens of a file. Every step passes at least one token, so the pass does not depend on how
many steps it is allowed. In two texts whose tokens correspond the pass takes the same course, up to where
the tokens stop corresponding.
-/

namespace LiteralFill

namespace Outline

variable {s s' : Lexed}

/-! ## What one step does -/

/-- A token at which the type of a literal may begin. -/
def beginsLiteral : TokenKind → Bool
  | .opener .square | .ident | .keyword .mapWord | .keyword .structWord => true
  | _ => false

/-- The literal that a step records, if it records one. -/
def recorded (s : Lexed) (t : Token) (o : Outline) : List CompositeLiteral :=
  if beginsLiteral t.kind then ((literalHere s o).map (·.1)).toList else []

/-- The step at a token that begins no literal after all. -/
def stepOther (s : Lexed) (t : Token) (o : Outline) : Outline :=
  match t.kind with
  | .opener .square => stepOpen o
  | .keyword .structWord => stepTypeBody s o
  | .ident | .keyword .mapWord => o.advance
  | _ => step s t o

theorem step_eq (s : Lexed) (t : Token) (o : Outline) :
    step s t o = if beginsLiteral t.kind then stepLiteral s (stepOther s t) o else stepOther s t o := by
  obtain ⟨kind, start, text⟩ := t
  cases kind with
  | opener b => cases b <;> rfl
  | keyword w => cases w <;> rfl
  | _ => rfl

/-- The end of the body that follows a keyword, or the next token. -/
def bodyEnd (s : Lexed) (i : Nat) : Nat :=
  if s.kindAt (i + 1) = some (.opener .brace) then s.skipGroup (i + 1) (i + 2) else i + 1

/-- Where the pass goes on after a token that begins no literal. -/
def nextIndex (s : Lexed) (t : Token) (o : Outline) : Nat :=
  match t.kind with
  | .keyword .packageWord => if s.kindAt (o.index + 1) = some .ident then o.index + 2 else o.index + 1
  | .keyword .importWord => (readImports s ⟨o.index, o.diagnostics⟩).2.index
  | .keyword .typeWord =>
    if declaresType s o.index then
      (readTypes s (o.bodyAround (s.startAt o.index)) ⟨o.index, o.diagnostics⟩).2.index
    else o.index + 1
  | .keyword .constWord =>
    (readConsts s (o.bodyAround (s.startAt o.index)) ⟨o.index, o.diagnostics⟩).2.index
  | .keyword .structWord | .keyword .interfaceWord => bodyEnd s o.index
  | _ => o.index + 1

/-- The pass at a place with nothing around it. -/
def «at» (i : Nat) : Outline := { start [] with index := i }

/-- The number of brackets around the pass after a token. -/
def nextDepth (t : Token) (o : Outline) : Nat :=
  match t.kind with
  | .opener .paren | .opener .square => o.depth + 1
  | .closer .paren | .closer .square => o.depth - 1
  | _ => o.depth

/-- The brace at the place of the pass ends the innermost literal. -/
def endsLiteral (o : Outline) : Bool := o.openLiterals.head? == some o.index

/-- The headers that are open after a token that begins no literal. -/
def nextHeaders (t : Token) (o : Outline) : List Header :=
  match t.kind with
  | .keyword .funcWord => ⟨o.depth, o.level, true⟩ :: o.headers
  | .keyword .ifWord | .keyword .forWord | .keyword .switchWord | .keyword .selectWord =>
    ⟨o.depth, o.level, false⟩ :: o.headers
  | .semicolon =>
    o.headers.dropWhile fun h => h.level == o.level && o.depth ≤ h.depth && (t.isImplied || h.isFunc)
  | .closer .paren | .closer .square => o.headers.dropWhile fun h => o.depth - 1 < h.depth
  | .opener .brace => if o.headerHere.isSome then o.headers.drop 1 else o.headers
  | .closer .brace =>
    if o.endsLiteral then o.headers.dropWhile fun h => o.level - 1 < h.level else o.headers
  | _ => o.headers

/-- The literals around the pass after a token that begins none. -/
def nextOpen (t : Token) (o : Outline) : List Nat :=
  match t.kind with
  | .closer .brace => if o.endsLiteral then o.openLiterals.drop 1 else o.openLiterals
  | _ => o.openLiterals

/-- What a step does that records no literal. -/
structure IsNext (s : Lexed) (t : Token) (o o' : Outline) : Prop where
  index : o'.index = nextIndex s t o
  depth : o'.depth = nextDepth t o
  headers : o'.headers = nextHeaders t o
  openLiterals : o'.openLiterals = nextOpen t o
  literals : o'.literals = o.literals

theorem isNext_openBrace (s : Lexed) (o : Outline) {t : Token} (hk : t.kind = .opener .brace) :
    IsNext s t o (stepOpenBrace s o) := by
  obtain ⟨kind, start, text⟩ := t
  cases hk
  unfold stepOpenBrace
  cases hh : o.headerHere with
  | none => exact ⟨rfl, rfl, by simp [nextHeaders, hh, advance], rfl, rfl⟩
  | some h =>
    cases hf : h.isFunc with
    | false => constructor <;> simp [hf, advance, nextIndex, nextDepth, nextHeaders, nextOpen, hh]
    | true => constructor <;> simp [hf, advance, nextIndex, nextDepth, nextHeaders, nextOpen, hh]

theorem isNext_closeBrace (s : Lexed) (o : Outline) {t : Token} (hk : t.kind = .closer .brace) :
    IsNext s t o (stepCloseBrace s o) := by
  obtain ⟨kind, start, text⟩ := t
  cases hk
  unfold stepCloseBrace
  cases ho : o.openLiterals with
  | nil => constructor <;> simp [advance, nextIndex, nextDepth, nextHeaders, nextOpen, endsLiteral, ho]
  | cons close outer =>
    by_cases h : close = o.index
    · constructor <;>
        simp [h, advance, nextIndex, nextDepth, nextHeaders, nextOpen, endsLiteral, ho, level]
    · constructor <;>
        simp [h, advance, nextIndex, nextDepth, nextHeaders, nextOpen, endsLiteral, ho]

theorem isNext_package (s : Lexed) (o : Outline) {t : Token} (hk : t.kind = .keyword .packageWord) :
    IsNext s t o (stepPackage s o) := by
  obtain ⟨kind, start, text⟩ := t
  cases hk
  unfold stepPackage
  by_cases h : s.kindAt (o.index + 1) = some .ident
  · constructor <;> simp [h, advance, nextIndex, nextDepth, nextHeaders, nextOpen]
  · constructor <;> simp [h, advance, nextIndex, nextDepth, nextHeaders, nextOpen]

theorem isNext_types (s : Lexed) (o : Outline) {t : Token} (hk : t.kind = .keyword .typeWord) :
    IsNext s t o (if declaresType s o.index then stepTypes s o else o.advance) := by
  obtain ⟨kind, start, text⟩ := t
  cases hk
  by_cases h : declaresType s o.index
  · rw [if_pos h]
    exact ⟨by simp [nextIndex, h, stepTypes, read], rfl, rfl, rfl, rfl⟩
  · rw [if_neg h]
    exact ⟨by simp [nextIndex, h, advance], rfl, rfl, rfl, rfl⟩

theorem isNext_body (s : Lexed) (o : Outline) {t : Token}
    (hk : t.kind = .keyword .structWord ∨ t.kind = .keyword .interfaceWord) :
    IsNext s t o (stepTypeBody s o) := by
  obtain ⟨kind, start, text⟩ := t
  unfold stepTypeBody
  rcases hk with rfl | rfl
  · by_cases h : s.kindAt (o.index + 1) = some (.opener .brace)
    · constructor <;> simp [h, advance, nextIndex, nextDepth, nextHeaders, nextOpen, bodyEnd]
    · constructor <;> simp [h, advance, nextIndex, nextDepth, nextHeaders, nextOpen, bodyEnd]
  · by_cases h : s.kindAt (o.index + 1) = some (.opener .brace)
    · constructor <;> simp [h, advance, nextIndex, nextDepth, nextHeaders, nextOpen, bodyEnd]
    · constructor <;> simp [h, advance, nextIndex, nextDepth, nextHeaders, nextOpen, bodyEnd]

theorem stepOther_isNext (s : Lexed) (t : Token) (o : Outline) : IsNext s t o (stepOther s t o) := by
  obtain ⟨kind, start, text⟩ := t
  cases kind with
  | opener b =>
    cases b with
    | brace => exact isNext_openBrace s o rfl
    | _ => exact ⟨rfl, rfl, rfl, rfl, rfl⟩
  | closer b =>
    cases b with
    | brace => exact isNext_closeBrace s o rfl
    | _ => exact ⟨rfl, rfl, rfl, rfl, rfl⟩
  | keyword w =>
    cases w with
    | packageWord => exact isNext_package s o rfl
    | typeWord => exact isNext_types s o rfl
    | structWord => exact isNext_body s o (.inl rfl)
    | interfaceWord => exact isNext_body s o (.inr rfl)
    | _ => exact ⟨rfl, rfl, rfl, rfl, rfl⟩
  | _ => exact ⟨rfl, rfl, rfl, rfl, rfl⟩

theorem step_literals_eq (s : Lexed) (t : Token) (o : Outline) :
    (step s t o).literals = o.literals ++ recorded s t o := by
  rw [step_eq, recorded]
  by_cases hb : beginsLiteral t.kind
  · simp only [hb, ↓reduceIte, stepLiteral]
    cases literalHere s o with
    | none => simp [(stepOther_isNext s t o).literals]
    | some e => rfl
  · simp [hb, (stepOther_isNext s t o).literals]

/-- A literal begins where the pass stands. -/
theorem recorded_start {s : Lexed} {t : Token} {o : Outline} {l : CompositeLiteral}
    (hl : l ∈ recorded s t o) : l.typeSpan.start = s.startAt o.index := by
  unfold recorded at hl
  split at hl
  · obtain ⟨e, he, rfl⟩ := Option.map_eq_some_iff.mp (Option.mem_toList.mp hl)
    obtain ⟨type, -, -, -, -, hliteral⟩ := literalHere_eq_some.mp he
    rw [hliteral]
    rfl
  · cases hl

/-- The literal at the place of the pass ends its type before its brace. -/
theorem literalHere_lt (hm : s.IsMatched) {o : Outline} {l : CompositeLiteral} {lbrace rbrace : Nat}
    {ds : List Diagnostic} (h : literalHere s o = some (l, lbrace, rbrace, ds)) :
    o.index < lbrace ∧ lbrace < rbrace := by
  obtain ⟨type, hr, -, -, hc, -⟩ := literalHere_eq_some.mp h
  exact ⟨(readType_reads hm).lt hr, (hm.closer_spec hc).1⟩

theorem lt_bodyEnd (hm : s.IsMatched) (i : Nat) : i < bodyEnd s i := by
  unfold bodyEnd
  split
  · have := hm.lt_skipGroup (show i + 1 < i + 2 by omega)
    omega
  · exact Nat.lt_succ_self i

theorem lt_nextIndex (hm : s.IsMatched) (t : Token) (o : Outline) : o.index < nextIndex s t o := by
  unfold nextIndex
  split
  · split
    · omega
    · omega
  · exact readImports_lt hm ⟨o.index, o.diagnostics⟩
  · split
    · exact readTypes_lt hm _ ⟨o.index, o.diagnostics⟩
    · omega
  · exact readConsts_lt hm _ ⟨o.index, o.diagnostics⟩
  · exact lt_bodyEnd hm o.index
  · exact lt_bodyEnd hm o.index
  · omega

theorem stepOther_lt (hm : s.IsMatched) (t : Token) (o : Outline) :
    o.index < (stepOther s t o).index := by
  rw [(stepOther_isNext s t o).index]
  exact lt_nextIndex hm t o

/-- Every step passes a token. -/
theorem step_lt (hm : s.IsMatched) (t : Token) (o : Outline) : o.index < (step s t o).index := by
  rw [step_eq]
  split
  · rcases stepLiteral_eq s (stepOther s t) o with ⟨l, lb, rb, ds, h, he⟩ | ⟨-, he⟩
    · rw [he]
      exact Nat.lt_succ_of_lt (literalHere_lt hm h).1
    · rw [he]
      exact stepOther_lt hm t o
  · exact stepOther_lt hm t o

/-! ## The whole pass -/

theorem run_past {fuel : Nat} {o : Outline} (h : s.size ≤ o.index) : run s fuel o = o := by
  cases fuel with
  | zero => rfl
  | succ fuel => rw [run, Array.getElem?_eq_none h]

theorem run_add (m n : Nat) (o : Outline) : run s (m + n) o = run s n (run s m o) := by
  induction m generalizing o with
  | zero => rw [Nat.zero_add, run]
  | succ m ih =>
    rw [Nat.succ_add, run, run]
    cases ht : s.tokens[o.index]? with
    | none => rw [run_past (Array.getElem?_eq_none_iff.mp ht)]
    | some t => exact ih (step s t o)

/-- More steps than tokens make no difference. -/
theorem run_eq_run (hm : s.IsMatched) {fuel fuel' : Nat} {o : Outline} (h : s.size ≤ o.index + fuel)
    (h' : s.size ≤ o.index + fuel') : run s fuel o = run s fuel' o := by
  induction fuel generalizing fuel' o with
  | zero => rw [run_past (by omega), run_past (by omega)]
  | succ fuel ih =>
    cases fuel' with
    | zero => rw [run_past (by omega), run_past (by omega)]
    | succ fuel' =>
      rw [run, run]
      cases s.tokens[o.index]? with
      | none => rfl
      | some t =>
        have hlt := step_lt hm t o
        exact ih (by omega) (by omega)

/-- The pass from here to the end of the tokens. -/
def finish (s : Lexed) (o : Outline) : Outline := run s s.size o

theorem finish_step (hm : s.IsMatched) {o : Outline} {t : Token} (ht : s.tokens[o.index]? = some t) :
    finish s o = finish s (step s t o) := by
  have hlt := step_lt hm t o
  unfold finish
  rw [@run_eq_run s hm s.size (s.size + 1) o (by omega) (by omega), run, ht]

theorem finish_end {o : Outline} (h : s.size ≤ o.index) : finish s o = o := run_past h

/-- The literals that the rest of the pass records begin at its place or further on. -/
theorem finish_literals (hm : s.IsMatched) (o : Outline) :
    ∃ new, (finish s o).literals = o.literals ++ new ∧
      ∀ l ∈ new, ∃ i, o.index ≤ i ∧ i < s.size ∧ l.typeSpan.start = s.startAt i := by
  induction hk : s.size - o.index using Nat.strongRecOn generalizing o with
  | ind k ih =>
    cases ht : s.tokens[o.index]? with
    | none =>
      have hle : s.size ≤ o.index := Array.getElem?_eq_none_iff.mp ht
      exact ⟨[], by rw [finish_end hle, List.append_nil], by simp⟩
    | some t =>
      have hlt := step_lt hm t o
      have hsize : o.index < s.size := (Array.getElem?_eq_some_iff.mp ht).1
      obtain ⟨new, hnew, hbegin⟩ := ih _ (by omega) (step s t o) rfl
      refine ⟨recorded s t o ++ new, ?_, ?_⟩
      · rw [finish_step hm ht, hnew, step_literals_eq, List.append_assoc]
      · intro l hl
        rcases List.mem_append.mp hl with hl | hl
        · exact ⟨o.index, Nat.le_refl _, hsize, recorded_start hl⟩
        · obtain ⟨i, hi, hi', hstart⟩ := hbegin l hl
          exact ⟨i, by omega, hi', hstart⟩

/-- Where no literal can begin none is recorded. -/
theorem finish_literals_of_none (hm : s.IsMatched) {o : Outline}
    (h : ∀ i, o.index ≤ i → ∀ k, s.kindAt i = some k → beginsLiteral k = false) :
    (finish s o).literals = o.literals := by
  induction hk : s.size - o.index using Nat.strongRecOn generalizing o with
  | ind k ih =>
    cases ht : s.tokens[o.index]? with
    | none => rw [finish_end (Array.getElem?_eq_none_iff.mp ht)]
    | some t =>
      have hlt := step_lt hm t o
      have hsize : o.index < s.size := (Array.getElem?_eq_some_iff.mp ht).1
      have hb := h o.index (Nat.le_refl _) t.kind (by simp [Lexed.kindAt, ht])
      rw [finish_step hm ht, ih _ (by omega) (fun i hi => h i (by omega)) rfl, step_literals_eq,
        recorded, hb]
      simp

end Outline

/-- The literals of a file are those that the whole pass records. -/
theorem parse_literals (text : List Char) : (SourceFile.parse text).literals =
    (Outline.finish (Lexed.ofText text).1 (Outline.start (Lexed.ofText text).2)).literals := rfl

namespace Outline

/-! ## The same course in two texts -/

/-- The pass stands at corresponding places in two texts, with the same headers and literals around. -/
structure Tracks (A : Alignment s s') (o o' : Outline) : Prop where
  index : A.pairs o.index o'.index
  depth : o'.depth = o.depth
  headers : o'.headers = o.headers
  openLiterals : List.Forall₂ A.pairs o.openLiterals o'.openLiterals

section

variable {A : Alignment s s'} (hm : s.IsMatched) {o o' : Outline} (h : Tracks A o o')

include h in
theorem Tracks.level : o'.level = o.level := h.openLiterals.length_eq.symm

include h in
theorem Tracks.headerHere : o'.headerHere = o.headerHere := by
  unfold Outline.headerHere
  rw [h.headers, h.depth, h.level]

include h in
theorem Tracks.endsLiteral : o'.endsLiteral = o.endsLiteral := by
  unfold Outline.endsLiteral
  have hopen := h.openLiterals
  generalize o.openLiterals = xs at hopen
  generalize o'.openLiterals = xs' at hopen
  cases hopen with
  | nil => rfl
  | cons hx _ =>
    have := A.eq hx h.index
    simp [this]

theorem bodyEnd_follows (hm : s.IsMatched) {i i' : Nat} (hi : A.pairs i i') {w : Keyword}
    (hk : s.kindAt i = some (.keyword w)) :
    A.pairs (bodyEnd s i) (bodyEnd s' i') ∨ A.lost (bodyEnd s i) := by
  have h1 := A.next_of_kind hi hk (by simp)
  unfold bodyEnd
  rw [A.kind h1]
  split
  · unfold Lexed.skipGroup
    cases hc : s.closerOf (i + 1) with
    | none =>
      rw [A.close_none h1 hc]
      exact A.enter h1
    | some c =>
      obtain ⟨c', hc', -, hafter⟩ := A.after_close hm h1 hc
      rw [hc']
      exact .inl hafter
  · exact .inl h1

theorem declaresType_alike {i i' : Nat} (hi : A.pairs i i')
    (hk : s.kindAt i = some (.keyword .typeWord)) : declaresType s' i' = declaresType s i := by
  have h1 := A.next_of_kind hi hk (by decide)
  obtain ⟨hzero, hbefore⟩ := A.before hi hk
  unfold declaresType
  rw [A.kind h1, hbefore]
  simp only [hzero]

include hm h in
theorem nextIndex_follows (hm' : s'.IsMatched) {t t' : Token} (ht : s.tokens[o.index]? = some t)
    (hkind : t'.kind = t.kind) :
    A.pairs (nextIndex s t o) (nextIndex s' t' o') ∨ A.lost (nextIndex s t o) := by
  have hi := h.index
  have hk : s.kindAt o.index = some t.kind := by simp [Lexed.kindAt, ht]
  have hsucc : A.pairs (o.index + 1) (o'.index + 1) ∨ A.lost (o.index + 1) := A.enter hi
  obtain ⟨kind, start, text⟩ := t
  obtain ⟨kind', start', text'⟩ := t'
  simp only at hkind hk
  subst hkind
  cases kind' with
  | keyword w =>
    cases w with
    | packageWord =>
      have h1 := A.next_of_kind hi hk (by decide)
      unfold nextIndex
      simp only [A.kind h1]
      by_cases hident : s.kindAt (o.index + 1) = some .ident
      · simp only [hident, ↓reduceIte]
        exact .inl (A.next_of_kind h1 hident (by decide))
      · simp only [hident, ↓reduceIte]
        exact .inl h1
    | importWord => exact Alignment.readImports_follows hm (c := ⟨o.index, _⟩) hi hk
    | typeWord =>
      unfold nextIndex
      simp only [declaresType_alike hi hk]
      split
      · exact Alignment.readTypes_follows hm hm' (c := ⟨o.index, _⟩) hi hk
      · exact hsucc
    | constWord => exact Alignment.readConsts_follows hm (c := ⟨o.index, _⟩) hi hk
    | structWord => exact bodyEnd_follows hm hi hk
    | interfaceWord => exact bodyEnd_follows hm hi hk
    | _ => exact hsucc
  | _ => exact hsucc

omit h in
include hm in
/-- Where the pass goes on depends on its place alone. -/
theorem nextIndex_at {o : Outline} {t : Token} (ht : s.tokens[o.index]? = some t) :
    nextIndex s t o = nextIndex s t (.at o.index) := by
  have hsame : Tracks (.refl s) { Outline.at o.index with
      bodies := o.bodies, diagnostics := o.diagnostics } (.at o.index) := ⟨rfl, rfl, rfl, .nil⟩
  exact (nextIndex_follows hm hsame hm ht rfl).resolve_right id

include hm h in
/-- Steps that record no literal keep to the same course. -/
theorem Tracks.next (hm' : s'.IsMatched) {t t' : Token} {p p' : Outline}
    (ht : s.tokens[o.index]? = some t) (hkind : t'.kind = t.kind)
    (himplied : t'.isImplied = t.isImplied) (hp : IsNext s t o p) (hp' : IsNext s' t' o' p') :
    Tracks A p p' ∨ A.lost p.index := by
  have hfollows := nextIndex_follows hm h hm' ht hkind
  rw [← hp.index, ← hp'.index] at hfollows
  rcases hfollows with hindex | hlost
  · refine .inl ⟨hindex, ?_, ?_, ?_⟩
    · rw [hp.depth, hp'.depth, nextDepth, nextDepth, hkind, h.depth]
    · rw [hp.headers, hp'.headers]
      unfold nextHeaders
      rw [hkind, himplied, h.headers, h.depth, h.level, h.headerHere, h.endsLiteral]
    · rw [hp.openLiterals, hp'.openLiterals]
      unfold nextOpen
      rw [hkind, h.endsLiteral]
      have hopen := h.openLiterals
      split
      · split
        · generalize o.openLiterals = xs at hopen
          generalize o'.openLiterals = xs' at hopen
          cases hopen with
          | nil => exact .nil
          | cons _ hrest => exact hrest
        · exact hopen
      · exact hopen
  · exact .inr hlost

include h in
theorem Tracks.isBlock {type type' : TypeExpr} (hname : type'.isName = type.isName) :
    o'.isBlock type' = o.isBlock type := by
  unfold Outline.isBlock
  rw [h.headerHere, hname]

/-- A literal that begins at corresponding places of two texts. -/
structure SameLiteral (A : Alignment s s') (o o' : Outline)
    (e e' : CompositeLiteral × Nat × Nat × List Diagnostic) : Prop where
  lbrace : A.pairs e.2.1 e'.2.1
  rbrace : A.pairs e.2.2.1 e'.2.2.1
  type : A.sameType e.2.1 e.1.type e'.1.type
  close : s.closerOf e.2.1 = some e.2.2.1
  before : o.index < e.2.1
  literal : e.1 = literalAt s e.1.type o.index e.2.1 e.2.2.1
  literal' : e'.1 = literalAt s' e'.1.type o'.index e'.2.1 e'.2.2.1

include hm h in
theorem literalHere_alike (hm' : s'.IsMatched) :
    literalHere s o = none ∧ literalHere s' o' = none ∨
      ∃ e e', literalHere s o = some e ∧ literalHere s' o' = some e' ∧ SameLiteral A o o' e e' := by
  have hlike := Alignment.readType_alike hm hm' ⟨o.index, o.diagnostics⟩ ⟨o'.index, o'.diagnostics⟩
    h.index
  generalize hr : readType s ⟨o.index, o.diagnostics⟩ = r at hlike
  generalize hr' : readType s' ⟨o'.index, o'.diagnostics⟩ = r' at hlike
  have hnone : (∀ l lb rb ds, literalHere s o ≠ some (l, lb, rb, ds)) →
      (∀ l lb rb ds, literalHere s' o' ≠ some (l, lb, rb, ds)) →
      literalHere s o = none ∧ literalHere s' o' = none := fun hn hn' =>
    ⟨Option.eq_none_iff_forall_ne_some.mpr fun e => hn e.1 e.2.1 e.2.2.1 e.2.2.2,
      Option.eq_none_iff_forall_ne_some.mpr fun e => hn' e.1 e.2.1 e.2.2.1 e.2.2.2⟩
  cases hlike with
  | failed _ =>
    refine .inl (hnone ?_ ?_)
    · intro l lb rb ds he
      obtain ⟨type, hread, -⟩ := literalHere_eq_some.mp he
      rw [hr] at hread
      cases hread
    · intro l lb rb ds he
      obtain ⟨type, hread, -⟩ := literalHere_eq_some.mp he
      rw [hr'] at hread
      cases hread
  | @gave d d' type type' hd htype =>
    have hlt := (readType_reads hm).lt hr
    have hblock := h.isBlock htype.1
    by_cases hbegins : s.kindAt d.index = some (.opener .brace) ∧ o.isBlock type = false ∧
        (s.closerOf d.index).isSome
    · obtain ⟨hk, hb, hc⟩ := hbegins
      obtain ⟨rb, hrb⟩ := Option.isSome_iff_exists.mp hc
      obtain ⟨rb', hrb', hpair, -⟩ := A.after_close hm hd hrb
      have he := literalHere_eq_some.mpr ⟨type, hr, hk, hb, hrb, rfl⟩
      have he' := literalHere_eq_some.mpr
        ⟨type', hr', (A.kind hd).trans hk, hblock.trans hb, hrb', rfl⟩
      exact .inr ⟨_, _, he, he', hd, hpair, htype, hrb, hlt, rfl, rfl⟩
    · refine .inl (hnone ?_ ?_)
      · intro l lb rb ds he
        obtain ⟨type₁, hread, hk, hb, hc, -⟩ := literalHere_eq_some.mp he
        rw [hr] at hread
        cases hread
        exact hbegins ⟨hk, hb, by rw [hc]; rfl⟩
      · intro l lb rb ds he
        obtain ⟨type₁, hread, hk, hb, hc, -⟩ := literalHere_eq_some.mp he
        rw [hr'] at hread
        cases hread
        refine hbegins ⟨(A.kind hd).symm.trans hk, hblock.symm.trans hb, ?_⟩
        rcases A.close hd with ⟨-, hn⟩ | ⟨c, c', hs, -, -⟩
        · rw [hc] at hn
          cases hn
        · rw [hs]
          rfl

include hm h in
/-- One step in both texts: the same course, and a literal in both or in none. -/
theorem step_tracks (hm' : s'.IsMatched) {t t' : Token} (ht : s.tokens[o.index]? = some t)
    (hkind : t'.kind = t.kind) (himplied : t'.isImplied = t.isImplied) :
    (Tracks A (step s t o) (step s' t' o') ∨ A.lost (step s t o).index) ∧
      (recorded s t o = [] ∧ recorded s' t' o' = [] ∨
        ∃ e e', recorded s t o = [e.1] ∧ recorded s' t' o' = [e'.1] ∧ SameLiteral A o o' e e' ∧
          (step s t o).index = e.2.1 + 1) := by
  have hother := h.next hm hm' ht hkind himplied (stepOther_isNext s t o) (stepOther_isNext s' t' o')
  rw [step_eq, step_eq, recorded, recorded, hkind]
  by_cases hb : beginsLiteral t.kind
  · simp only [hb, ↓reduceIte, stepLiteral]
    rcases literalHere_alike hm h hm' with ⟨hn, hn'⟩ | ⟨e, e', he, he', hsame⟩
    · rw [hn, hn']
      exact ⟨hother, .inl ⟨rfl, rfl⟩⟩
    · rw [he, he']
      refine ⟨?_, .inr ⟨e, e', rfl, rfl, hsame, rfl⟩⟩
      rcases A.enter hsame.lbrace with hnext | hlost
      · exact .inl ⟨hnext, h.depth, h.headers, .cons hsame.rbrace h.openLiterals⟩
      · exact .inr hlost
  · simp only [hb, ↓reduceIte, Bool.false_eq_true]
    exact ⟨hother, .inl ⟨trivial, trivial⟩⟩

end

end Outline

end LiteralFill
