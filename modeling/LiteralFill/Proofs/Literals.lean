import LiteralFill.Syntax.Outline

/-!
Where the literals of a file come from: each was recorded by one step of the pass over the tokens, at a
type before a brace that begins no block.
-/

namespace LiteralFill

namespace Outline

/-- A type that ends before a brace is not that of a literal when the brace begins a block. -/
def isBlock (o : Outline) (type : TypeExpr) : Bool :=
  match o.headerHere with
  | some h => h.isFunc || type.isName
  | none => false

/-- The literal of a type before a brace. -/
def literalAt (s : Lexed) (type : TypeExpr) (first lbrace rbrace : Nat) : CompositeLiteral :=
  ⟨type, ⟨s.startAt first, s.stopBefore lbrace⟩, s.startAt lbrace, s.startAt rbrace,
    (splitElements s lbrace rbrace).1, (splitElements s lbrace rbrace).2⟩

theorem literalHere_of_type {s : Lexed} {o : Outline} {type : TypeExpr} {c : Cursor}
    (h : readType s ⟨o.index, o.diagnostics⟩ = (some type, c)) :
    literalHere s o = if s.kindAt c.index = some (.opener .brace) ∧ o.isBlock type = false then
      (s.closerOf c.index).map fun rbrace =>
        (literalAt s type o.index c.index rbrace, c.index, rbrace, c.diagnostics)
    else none := by
  unfold literalHere
  rw [h]
  show (if (decide (s.kindAt c.index = some (.opener .brace)) && !o.isBlock type) = true then _ else _) = _
  by_cases hk : s.kindAt c.index = some (.opener .brace) ∧ o.isBlock type = false
  · rw [if_pos hk, if_pos (by simpa using hk)]
    cases s.closerOf c.index <;> rfl
  · rw [if_neg hk, if_neg (by simpa using hk)]

/-- When a literal begins at the place of the pass. -/
theorem literalHere_eq_some {s : Lexed} {o : Outline} {l : CompositeLiteral} {lbrace rbrace : Nat}
    {ds : List Diagnostic} :
    literalHere s o = some (l, lbrace, rbrace, ds) ↔
      ∃ type, readType s ⟨o.index, o.diagnostics⟩ = (some type, ⟨lbrace, ds⟩) ∧
        s.kindAt lbrace = some (.opener .brace) ∧ o.isBlock type = false ∧
        s.closerOf lbrace = some rbrace ∧ l = literalAt s type o.index lbrace rbrace := by
  rcases hr : readType s ⟨o.index, o.diagnostics⟩ with ⟨result, c⟩
  cases result with
  | none =>
    unfold literalHere
    simp [hr]
  | some type =>
    rw [literalHere_of_type hr]
    constructor
    · intro h
      split at h
      · next hk =>
        obtain ⟨rb, hc, he⟩ := Option.map_eq_some_iff.mp h
        simp only [Prod.mk.injEq] at he
        obtain ⟨rfl, rfl, rfl, rfl⟩ := he
        exact ⟨type, rfl, hk.1, hk.2, hc, rfl⟩
      · cases h
    · rintro ⟨type', he, hk, hb, hc, rfl⟩
      obtain ⟨⟨⟩, rfl⟩ := Prod.mk.inj he
      rw [if_pos ⟨hk, hb⟩, hc, Option.map_some]

theorem stepLiteral_eq (s : Lexed) (otherwise : Outline → Outline) (o : Outline) :
    (∃ l lbrace rbrace ds, literalHere s o = some (l, lbrace, rbrace, ds) ∧
      stepLiteral s otherwise o =
        { o with
          index := lbrace + 1
          openLiterals := rbrace :: o.openLiterals
          literals := o.literals ++ [l]
          diagnostics := ds }) ∨
    (literalHere s o = none ∧ stepLiteral s otherwise o = otherwise o) := by
  unfold stepLiteral
  cases h : literalHere s o with
  | none => exact .inr ⟨rfl, rfl⟩
  | some e =>
    obtain ⟨l, lbrace, rbrace, ds⟩ := e
    exact .inl ⟨l, lbrace, rbrace, ds, rfl, rfl⟩

/-- A step that records no literal leaves the literals alone. -/
theorem step_literals (s : Lexed) (t : Token) (o : Outline) :
    (step s t o).literals = o.literals ∨
      ∃ l lbrace rbrace ds, literalHere s o = some (l, lbrace, rbrace, ds) ∧
        (step s t o).literals = o.literals ++ [l] := by
  have hlit : ∀ otherwise : Outline → Outline, (otherwise o).literals = o.literals →
      (stepLiteral s otherwise o).literals = o.literals ∨
        ∃ l lbrace rbrace ds, literalHere s o = some (l, lbrace, rbrace, ds) ∧
          (stepLiteral s otherwise o).literals = o.literals ++ [l] := by
    intro otherwise hsame
    rcases stepLiteral_eq s otherwise o with ⟨l, lb, rb, ds, h, he⟩ | ⟨-, he⟩
    · exact .inr ⟨l, lb, rb, ds, h, by rw [he]⟩
    · exact .inl (by rw [he, hsame])
  have hbody : (stepTypeBody s o).literals = o.literals := by
    unfold stepTypeBody
    simp only
    split <;> rfl
  unfold step
  split
  case h_1 => left; unfold stepPackage; simp only; split <;> rfl
  case h_3 => left; split <;> rfl
  case h_11 => exact hlit _ rfl
  case h_15 => left; unfold stepOpenBrace; cases o.headerHere with
    | none => rfl
    | some h => simp only; split <;> rfl
  case h_16 => left; unfold stepCloseBrace; simp only; split <;> (try split) <;> rfl
  case h_17 => exact hlit _ rfl
  case h_18 => exact hlit _ rfl
  case h_19 => exact hlit _ hbody
  case h_20 => exact .inl hbody
  all_goals exact .inl rfl

theorem run_literals {s : Lexed} {fuel : Nat} {o : Outline} {l : CompositeLiteral}
    (h : l ∈ (run s fuel o).literals) :
    l ∈ o.literals ∨ ∃ o' lbrace rbrace ds, literalHere s o' = some (l, lbrace, rbrace, ds) := by
  induction fuel generalizing o with
  | zero => exact .inl h
  | succ fuel ih =>
    rw [run] at h
    cases ht : s.tokens[o.index]? with
    | none => rw [ht] at h; exact .inl h
    | some t =>
      rw [ht] at h
      rcases ih h with h | h
      · rcases step_literals s t o with he | ⟨l', lb, rb, ds, hl, he⟩
        · exact .inl (he ▸ h)
        · rw [he, List.mem_append, List.mem_singleton] at h
          rcases h with h | rfl
          · exact .inl h
          · exact .inr ⟨o, lb, rb, ds, hl⟩
      · exact .inr h

end Outline

/-- Each literal of a file begins somewhere on the pass over its tokens. -/
theorem exists_literalHere {text : List Char} {l : CompositeLiteral}
    (h : l ∈ (SourceFile.parse text).literals) :
    ∃ o lbrace rbrace ds,
      Outline.literalHere (Lexed.ofText text).1 o = some (l, lbrace, rbrace, ds) := by
  rcases Outline.run_literals h with h | h
  · simp [Outline.start] at h
  · exact h

end LiteralFill
