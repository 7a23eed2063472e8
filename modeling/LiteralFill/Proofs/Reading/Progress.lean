import LiteralFill.Proofs.Reading.Items
import LiteralFill.Proofs.Reading.Reader

/-!
Reading a type moves forward. When it succeeds it has passed the tokens of a type, the last of which is a
name or a closing bracket; when it gives up it has at least not gone back.
-/

namespace LiteralFill

open Reader

/-- The token before an index may be the last one of a type. -/
def Lexed.endsType (s : Lexed) (j : Nat) : Prop :=
  s.kindAt (j - 1) = some .ident ∨ ∃ b, s.kindAt (j - 1) = some (.closer b)

/-- A reading from an index on that does not go back, and passes a type if it gives something. -/
def Reads {α : Type} (s : Lexed) (i : Nat) (r : Option α × Cursor) : Prop :=
  i ≤ r.2.index ∧ (r.1.isSome → i < r.2.index ∧ Items s i r.2.index ∧ s.endsType r.2.index)

/-- Whatever this reader reads it reads as a type. -/
def ReadsTypes (s : Lexed) (inner : Reader TypeExpr) : Prop := ∀ c, Reads s c.index (inner c)

theorem ReadsTypes.at {s : Lexed} {inner : Reader TypeExpr} (h : ReadsTypes s inner) (i : Nat)
    (ds : List Diagnostic) : Reads s i (inner ⟨i, ds⟩) := h ⟨i, ds⟩

theorem ReadsTypes.lt {s : Lexed} {inner : Reader TypeExpr} (h : ReadsTypes s inner) {c d : Cursor}
    {t : TypeExpr} (hr : inner c = (some t, d)) : c.index < d.index := by
  have hread := h c
  rw [hr] at hread
  exact (hread.2 rfl).1

namespace Reads

variable {s : Lexed} {α β : Type} {i j : Nat}

theorem none {c : Cursor} (h : i ≤ c.index) : Reads s i ((none, c) : Option α × Cursor) :=
  ⟨h, by simp⟩

theorem some {c : Cursor} (a : α) (hlt : i < c.index) (hi : Items s i c.index)
    (he : s.endsType c.index) : Reads s i (some a, c) :=
  ⟨Nat.le_of_lt hlt, fun _ => ⟨hlt, hi, he⟩⟩

/-- Tokens of a type in front of what is read. -/
theorem after (hm : s.IsMatched) {r : Option α × Cursor} (hi : Items s i j) (h : Reads s j r) :
    Reads s i r := by
  have hle := hi.le hm
  refine ⟨Nat.le_trans hle h.1, fun hr => ?_⟩
  obtain ⟨hlt, hitems, hend⟩ := h.2 hr
  exact ⟨by omega, hi.append hitems, hend⟩

/-- What is made of the thing that was read does not matter. -/
theorem map {r : Reader α} {c : Cursor} (f : α → β) (h : Reads s i (r c)) :
    Reads s i ((r >>= fun a => give (f a)) c) := by
  rw [bind_apply]
  rcases hr : r c with ⟨result, c'⟩
  rw [hr] at h
  cases result with
  | none => exact none h.1
  | some a =>
    obtain ⟨hlt, hitems, hend⟩ := h.2 rfl
    exact some _ hlt hitems hend

end Reads

/-! ## Type arguments -/

section

variable {s : Lexed} (hm : s.IsMatched) {inner : Reader TypeExpr} (hinner : ReadsTypes s inner)

theorem readArgs_index {close fuel : Nat} {args : List TypeExpr} {c : Cursor}
    (h : (readArgs s inner close fuel args c).1.isSome) :
    (readArgs s inner close fuel args c).2.index = close + 1 := by
  induction fuel generalizing args c with
  | zero => cases h
  | succ fuel ih =>
    rw [readArgs, bind_apply] at h ⊢
    rcases hr : inner c with ⟨result, c'⟩
    rw [hr] at h
    cases result with
    | none => cases h
    | some arg =>
      simp only [eat_bind] at h ⊢
      by_cases hk : s.kindAt c'.index = some .comma
      · simp only [hk, ↓reduceIte] at h ⊢
        exact ih h
      · simp only [hk, ↓reduceIte, Bool.false_eq_true, index_bind] at h ⊢
        by_cases hc : c'.index = close
        · simp [hc]
        · simp [hc] at h

/-- Arguments are read as a whole or not at all. -/
theorem readTypeArgs_spec (c : Cursor) :
    ∃ args c', readTypeArgs s inner c = (some args, c') ∧
      (c'.index = c.index ∨
        s.kindAt c.index = some (.opener .square) ∧ ∃ close, s.closerOf c.index = some close ∧
          c'.index = close + 1) := by
  rw [readTypeArgs, index_bind]
  split
  case isFalse => exact ⟨[], c, rfl, .inl rfl⟩
  case isTrue h =>
    have hk : s.kindAt c.index = some (.opener .square) := by
      simp only [Bool.and_eq_true, decide_eq_true_eq] at h
      exact h.1
    cases hc : s.closerOf c.index with
    | none => exact ⟨[], c, rfl, .inl rfl⟩
    | some close =>
      simp only [skip_bind, optional_bind]
      have hindex := @readArgs_index s inner close (close - c.index) []
        ⟨c.index + 1, c.diagnostics⟩
      rcases hr : readArgs s inner close (close - c.index) [] ⟨c.index + 1, c.diagnostics⟩ with
        ⟨result, c'⟩
      rw [hr] at hindex
      cases result with
      | none => exact ⟨[], ⟨c.index, c'.diagnostics⟩, rfl, .inl rfl⟩
      | some args => exact ⟨args, c', rfl, .inr ⟨hk, close, rfl, hindex rfl⟩⟩

/-! ## Struct types -/

theorem readTag_some (rbrace : Nat) (c : Cursor) :
    ∃ tag c', readTag s rbrace c = (some tag, c') := by
  rw [readTag, index_bind]
  split
  · exact ⟨_, _, rfl⟩
  · exact ⟨_, _, rfl⟩

theorem readField_some (rbrace : Nat) (c : Cursor) :
    ∃ field c', readField s inner rbrace c = (some field, c') := by
  rw [readField, index_bind, optional_bind]
  rcases readFieldHead s inner rbrace c with ⟨result, c₁⟩
  cases result with
  | none => exact ⟨_, _, rfl⟩
  | some head =>
    obtain ⟨tag, c₂, htag⟩ := @readTag_some s rbrace c₁
    simp only [bind_some htag, index_bind]
    split
    · rw [eat_bind]
      split
      · exact ⟨_, _, rfl⟩
      · exact ⟨_, _, rfl⟩
    · exact ⟨_, _, rfl⟩

/-- However broken the lines of a struct type are, reading them does not give up. -/
theorem readFields_some (rbrace fuel : Nat) (fields : List (FieldDecl TypeExpr)) (c : Cursor) :
    ∃ fields' c', readFields s inner rbrace fuel fields c = (some fields', c') := by
  induction fuel generalizing fields c with
  | zero => exact ⟨_, _, rfl⟩
  | succ fuel ih =>
    rw [readFields, index_bind]
    split
    · rw [eat_bind]
      split
      · exact ih _ _
      · obtain ⟨field, c', hfield⟩ := @readField_some s inner rbrace c
        simp only [Bool.false_eq_true, ↓reduceIte, bind_some hfield]
        cases field with
        | none => exact ih _ _
        | some field => exact ih _ _
    · exact ⟨_, _, rfl⟩

/-! ## The forms of types -/

/-- What a type begins with says how it is read. -/
theorem readForm_eq (c : Cursor) :
    readForm s inner c =
      match s.kindAt c.index with
      | some .ident => readNamed s inner c
      | some .star => (inner >>= fun t => give (.pointer t)) ⟨c.index + 1, c.diagnostics⟩
      | some (.opener .square) => readSequence s inner c
      | some (.keyword .mapWord) => readMap s inner c
      | some (.keyword .chanWord) => readChan s inner c
      | some .arrow =>
        if s.kindAt (c.index + 1) = some (.keyword .chanWord) then
          (inner >>= fun t => give (.chan .receive t)) ⟨c.index + 2, c.diagnostics⟩
        else (none, c)
      | some (.keyword .funcWord) => readFunc s inner c
      | some (.keyword .structWord) => readStruct s inner c
      | some (.keyword .interfaceWord) => readInterface s c
      | some (.opener .paren) => readParenthesized s inner c
      | _ => (none, c) := by
  rw [readForm, peek_bind]
  cases s.kindAt c.index with
  | none => rfl
  | some kind =>
    cases kind with
    | opener b => cases b <;> rfl
    | keyword w => cases w <;> rfl
    | arrow =>
      simp only [peekAt_bind]
      split <;> rfl
    | _ => rfl

include hm

theorem reads_args {i : Nat} {f : List TypeExpr → TypeExpr} {c : Cursor} (hi : Items s i c.index)
    (hlt : i < c.index) (he : s.endsType c.index) :
    Reads s i ((readTypeArgs s inner >>= fun args => give (f args)) c) := by
  obtain ⟨args, c', hr, hc⟩ := @readTypeArgs_spec s inner c
  rw [bind_some hr, give_apply]
  rcases hc with hc | ⟨hk, close, hclose, hc⟩
  · rw [← hc] at hi hlt he
    exact .some _ hlt hi he
  · obtain ⟨hle, -, b, -, hk'⟩ := hm.closer_spec hclose
    have hgroup : Items s c.index (close + 1) := .group hk (by simp) hclose (.none _)
    refine .some _ (by omega) (hi.append (hc ▸ hgroup)) (.inr ⟨b, ?_⟩)
    rw [hc, Nat.add_sub_cancel, hk']

theorem readNamed_reads {c : Cursor} (hk : s.kindAt c.index = some .ident) :
    Reads s c.index (readNamed s inner c) := by
  rw [readNamed, index_bind]
  split
  case isTrue h =>
    simp only [Bool.and_eq_true, decide_eq_true_eq] at h
    have h3 : Items s c.index (c.index + 3) :=
      .plain hk rfl (.plain h.1 rfl (.single h.2 rfl))
    exact reads_args hm h3 (by simp) (.inl h.2)
  case isFalse => exact reads_args hm (.single hk rfl) (by simp) (.inl hk)

theorem readInterface_reads {c : Cursor} (hk : s.kindAt c.index = some (.keyword .interfaceWord)) :
    Reads s c.index (readInterface s c) := by
  rw [readInterface, index_bind, skip_bind]
  by_cases hb : s.kindAt (c.index + 1) = some (.opener .brace)
  · simp only [hb, ↓reduceIte, skipBrackets_bind]
    cases hclose : s.closerOf (c.index + 1) with
    | none => exact .none (by simp)
    | some close =>
      obtain ⟨hlt, -, b, -, hk'⟩ := hm.closer_spec hclose
      exact .some _ (by simp; omega) (.body hk (.inr rfl) hb hclose (.none _)) (.inr ⟨b, hk'⟩)
  · simp only [hb, ↓reduceIte]
    exact .none (by simp)

theorem readStruct_reads {c : Cursor} (hk : s.kindAt c.index = some (.keyword .structWord)) :
    Reads s c.index (readStruct s inner c) := by
  rw [readStruct, index_bind, skip_bind]
  by_cases hb : s.kindAt (c.index + 1) = some (.opener .brace)
  · simp only [hb, ↓reduceIte]
    cases hclose : s.closerOf (c.index + 1) with
    | none => exact .none (by simp)
    | some close =>
      obtain ⟨hlt, -, b, -, hk'⟩ := hm.closer_spec hclose
      simp only [require_some_bind, goTo_bind]
      obtain ⟨fields, c', hfields⟩ := @readFields_some s inner close (close - c.index) []
        ⟨c.index + 2, c.diagnostics⟩
      rw [bind_some hfields, goTo_bind]
      exact .some _ (by simp; omega) (.body hk (.inl rfl) hb hclose (.none _)) (.inr ⟨b, hk'⟩)
  · simp only [hb, ↓reduceIte]
    exact .none (by simp)

include hinner

theorem readSequence_reads {c : Cursor} (hk : s.kindAt c.index = some (.opener .square)) :
    Reads s c.index (readSequence s inner c) := by
  rw [readSequence, index_bind]
  by_cases hb : s.kindAt (c.index + 1) = some (.closer .square)
  · simp only [hb, ↓reduceIte, skip_bind]
    have hclose := Items.closerOf_eq hm hk hb (.none _)
    exact ((hinner.at _ _).after hm (.group hk (by simp) hclose (.none _))).map _
  · simp only [hb, ↓reduceIte]
    cases hclose : s.closerOf c.index with
    | none => exact .none (Nat.le_refl _)
    | some close =>
      rw [require_some_bind]
      cases readLength s c.index close with
      | none => exact .none (Nat.le_refl _)
      | some length =>
        exact ((hinner.at _ _).after hm (.group hk (by simp) hclose (.none _))).map _

theorem readMap_reads {c : Cursor} (hk : s.kindAt c.index = some (.keyword .mapWord)) :
    Reads s c.index (readMap s inner c) := by
  rw [readMap, skip_bind, expect_bind]
  by_cases hb : s.kindAt (c.index + 1) = some (.opener .square)
  · simp only [hb, ↓reduceIte]
    have hkey := hinner ⟨c.index + 1 + 1, c.diagnostics⟩
    rw [bind_apply]
    rcases hr : inner ⟨c.index + 1 + 1, c.diagnostics⟩ with ⟨result, c₁⟩
    rw [hr] at hkey
    have hle := hkey.1
    simp only at hle
    cases result with
    | none => exact .none (by omega)
    | some key =>
      obtain ⟨hlt, hitems, -⟩ := hkey.2 rfl
      simp only [expect_bind]
      by_cases hb' : s.kindAt c₁.index = some (.closer .square)
      · simp only [hb', ↓reduceIte]
        have hclose := Items.closerOf_eq hm hb hb' hitems
        exact ((hinner.at _ _).after hm (.plain hk rfl (.group hb (by simp) hclose (.none _)))).map _
      · simp only [hb', ↓reduceIte]
        exact .none (by omega)
  · simp only [hb, ↓reduceIte]
    exact .none (by simp)

theorem readChan_reads {c : Cursor} (hk : s.kindAt c.index = some (.keyword .chanWord)) :
    Reads s c.index (readChan s inner c) := by
  rw [readChan, skip_bind, eat_bind]
  by_cases hb : s.kindAt (c.index + 1) = some .arrow
  · simp only [hb, ↓reduceIte]
    exact ((hinner.at _ _).after hm (.plain hk rfl (.single hb rfl))).map _
  · simp only [hb, ↓reduceIte, Bool.false_eq_true]
    exact ((hinner.at _ _).after hm (.single hk rfl)).map _

omit hm hinner

theorem skipResult_none {c : Cursor} (hk : s.kindAt c.index = none) : skipResult s inner c = (some (), c) := by
  rw [skipResult, index_bind, hk]
  rfl

theorem skipResult_paren {c : Cursor} (hk : s.kindAt c.index = some (.opener .paren)) :
    skipResult s inner c = skipBrackets s c := by
  rw [skipResult, index_bind, hk]

/-- A result without parentheses is read as a type, and left if it is none. -/
theorem skipResult_other {c : Cursor} {kind : TokenKind} (hk : s.kindAt c.index = some kind)
    (hparen : kind ≠ .opener .paren) :
    skipResult s inner c = (some (), if beginsResult kind then
      (inner c).1.elim ⟨c.index, (inner c).2.diagnostics⟩ fun _ => (inner c).2 else c) := by
  rw [skipResult, index_bind, hk]
  by_cases hb : beginsResult kind
  · simp only [hb, ↓reduceIte, optional_bind]
    cases (inner c).1 <;> rfl
  · simp only [hb, Bool.false_eq_true, ↓reduceIte]
    rfl

include hm hinner

/-- The result of a function type is passed over, or nothing is. -/
theorem skipResult_spec (c : Cursor) :
    (skipResult s inner c).2.index = c.index ∨ Reads s c.index (skipResult s inner c) := by
  cases hk : s.kindAt c.index with
  | none => exact .inl (by rw [skipResult_none hk])
  | some kind =>
    by_cases hparen : kind = .opener .paren
    · subst hparen
      rw [skipResult_paren hk, skipBrackets]
      cases hclose : s.closerOf c.index with
      | none => exact .inl rfl
      | some close =>
        obtain ⟨hlt, -, b, -, hk'⟩ := hm.closer_spec hclose
        exact .inr (.some _ (by simp; omega) (.group hk (by simp) hclose (.none _))
          (.inr ⟨b, hk'⟩))
    · rw [skipResult_other hk hparen]
      split
      · have hread := hinner c
        cases hr : (inner c).1 with
        | none => exact .inl rfl
        | some type =>
          obtain ⟨hlt, hitems, hend⟩ := hread.2 (by rw [hr]; rfl)
          exact .inr (.some _ hlt hitems hend)
      · exact .inl rfl

theorem readFunc_reads {c : Cursor} (hk : s.kindAt c.index = some (.keyword .funcWord)) :
    Reads s c.index (readFunc s inner c) := by
  rw [readFunc, index_bind, skip_bind]
  by_cases hb : s.kindAt (c.index + 1) = some (.opener .paren)
  · simp only [hb, ↓reduceIte, skipBrackets_bind]
    cases hclose : s.closerOf (c.index + 1) with
    | none => exact .none (by simp)
    | some close =>
      obtain ⟨hlt, -, b, -, hk'⟩ := hm.closer_spec hclose
      have hparams : Items s c.index (close + 1) :=
        .plain hk rfl (.group hb (by simp) hclose (.none _))
      simp only
      rw [bind_apply]
      have hspec := skipResult_spec hm hinner ⟨close + 1, c.diagnostics⟩
      rcases hr : skipResult s inner ⟨close + 1, c.diagnostics⟩ with ⟨result, c'⟩
      rw [hr] at hspec
      rcases hspec with hsame | hread
      · simp only at hsame
        cases result with
        | none => exact .none (by simp [hsame]; omega)
        | some u =>
          refine .some _ (by simp [hsame]; omega) (hsame ▸ hparams) (.inr ⟨b, ?_⟩)
          simp only [hsame, Nat.add_sub_cancel, hk']
      · have hread' := hread.after hm hparams
        cases result with
        | none => exact .none hread'.1
        | some u =>
          obtain ⟨hlt', hitems, hend⟩ := hread'.2 rfl
          exact .some _ hlt' hitems hend
  · simp only [hb, ↓reduceIte]
    exact .none (by simp)

theorem readParenthesized_reads {c : Cursor} (hk : s.kindAt c.index = some (.opener .paren)) :
    Reads s c.index (readParenthesized s inner c) := by
  rw [readParenthesized, skip_bind]
  have hread := hinner ⟨c.index + 1, c.diagnostics⟩
  rw [bind_apply]
  rcases hr : inner ⟨c.index + 1, c.diagnostics⟩ with ⟨result, c'⟩
  rw [hr] at hread
  have hle := hread.1
  simp only at hle
  cases result with
  | none => exact .none (by omega)
  | some type =>
    obtain ⟨hlt, hitems, -⟩ := hread.2 rfl
    simp only [expect_bind]
    by_cases hb : s.kindAt c'.index = some (.closer .paren)
    · simp only [hb, ↓reduceIte, give_apply]
      have hclose := Items.closerOf_eq hm hk hb hitems
      exact .some _ (by simp; omega) (.group hk (by simp) hclose (.none _)) (.inr ⟨_, hb⟩)
    · simp only [hb, ↓reduceIte]
      exact .none (by omega)

theorem readForm_reads : ReadsTypes s (readForm s inner) := by
  intro c
  rw [readForm_eq]
  split
  case h_1 hk => exact readNamed_reads hm hk
  case h_2 hk => exact ((hinner.at _ _).after hm (.single hk rfl)).map _
  case h_3 hk => exact readSequence_reads hm hinner hk
  case h_4 hk => exact readMap_reads hm hinner hk
  case h_5 hk => exact readChan_reads hm hinner hk
  case h_6 hk =>
    split
    case isTrue hk' => exact ((hinner.at _ _).after hm (.plain hk rfl (.single hk' rfl))).map _
    case isFalse => exact .none (Nat.le_refl _)
  case h_7 hk => exact readFunc_reads hm hinner hk
  case h_8 hk => exact readStruct_reads hm hk
  case h_9 hk => exact readInterface_reads hm hk
  case h_10 hk => exact readParenthesized_reads hm hinner hk
  case h_11 => exact .none (Nat.le_refl _)

omit hinner in
theorem readTypeWithin_reads (depth : Nat) : ReadsTypes s (readTypeWithin s depth) := by
  induction depth with
  | zero => exact fun c => .none (Nat.le_refl _)
  | succ depth ih => exact readForm_reads hm ih

omit hinner in
/-- What the reader of types passes. -/
theorem readType_reads : ReadsTypes s (readType s) := readTypeWithin_reads hm _

omit hm hinner in
/-- A name before a brace is a type of its own. -/
theorem readType_name {c : Cursor} (hk : s.kindAt c.index = some .ident)
    (hb : s.kindAt (c.index + 1) = some (.opener .brace)) :
    readType s c =
      (some (.name none (s.nameAt c.index) []), ⟨c.index + 1, c.diagnostics⟩) := by
  refine (@readForm_eq s (readTypeWithin s s.size) c).trans ?_
  have hargs : readTypeArgs s (readTypeWithin s s.size) ⟨c.index + 1, c.diagnostics⟩ =
      (some [], ⟨c.index + 1, c.diagnostics⟩) := by
    unfold readTypeArgs
    rw [index_bind]
    simp [hb]
  simp [hk, readNamed, hb, bind_some hargs]

end

end LiteralFill
