import LiteralFill.Proofs.Reading.Forms
import LiteralFill.Syntax.DeclarationReader

/-!
Where the readers of declarations stop. They always move forward, and in two texts whose tokens correspond
they stop at corresponding places, unless a broken constant leads them in between.
-/

namespace LiteralFill

open Reader

/-! ## Readers that never give up -/

/-- The reader reads something wherever it starts. -/
def AlwaysGives {α : Type} (r : Reader α) : Prop := ∀ c, ∃ a d, r c = (some a, d)

namespace AlwaysGives

variable {α β : Type} {s : Lexed}

theorem bind {r : Reader α} {f : α → Reader β} (hr : AlwaysGives r) (hf : ∀ a, AlwaysGives (f a)) :
    AlwaysGives (r >>= f) := by
  intro c
  obtain ⟨a, d, h⟩ := hr c
  rw [bind_some h]
  exact hf a d

theorem give (a : α) : AlwaysGives (Reader.give a) := fun c => ⟨a, c, rfl⟩

theorem index : AlwaysGives Reader.index := fun c => ⟨_, c, rfl⟩

theorem goTo (i : Nat) : AlwaysGives (Reader.goTo i) := fun _ => ⟨_, _, rfl⟩

theorem optional (r : Reader α) : AlwaysGives r.optional := fun c => ⟨(r c).1, (r c).2, rfl⟩

theorem recover (limit : Nat) : AlwaysGives (Reader.recover s limit) := fun _ => ⟨_, _, rfl⟩

theorem report (message : String) : AlwaysGives (Reader.report s message) := fun _ => ⟨_, _, rfl⟩

theorem eat (k : TokenKind) : AlwaysGives (Reader.eat s k) := by
  intro c
  unfold Reader.eat
  split
  · exact ⟨_, _, rfl⟩
  · exact ⟨_, _, rfl⟩

end AlwaysGives

section

variable {s : Lexed}

theorem orRecover_gives {α : Type} (limit : Nat) (r : Reader α) : AlwaysGives (orRecover s limit r) := by
  unfold orRecover
  apply (AlwaysGives.optional r).bind
  intro result
  cases result with
  | none => exact (AlwaysGives.recover limit).bind fun _ => .give []
  | some a => exact .give [a]

theorem readConstNames_gives (fuel : Nat) (names : List String) :
    AlwaysGives (readConstNames s fuel names) := by
  induction fuel generalizing names with
  | zero => exact .give names
  | succ fuel ih =>
    unfold readConstNames
    apply AlwaysGives.index.bind
    intro i
    apply (AlwaysGives.eat .ident).bind
    intro isName
    split
    · apply (AlwaysGives.eat .comma).bind
      intro more
      split
      · exact ih _
      · exact .give _
    · exact .give names

theorem readConstValues_gives (limit fuel : Nat) (values : List (Option Nat)) :
    AlwaysGives (readConstValues s limit fuel values) := by
  induction fuel generalizing values with
  | zero => exact .give values
  | succ fuel ih =>
    unfold readConstValues
    apply AlwaysGives.index.bind
    intro i
    apply (AlwaysGives.goTo _).bind
    intro _
    apply (AlwaysGives.eat .comma).bind
    intro more
    split
    · exact ih _
    · exact .give _

theorem readConstSpec_gives (scope : Option Span) (limit : Nat) :
    AlwaysGives (readConstSpec s scope limit) := by
  unfold readConstSpec
  apply AlwaysGives.index.bind
  intro first
  apply (readConstNames_gives _ _).bind
  intro names
  split
  · exact (AlwaysGives.report _).bind fun _ => (AlwaysGives.recover _).bind fun _ => .give []
  · apply AlwaysGives.index.bind
    intro i
    apply (AlwaysGives.goTo _).bind
    intro _
    apply (AlwaysGives.eat .assign).bind
    intro hasValues
    split
    · exact (readConstValues_gives _ _ _).bind fun _ => (AlwaysGives.recover _).bind fun _ => .give _
    · exact (AlwaysGives.give _).bind fun _ => (AlwaysGives.recover _).bind fun _ => .give _

theorem readParams_gives : AlwaysGives (readParams s) := by
  intro c
  rw [readParams, index_bind]
  split
  · exact ⟨_, _, rfl⟩
  · exact ⟨_, _, rfl⟩

theorem readGroup_gives {α : Type} {spec : Nat → Reader (List α)}
    (h : ∀ limit, AlwaysGives (spec limit)) (close fuel : Nat) (found : List α) :
    AlwaysGives (readGroup s spec close fuel found) := by
  induction fuel generalizing found with
  | zero => exact .give found
  | succ fuel ih =>
    unfold readGroup
    apply AlwaysGives.index.bind
    intro i
    split
    · apply (AlwaysGives.eat .semicolon).bind
      intro isEmpty
      split
      · exact ih found
      · exact (h close).bind fun more => ih (found ++ more)
    · exact .give found

/-- A declaration is read up to the end of its group, or as far as its single part goes. -/
theorem readDeclarations_index {α : Type} {spec : Nat → Reader (List α)}
    (h : ∀ limit, AlwaysGives (spec limit)) (c : Cursor) :
    (s.kindAt (c.index + 1) = some (.opener .paren) ∧
        (readDeclarations s spec c).2.index = (s.closerOf (c.index + 1)).getD s.size + 1) ∨
      (s.kindAt (c.index + 1) ≠ some (.opener .paren) ∧
        readDeclarations s spec c = spec s.size ⟨c.index + 1, c.diagnostics⟩) := by
  rw [readDeclarations, index_bind, skip_bind]
  by_cases hk : s.kindAt (c.index + 1) = some (.opener .paren)
  · refine .inl ⟨hk, ?_⟩
    simp only [hk, ↓reduceIte, skip_bind]
    obtain ⟨found, d, hd⟩ := @readGroup_gives s α spec h ((s.closerOf (c.index + 1)).getD s.size)
      ((s.closerOf (c.index + 1)).getD s.size - c.index) [] ⟨c.index + 1 + 1, c.diagnostics⟩
    rw [bind_some hd]
    rfl
  · refine .inr ⟨hk, ?_⟩
    simp only [hk, ↓reduceIte]

end

/-! ## Readers that move forward -/

/-- The reader never goes back. -/
def IsForward {α : Type} (r : Reader α) : Prop := ∀ c, c.index ≤ (r c).2.index

namespace IsForward

variable {α β : Type} {s : Lexed}

theorem bind {r : Reader α} {f : α → Reader β} (hr : IsForward r) (hf : ∀ a, IsForward (f a)) :
    IsForward (r >>= f) := by
  intro c
  have hle := hr c
  rw [bind_apply]
  generalize r c = x at hle
  obtain ⟨result, d⟩ := x
  cases result with
  | none => exact hle
  | some a => exact Nat.le_trans hle (hf a d)

theorem give (a : α) : IsForward (Reader.give a) := fun c => Nat.le_refl c.index

theorem fail : IsForward (Reader.fail : Reader α) := fun c => Nat.le_refl c.index

theorem index : IsForward Reader.index := fun c => Nat.le_refl c.index

theorem skip (n : Nat) : IsForward (Reader.skip n) := fun c => Nat.le_add_right c.index n

theorem optional {r : Reader α} (h : IsForward r) : IsForward r.optional := fun c => h c

theorem report (message : String) : IsForward (Reader.report s message) := fun c => Nat.le_refl c.index

theorem eat (k : TokenKind) : IsForward (Reader.eat s k) := by
  intro c
  unfold Reader.eat
  split
  · exact Nat.le_succ _
  · exact Nat.le_refl _

theorem recover (hm : s.IsMatched) (limit : Nat) : IsForward (Reader.recover s limit) :=
  fun c => le_afterSemicolon hm limit c.index _ c.index

/-- Going on from a place further on. -/
theorem jump {f : Nat → Nat} {k : Nat → Unit → Reader β} (hf : ∀ i, i ≤ f i)
    (hk : ∀ i u, IsForward (k i u)) :
    IsForward (Reader.index >>= fun i => Reader.goTo (f i) >>= k i) := by
  intro c
  rw [index_bind, goTo_bind]
  exact Nat.le_trans (hf c.index) (hk c.index () ⟨f c.index, c.diagnostics⟩)

end IsForward

section

variable {s : Lexed} (hm : s.IsMatched)

theorem le_firstIndex (limit : Nat) (p : TokenKind → Bool) (fuel i : Nat) :
    i ≤ firstIndex s limit p fuel i := by
  induction fuel generalizing i with
  | zero => exact Nat.le_refl _
  | succ fuel ih =>
    unfold firstIndex
    split
    · exact Nat.le_of_succ_le (ih (i + 1))
    · exact Nat.le_refl _

include hm

theorem le_afterValue (limit fuel i : Nat) : i ≤ afterValue s limit fuel i := by
  induction fuel generalizing i with
  | zero => exact Nat.le_refl _
  | succ fuel ih =>
    unfold afterValue
    by_cases hlt : i < limit
    · rw [if_pos hlt]
      split
      · exact Nat.le_refl _
      · exact Nat.le_refl _
      · exact Nat.le_trans (Nat.le_of_lt (hm.lt_skipGroup hlt)) (ih _)
      · exact Nat.le_of_succ_le (ih (i + 1))
    · exact Nat.le_of_eq (if_neg hlt).symm

theorem orRecover_forward {α : Type} (limit : Nat) {r : Reader α} (hr : IsForward r) :
    IsForward (orRecover s limit r) := by
  unfold orRecover
  apply hr.optional.bind
  intro result
  cases result with
  | none => exact (IsForward.recover hm limit).bind fun _ => .give []
  | some a => exact .give [a]

omit hm in
theorem readImport_forward : IsForward (readImport s) := by
  have hpath : ∀ (first : Nat) (alias? : Option String),
      IsForward (do
        let i ← index
        if s.kindAt i = some .string || s.kindAt i = some .rawString then do
          skip 1
          give (ImportSpec.mk alias? (String.ofList (unquote (s.nameAt i).toList))
            ⟨s.startAt first, s.stopAt i⟩)
        else do
          report s "expected import path"
          fail) := by
    intro first alias?
    apply IsForward.index.bind
    intro i
    split
    · exact (IsForward.skip 1).bind fun _ => .give _
    · exact (IsForward.report _).bind fun _ => .fail
  unfold readImport
  apply IsForward.index.bind
  intro first
  split
  · exact (IsForward.skip 1).bind fun _ => (IsForward.give _).bind fun _ => hpath first _
  · exact (IsForward.skip 1).bind fun _ => (IsForward.give _).bind fun _ => hpath first _
  · exact (IsForward.give _).bind fun _ => hpath first _

theorem readParams_forward : IsForward (readParams s) := by
  intro c
  rw [readParams, index_bind]
  split
  · simp only [goTo_bind, give_apply]
    cases hc : s.closerOf c.index with
    | none => exact Nat.le_succ _
    | some close =>
      have := (hm.closer_spec hc).1
      simp only [Option.getD_some]
      omega
  · exact Nat.le_refl _

theorem readType_forward : IsForward (readType s) := fun c => (readType_reads hm c).1

theorem readTypeSpec_forward (scope : Option Span) : IsForward (readTypeSpec s scope) := by
  unfold readTypeSpec
  apply IsForward.index.bind
  intro first
  split
  · apply (IsForward.skip 1).bind
    intro _
    apply (readParams_forward hm).bind
    intro params
    apply (IsForward.eat .assign).bind
    intro isAlias
    apply (readType_forward hm).optional.bind
    intro type
    cases type with
    | none => exact (IsForward.report _).bind fun _ => .fail
    | some type => exact IsForward.index.bind fun _ => .give _
  · exact (IsForward.report _).bind fun _ => .fail

omit hm in
theorem readConstNames_forward (fuel : Nat) (names : List String) :
    IsForward (readConstNames s fuel names) := by
  induction fuel generalizing names with
  | zero => exact .give names
  | succ fuel ih =>
    unfold readConstNames
    apply IsForward.index.bind
    intro i
    apply (IsForward.eat .ident).bind
    intro isName
    split
    · apply (IsForward.eat .comma).bind
      intro more
      split
      · exact ih _
      · exact .give _
    · exact .give names

theorem readConstValues_forward (limit fuel : Nat) (values : List (Option Nat)) :
    IsForward (readConstValues s limit fuel values) := by
  induction fuel generalizing values with
  | zero => exact .give values
  | succ fuel ih =>
    unfold readConstValues
    apply IsForward.jump (fun i => le_afterValue hm limit (limit - i) i)
    intro i _
    apply (IsForward.eat .comma).bind
    intro more
    split
    · exact ih _
    · exact .give _

/-- What follows the names and the type of a constant. -/
theorem readConstTail_forward (scope : Option Span) (limit i : Nat) (names : List String) :
    IsForward (do
      let values ← if ← eat s .assign then readConstValues s limit (s.size - i + 1) [] else give []
      recover s limit
      give (names.zipIdx.map fun (name, n) =>
        (⟨name, (values[n]?).join, scope⟩ : ConstDecl))) := by
  apply (IsForward.eat .assign).bind
  intro hasValues
  split
  · exact (readConstValues_forward hm _ _ _).bind fun _ =>
      (IsForward.recover hm _).bind fun _ => .give _
  · exact (IsForward.give _).bind fun _ => (IsForward.recover hm _).bind fun _ => .give _

theorem readConstSpec_forward (scope : Option Span) (limit : Nat) :
    IsForward (readConstSpec s scope limit) := by
  unfold readConstSpec
  apply IsForward.index.bind
  intro first
  apply (readConstNames_forward _ _).bind
  intro names
  split
  · exact (IsForward.report _).bind fun _ => (IsForward.recover hm _).bind fun _ => .give []
  · apply IsForward.jump (fun i => le_firstIndex limit _ (limit - i) i)
    intro i _
    exact readConstTail_forward hm scope limit i names

/-- Declarations end after their keyword. -/
theorem readDeclarations_lt {α : Type} {spec : Nat → Reader (List α)}
    (h : ∀ limit, AlwaysGives (spec limit)) (hf : ∀ limit, IsForward (spec limit)) (c : Cursor) :
    c.index < (readDeclarations s spec c).2.index := by
  rcases readDeclarations_index h c with ⟨hk, he⟩ | ⟨-, he⟩
  · rw [he]
    cases hc : s.closerOf (c.index + 1) with
    | none =>
      have := Lexed.kindAt_lt hk
      simp only [Option.getD_none]
      omega
    | some close =>
      have := (hm.closer_spec hc).1
      simp only [Option.getD_some]
      omega
  · rw [he]
    exact hf s.size ⟨c.index + 1, c.diagnostics⟩

theorem readImports_lt (c : Cursor) : c.index < (readImports s c).2.index :=
  readDeclarations_lt hm (fun _ => orRecover_gives _ _)
    (fun limit => orRecover_forward hm limit readImport_forward) c

theorem readTypes_lt (scope : Option Span) (c : Cursor) : c.index < (readTypes s scope c).2.index :=
  readDeclarations_lt hm (fun _ => orRecover_gives _ _)
    (fun limit => orRecover_forward hm limit (readTypeSpec_forward hm scope)) c

theorem readConsts_lt (scope : Option Span) (c : Cursor) : c.index < (readConsts s scope c).2.index :=
  readDeclarations_lt hm (readConstSpec_gives scope) (readConstSpec_forward hm scope) c

end

end LiteralFill
