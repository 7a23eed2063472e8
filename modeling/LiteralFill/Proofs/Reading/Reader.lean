import LiteralFill.Syntax.Reader

/-!
What each step of a reader does to the cursor, as equations that take a reading apart from the left.
-/

namespace LiteralFill

namespace Reader

variable {α β γ : Type} (s : Lexed) (c : Cursor)

theorem bind_apply (r : Reader α) (f : α → Reader β) :
    (r >>= f) c = match r c with
      | (some a, c') => f a c'
      | (none, c') => (none, c') := rfl

theorem bind_some {r : Reader α} {f : α → Reader β} {c : Cursor} {a : α} {c' : Cursor}
    (h : r c = (some a, c')) : (r >>= f) c = f a c' := by
  rw [bind_apply, h]

theorem bind_none {r : Reader α} {f : α → Reader β} {c c' : Cursor} (h : r c = (none, c')) :
    (r >>= f) c = (none, c') := by
  rw [bind_apply, h]

theorem bind_assoc (r : Reader α) (f : α → Reader β) (g : β → Reader γ) :
    ((r >>= f) >>= g) c = (r >>= fun a => f a >>= g) c := by
  rw [bind_apply, bind_apply, bind_apply]
  cases r c with
  | mk result c' => cases result <;> rfl

@[simp] theorem give_apply (a : α) : give a c = (some a, c) := rfl

@[simp] theorem pure_apply (a : α) : (pure a : Reader α) c = (some a, c) := rfl

@[simp] theorem fail_apply : (fail : Reader α) c = (none, c) := rfl

@[simp] theorem fail_bind (f : α → Reader β) : (fail >>= f) c = (none, c) := rfl

@[simp] theorem index_bind (f : Nat → Reader β) : (index >>= f) c = f c.index c := rfl

@[simp] theorem peek_bind (f : Option TokenKind → Reader β) :
    (peek s >>= f) c = f (s.kindAt c.index) c := rfl

@[simp] theorem peekAt_bind (n : Nat) (f : Option TokenKind → Reader β) :
    (peekAt s n >>= f) c = f (s.kindAt (c.index + n)) c := rfl

@[simp] theorem skip_bind (n : Nat) (f : Unit → Reader β) :
    (skip n >>= f) c = f () ⟨c.index + n, c.diagnostics⟩ := rfl

@[simp] theorem goTo_bind (i : Nat) (f : Unit → Reader β) :
    (goTo i >>= f) c = f () ⟨i, c.diagnostics⟩ := rfl

@[simp] theorem require_some_bind (a : α) (f : α → Reader β) : (require (some a) >>= f) c = f a c := rfl

@[simp] theorem require_none_bind (f : α → Reader β) : (require none >>= f) c = (none, c) := rfl

@[simp] theorem optional_bind (r : Reader α) (f : Option α → Reader β) :
    (r.optional >>= f) c = f (r c).1 (r c).2 := rfl

theorem eat_bind (k : TokenKind) (f : Bool → Reader β) :
    (eat s k >>= f) c =
      if s.kindAt c.index = some k then f true ⟨c.index + 1, c.diagnostics⟩ else f false c := by
  rw [bind_apply, eat]
  by_cases h : s.kindAt c.index = some k <;> simp only [h, ↓reduceIte]

theorem expect_bind (k : TokenKind) (f : Unit → Reader β) :
    (expect s k >>= f) c =
      if s.kindAt c.index = some k then f () ⟨c.index + 1, c.diagnostics⟩ else (none, c) := by
  rw [bind_apply, expect]
  by_cases h : s.kindAt c.index = some k <;> simp only [h, ↓reduceIte]

theorem skipBrackets_bind (f : Unit → Reader β) :
    (skipBrackets s >>= f) c =
      match s.closerOf c.index with
      | some close => f () ⟨close + 1, c.diagnostics⟩
      | none => (none, c) := by
  rw [bind_apply, skipBrackets]
  cases s.closerOf c.index <;> rfl

theorem report_bind (message : String) (f : Unit → Reader β) :
    (report s message >>= f) c =
      f () ⟨c.index, c.diagnostics ++ [⟨.grammatical, s.spanAt c.index, message⟩]⟩ := rfl

theorem recover_bind (limit : Nat) (f : Unit → Reader β) :
    (recover s limit >>= f) c =
      f () ⟨afterSemicolon s limit c.index (limit - c.index) c.index, c.diagnostics⟩ := rfl

end Reader

end LiteralFill
