import LiteralFill.Syntax.Matching

/-!
Reading tokens from left to right. A reader moves a cursor over the tokens and may give up; the cursor
then stays where it gave up, so that the caller can report the place or go back.
-/

namespace LiteralFill

/-- The index of the next token and the problems found so far. -/
structure Cursor where
  index : Nat
  diagnostics : List Diagnostic
  deriving Inhabited

/-- A step of reading: what was read, if anything, and the cursor after it. -/
def Reader (α : Type) : Type := Cursor → Option α × Cursor

namespace Reader

/-- Reads nothing. -/
def give {α : Type} (a : α) : Reader α := fun c => (some a, c)

/-- Gives up. -/
def fail {α : Type} : Reader α := fun c => (none, c)

/-- One reader after another. -/
def andThen {α β : Type} (r : Reader α) (f : α → Reader β) : Reader β := fun c =>
  match r c with
  | (some a, c') => f a c'
  | (none, c') => (none, c')

instance : Monad Reader where
  pure := give
  bind := andThen

/-- Never gives up: says whether the reader did. -/
def optional {α : Type} (r : Reader α) : Reader (Option α) := fun c =>
  match r c with
  | (result, c') => (some result, c')

/-- The index of the next token. -/
def index : Reader Nat := fun c => (some c.index, c)

/-- Goes to a token. -/
def goTo (i : Nat) : Reader Unit := fun c => (some (), { c with index := i })

/-- Passes over some tokens. -/
def skip (n : Nat) : Reader Unit := fun c => (some (), { c with index := c.index + n })

/-- Gives up unless there is a value. -/
def require {α : Type} (a : Option α) : Reader α := fun c => (a, c)

/-- What the next token is. -/
def peek (s : Lexed) : Reader (Option TokenKind) := fun c => (some (s.kindAt c.index), c)

/-- What the token some places on is. -/
def peekAt (s : Lexed) (n : Nat) : Reader (Option TokenKind) := fun c =>
  (some (s.kindAt (c.index + n)), c)

/-- The text of the next token as a name. -/
def peekName (s : Lexed) : Reader String := fun c => (some (s.nameAt c.index), c)

/-- Passes over the next token if it is of a kind, and says whether it was. -/
def eat (s : Lexed) (kind : TokenKind) : Reader Bool := fun c =>
  if s.kindAt c.index = some kind then (some true, { c with index := c.index + 1 })
  else (some false, c)

/-- Passes over the next token, which must be of a kind. -/
def expect (s : Lexed) (kind : TokenKind) : Reader Unit := fun c =>
  if s.kindAt c.index = some kind then (some (), { c with index := c.index + 1 })
  else (none, c)

/-- Passes over the brackets that the next token opens; gives up if they stay open. -/
def skipBrackets (s : Lexed) : Reader Unit := fun c =>
  match s.closerOf c.index with
  | some close => (some (), { c with index := close + 1 })
  | none => (none, c)

/-- Reports a problem at the next token. -/
def report (s : Lexed) (message : String) : Reader Unit := fun c =>
  (some (), { c with
    diagnostics := c.diagnostics ++ [⟨.grammatical, s.spanAt c.index, message⟩] })

/-- The index after the next semicolon outside brackets, or the first closer that follows a token,
or `limit`. `first` is where the search started. -/
def afterSemicolon (s : Lexed) (limit first : Nat) : Nat → Nat → Nat
  | 0, i => i
  | fuel + 1, i =>
    if i < limit then
      match s.kindAt i with
      | some .semicolon => i + 1
      | some (.closer _) => if first < i then i else afterSemicolon s limit first fuel (i + 1)
      | some (.opener _) => afterSemicolon s limit first fuel (s.skipGroup i limit)
      | _ => afterSemicolon s limit first fuel (i + 1)
    else i

/-- Passes over what is left of a broken line. -/
def recover (s : Lexed) (limit : Nat) : Reader Unit := fun c =>
  (some (), { c with index := afterSemicolon s limit c.index (limit - c.index) c.index })

end Reader

end LiteralFill
