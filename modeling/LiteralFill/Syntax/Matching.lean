import LiteralFill.Syntax.Token

/-!
Which closing bracket belongs to which opening one. Openers wait on a stack; a closer takes the
innermost one if it is of its kind, and is passed over otherwise.
-/

namespace LiteralFill

/-- The state of matching: the openers that wait, innermost first, the closer found for each token,
and the closers passed over, in order. -/
structure Matching where
  waiting : List (Nat × Token)
  closers : Array (Option Nat)
  stray : List Token
  deriving Inhabited

namespace Matching

/-- Takes the token of an index into account. -/
def step (m : Matching) (index : Nat) (t : Token) : Matching :=
  match t.kind with
  | .opener _ => { m with waiting := (index, t) :: m.waiting }
  | .closer b =>
    match m.waiting with
    | (opened, u) :: outer =>
      if u.kind = .opener b then
        { m with waiting := outer, closers := m.closers.setIfInBounds opened (some index) }
      else { m with stray := m.stray ++ [t] }
    | [] => { m with stray := m.stray ++ [t] }
  | _ => m

/-- Takes tokens into account, the first of them at an index. -/
def run (m : Matching) (index : Nat) : List Token → Matching
  | [] => m
  | t :: ts => (m.step index t).run (index + 1) ts

/-- The matching of a list of tokens. -/
def ofTokens (tokens : List Token) : Matching :=
  run ⟨[], Array.replicate tokens.length none, []⟩ 0 tokens

/-- A problem for each closer without an opener, then one for each opener without a closer. -/
def diagnostics (m : Matching) : List Diagnostic :=
  m.stray.map (fun t => ⟨.grammatical, t.span, "unbalanced delimiter"⟩) ++
    m.waiting.reverse.map fun (_, t) => ⟨.grammatical, t.span, "unclosed delimiter"⟩

end Matching

/-- A text with its tokens and, for each opening bracket, the index of its closer. -/
structure Lexed where
  text : List Char
  tokens : Array Token
  closers : Array (Option Nat)
  deriving Inhabited

namespace Lexed

/-- The number of tokens. -/
def size (s : Lexed) : Nat := s.tokens.size

/-- What the token of an index is, if there is one. -/
def kindAt (s : Lexed) (index : Nat) : Option TokenKind := s.tokens[index]?.map (·.kind)

/-- The closer of the opener at an index. -/
def closerOf (s : Lexed) (index : Nat) : Option Nat := s.closers[index]?.join

/-- The text of the token at an index as a name. -/
def nameAt (s : Lexed) (index : Nat) : String := (s.tokens[index]?.map (·.name)).getD ""

/-- The position where a token starts; past the last token, the end of the text. -/
def startAt (s : Lexed) (index : Nat) : Nat :=
  (s.tokens[index]?.map (·.start)).getD (byteLength s.text)

/-- The position where a token stops; past the last token, zero. -/
def stopAt (s : Lexed) (index : Nat) : Nat := (s.tokens[index]?.map (·.stop)).getD 0

/-- The position where the token before an index stops. -/
def stopBefore (s : Lexed) : Nat → Nat
  | 0 => 0
  | index + 1 => s.stopAt index

/-- The range of a token; past the last token, the end of the text. -/
def spanAt (s : Lexed) (index : Nat) : Span :=
  (s.tokens[index]?.map (·.span)).getD (.empty (byteLength s.text))

/-- The text from the start of one token to the end of another. -/
def textBetween (s : Lexed) (first last : Nat) : String :=
  sliceText s.text ⟨s.startAt first, s.stopAt last⟩

/-- The index after the brackets that an index opens, or `otherwise` if they stay open. -/
def skipGroup (s : Lexed) (index otherwise : Nat) : Nat :=
  match s.closerOf index with
  | some close => close + 1
  | none => otherwise

end Lexed

end LiteralFill
