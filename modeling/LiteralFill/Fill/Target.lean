import LiteralFill.Fill.Error
import LiteralFill.Syntax.Outline

/-!
Which literals a request means: the innermost one around a position, the one of a range, or the outermost
ones that begin on a line.
-/

namespace LiteralFill

/-- What a request points at. Lines are counted from one. -/
inductive Target
  | offset (offset : Nat)
  | span (span : Span)
  | line (line : Nat)
  deriving DecidableEq, Repr, Inhabited

/-- The range that a target covers. -/
def targetSpan (file : SourceFile) : Target → Span
  | .offset n => .empty n
  | .span s => s
  | .line n =>
    let line := n - 1
    let start := lineStart file.text line
    let stop :=
      if line + 1 < lineCount file.text then lineStart file.text (line + 1)
      else byteLength file.text
    ⟨min start (byteLength file.text), stop⟩

/-- The literals of a file that may be struct literals. -/
def structLiterals (file : SourceFile) : List CompositeLiteral :=
  file.literals.filter (·.type.mayBeStruct)

/-- One span lies in another and is not equal to it. -/
def isStrictlyInside (inner outer : Span) : Bool :=
  outer.start ≤ inner.start && inner.stop ≤ outer.stop && outer != inner

/-- The literals of a list that lie in no other one of it. -/
def outermost (literals : List CompositeLiteral) : List CompositeLiteral :=
  literals.filter fun l => !literals.any fun other => isStrictlyInside l.span other.span

/-- The literals whose type starts on a line, counted from one, that lie in no other such literal. -/
def literalsOnLine (file : SourceFile) (line : Nat) : List CompositeLiteral :=
  if line = 0 then []
  else
    outermost ((structLiterals file).filter fun l => lineOf file.text l.typeSpan.start + 1 == line)

/-- The literal that a range means: one with exactly this range, or else the innermost one around
it. -/
def literalOfSpan (file : SourceFile) (s : Span) : Option CompositeLiteral :=
  match (structLiterals file).find? fun l => l.span == s with
  | some l => some l
  | none => (file.literalsAt s.start).find? fun l => s.stop ≤ l.span.stop && l.type.mayBeStruct

/-- The literals to fill. -/
def locate (file : SourceFile) (target : Target) : Except FillError (List CompositeLiteral) :=
  let found :=
    match target with
    | .offset n => ((file.literalsAt n).find? (·.type.mayBeStruct)).toList
    | .span s => (literalOfSpan file s).toList
    | .line n => literalsOnLine file n
  if found.isEmpty then .error (.noLiteral (targetSpan file target)) else .ok found

/-- Literals of other types than structs are left alone instead of reported. -/
def Target.skipsOthers : Target → Bool
  | line _ => true
  | _ => false

end LiteralFill
