import LiteralFill.Text.Bytes

/-!
What keeps a literal from being filled, where, and how it is told. Each error carries the span of the
text at fault.
-/

namespace LiteralFill

/-- Why a literal cannot be filled. -/
inductive FillError
  | notAStruct (name underlying : String) (span : Span)
  | unresolvedType (name : String) (span : Span)
  | unknownField (key type : String) (suggestion : Option String) (span : Span)
  | duplicateField (key : String) (span : Span)
  | mixedElements (type : String) (span : Span)
  | tooManyValues (type : String) (expected found : Nat) (span : Span)
  | noLiteral (span : Span)
  deriving DecidableEq, Repr, Inhabited

namespace FillError

/-- The text of an error. -/
def message : FillError → String
  | notAStruct name underlying _ =>
    "`" ++ name ++ "` is not a struct type (underlying type is `" ++ underlying ++ "`)"
  | unresolvedType name _ => "cannot resolve type `" ++ name ++ "`"
  | unknownField key type _ _ =>
    "unknown field `" ++ key ++ "` in struct literal of type `" ++ type ++ "`"
  | duplicateField key _ => "duplicate field `" ++ key ++ "` in struct literal"
  | mixedElements type _ =>
    "mixture of field:value and value elements in struct literal of type `" ++ type ++ "`"
  | tooManyValues type expected found _ =>
    "too many values in struct literal of type `" ++ type ++ "`: expected " ++ toString expected ++
      ", found " ++ toString found
  | noLiteral _ => "no composite literal at the requested position"

/-- The code of an error. -/
def code : FillError → String
  | notAStruct .. => "fillstruct::not_a_struct"
  | unresolvedType .. => "fillstruct::unresolved_type"
  | unknownField .. => "fillstruct::ambiguous_key"
  | duplicateField .. => "fillstruct::duplicate_key"
  | mixedElements .. => "fillstruct::mixed_literal_syntax"
  | tooManyValues .. => "fillstruct::too_many_values"
  | noLiteral .. => "fillstruct::no_composite_literal"

/-- What may help. -/
def help : FillError → Option String
  | unresolvedType .. =>
    some ("check the import list, or add a search root or module mapping to fillstruct.toml")
  | unknownField _ _ suggestion _ => suggestion.map fun s => "did you mean `" ++ s ++ "`?"
  | mixedElements .. => some "use either keyed or positional elements, not both"
  | _ => none

/-- What is said of the text at fault. -/
def label : FillError → String
  | notAStruct .. => "literal type"
  | unresolvedType .. => "not found in any visible scope"
  | unknownField .. => "no such field"
  | duplicateField .. => "already given earlier in this literal"
  | mixedElements .. => "literal mixes both forms"
  | tooManyValues .. => "extra value"
  | noLiteral .. => "here"

/-- The text at fault. A span that ends before its start is empty. -/
def span (e : FillError) : Span :=
  let s :=
    match e with
    | notAStruct _ _ s | unresolvedType _ s | unknownField _ _ _ s | duplicateField _ s
    | mixedElements _ s | tooManyValues _ _ _ s | noLiteral s => s
  ⟨s.start, max s.start s.stop⟩

end FillError

end LiteralFill
