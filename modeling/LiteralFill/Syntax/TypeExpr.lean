import LiteralFill.Text.Bytes

/-!
Types as they are written. Function and interface types are kept as text, and so is the length of an
array that is no plain number.
-/

namespace LiteralFill

/-- The direction of a channel. -/
inductive Direction
  | both | send | receive
  deriving DecidableEq, Repr, Inhabited

/-- The length of an array type as written. `ellipsis` is `[...]`. -/
inductive WrittenLength
  | number (value : Nat)
  | ellipsis
  | expression (text : String)
  deriving DecidableEq, Repr, Inhabited

/-- One line of a struct type. An embedded field has no names. -/
structure FieldDecl (τ : Type) where
  names : List String
  type : τ
  tag : Option String
  span : Span
  deriving Repr, Inhabited

/-- A type as it is written. -/
inductive TypeExpr
  | name (qualifier : Option String) (name : String) (args : List TypeExpr)
  | pointer (elem : TypeExpr)
  | slice (elem : TypeExpr)
  | array (length : WrittenLength) (elem : TypeExpr)
  | map (key value : TypeExpr)
  | chan (direction : Direction) (elem : TypeExpr)
  | func (text : String)
  | struct (fields : List (FieldDecl TypeExpr))
  | interface (text : String)
  deriving Repr, Inhabited

namespace TypeExpr

/-- A type that is written as a name, with or without arguments. -/
def isName : TypeExpr → Bool
  | .name .. => true
  | _ => false

/-- A type whose literals may be struct literals: a name or a struct type. -/
def mayBeStruct : TypeExpr → Bool
  | .name .. | .struct _ => true
  | _ => false

end TypeExpr

namespace FieldDecl

def isEmbedded {τ : Type} (f : FieldDecl τ) : Bool := f.names.isEmpty

/-- The name of an embedded field: that of its type, without qualifier, pointer and arguments. -/
def embeddedName (f : FieldDecl TypeExpr) : Option String :=
  match f.type with
  | .name _ name _ | .pointer (.name _ name _) => some name
  | _ => none

end FieldDecl

end LiteralFill
