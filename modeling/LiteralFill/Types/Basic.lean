import LiteralFill.Syntax.TypeExpr
import LiteralFill.Text.Uppercase

/-!
Types as they are understood. A named type carries the type it stands for, except where that is out of
sight: a declaration that cannot be found, or one that would contain itself.
-/

namespace LiteralFill

/-- A name starts with a capital, so other packages may use it. -/
def isExported (name : String) : Bool := (name.toList.head?.map isUppercase).getD false

/-- Which declared type is meant: the path and the name of its package and its own name. The path of
the predeclared types is empty. -/
structure TypeName where
  path : String
  package : String
  name : String
  deriving DecidableEq, Repr, Inhabited

namespace TypeName

/-- A predeclared type. -/
def predeclared (name : String) : TypeName := ⟨"", "", name⟩

def isPredeclared (n : TypeName) : Bool := n.path.isEmpty

/-- The path and the name with a point between them, or the name of a predeclared type. -/
def qualified (n : TypeName) : String :=
  if n.isPredeclared then n.name else n.path ++ "." ++ n.name

/-- A name that the files of a package cannot write without an import. -/
def isForeignTo (package : String) (n : TypeName) : Bool :=
  !n.isPredeclared && n.path != package

end TypeName

/-- The predeclared types of numbers, texts and truth values, and the untyped pointer. -/
inductive Primitive
  | bool | string
  | int | int8 | int16 | int32 | int64
  | uint | uint8 | uint16 | uint32 | uint64 | uintptr | byte | rune
  | float32 | float64 | complex64 | complex128
  | pointer
  deriving DecidableEq, Repr, Inhabited

namespace Primitive

/-- The primitives that are written as an identifier. -/
def identifiers : List Primitive :=
  [bool, string, int, int8, int16, int32, int64, uint, uint8, uint16, uint32, uint64, uintptr,
   byte, rune, float32, float64, complex64, complex128]

/-- How a primitive is written. -/
def name : Primitive → String
  | bool => "bool" | string => "string"
  | int => "int" | int8 => "int8" | int16 => "int16" | int32 => "int32" | int64 => "int64"
  | uint => "uint" | uint8 => "uint8" | uint16 => "uint16" | uint32 => "uint32"
  | uint64 => "uint64" | uintptr => "uintptr" | byte => "byte" | rune => "rune"
  | float32 => "float32" | float64 => "float64"
  | complex64 => "complex64" | complex128 => "complex128"
  | pointer => "unsafe.Pointer"

/-- The primitive that an identifier names. -/
def ofName? (text : String) : Option Primitive := identifiers.find? fun p => p.name == text

def isInteger : Primitive → Bool
  | int | int8 | int16 | int32 | int64 | uint | uint8 | uint16 | uint32 | uint64 | uintptr
  | byte | rune => true
  | _ => false

def isFloat : Primitive → Bool
  | float32 | float64 => true
  | _ => false

def isComplex : Primitive → Bool
  | complex64 | complex128 => true
  | _ => false

/-- How the zero value is written. -/
def zero : Primitive → String
  | bool => "false"
  | string => "\"\""
  | pointer => "nil"
  | float32 | float64 => "0.0"
  | complex64 | complex128 => "(0 + 0i)"
  | _ => "0"

end Primitive

/-- The length of an array. A constant whose value is not known is kept as written. -/
inductive Length
  | known (value : Nat)
  | symbolic (text : String)
  deriving DecidableEq, Repr, Inhabited

/-- A field of a struct type. Its place is its place in the list. -/
structure Field (τ : Type) where
  name : String
  type : τ
  embedded : Bool
  tag : Option String
  deriving Repr, Inhabited

namespace Field

/-- Other packages may set the field. -/
def exported {τ : Type} (f : Field τ) : Bool := isExported f.name

end Field

/-- A type. `unseen` is a declared type that is not looked into, `param` a type parameter. -/
inductive Ty
  | primitive (p : Primitive)
  | named (name : TypeName) (args : List Ty) (underlying : Ty)
  | pointer (elem : Ty)
  | slice (elem : Ty)
  | array (length : Length) (elem : Ty)
  | map (key value : Ty)
  | chan (direction : Direction) (elem : Ty)
  | struct (fields : List (Field Ty))
  | interface (text : String)
  | func (text : String)
  | param (name : String)
  | unseen (name : TypeName)
  deriving Repr, Inhabited

namespace Ty

/-- The first type that is no name, following names to what they stand for. -/
def underlying : Ty → Ty
  | named _ _ t => t.underlying
  | t => t

/-- The fields, if the type stands for a struct type. -/
def structFields (t : Ty) : Option (List (Field Ty)) :=
  match t.underlying with
  | struct fields => some fields
  | _ => none

/-- The name of a declared type. -/
def typeName : Ty → Option TypeName
  | named name _ _ => some name
  | unseen name => some name
  | _ => none

/-- The zero value is written `nil`. -/
def isNilable (t : Ty) : Bool :=
  match t.underlying with
  | pointer _ | slice _ | map .. | chan .. | func _ | interface _ => true
  | primitive p => p == .pointer
  | _ => false

/-- The predeclared error type. -/
def error : Ty :=
  named (.predeclared "error") [] (interface "interface\x7b Error() string \x7d")

end Ty

end LiteralFill
