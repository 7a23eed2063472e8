import LiteralFill.Types.Basic

/-!
How a type is written in a file. A qualifier says what stands before the name of a type from another
package; `display` writes the type, and `namesShown` lists the names it has to ask the qualifier for.
-/

namespace LiteralFill

/-- What stands before a type's name in a file: nothing, or the local name of its package. -/
abbrev Qualifier := TypeName → Option String

/-- A type's name with what stands before it. -/
def showName (q : Qualifier) (n : TypeName) : String :=
  match q n with
  | some package => package ++ "." ++ n.name
  | none => n.name

/-- The untyped pointer is a name of its own package. -/
def pointerName : TypeName := ⟨"unsafe", "unsafe", "Pointer"⟩

/-- How the length of an array is written. -/
def Length.text : Length → String
  | known n => toString n
  | symbolic t => t

/-- What stands before the element of a channel type. -/
def Direction.text : Direction → String
  | both => "chan "
  | send => "chan<- "
  | receive => "<-chan "

namespace Ty

mutual

/-- A type as it is written in a file. -/
def display (q : Qualifier) : Ty → String
  | primitive .pointer => showName q pointerName
  | primitive p => p.name
  | named n [] _ => showName q n
  | named n (a :: rest) _ =>
    showName q n ++ "[" ++ display q a ++ displayMore q rest ++ "]"
  | unseen n => showName q n
  | pointer t => "*" ++ display q t
  | slice t => "[]" ++ display q t
  | array l t => "[" ++ l.text ++ "]" ++ display q t
  | map k v => "map[" ++ display q k ++ "]" ++ display q v
  | chan d t => d.text ++ display q t
  | struct [] => "struct\x7b\x7d"
  | struct (f :: rest) =>
    "struct\x7b " ++ displayField q f ++ displayMoreFields q rest ++ " \x7d"
  | interface t => t
  | func t => t
  | param t => t

/-- Further type arguments, each after a comma. -/
def displayMore (q : Qualifier) : List Ty → String
  | [] => ""
  | a :: rest => ", " ++ display q a ++ displayMore q rest

/-- One field of a struct type. -/
def displayField (q : Qualifier) : Field Ty → String
  | ⟨name, t, embedded, tag⟩ =>
    (if embedded then display q t else name ++ " " ++ display q t) ++
      match tag with
      | some text => " " ++ text
      | none => ""

/-- Further fields, each after a semicolon. -/
def displayMoreFields (q : Qualifier) : List (Field Ty) → String
  | [] => ""
  | f :: rest => "; " ++ displayField q f ++ displayMoreFields q rest

end

mutual

/-- The names of declared types that a type is written with, in order. -/
def namesShown : Ty → List TypeName
  | primitive .pointer => [pointerName]
  | primitive _ => []
  | named n args _ => n :: namesShownAll args
  | unseen n => [n]
  | pointer t => namesShown t
  | slice t => namesShown t
  | array _ t => namesShown t
  | map k v => namesShown k ++ namesShown v
  | chan _ t => namesShown t
  | struct fields => namesShownFields fields
  | interface _ => []
  | func _ => []
  | param _ => []

def namesShownAll : List Ty → List TypeName
  | [] => []
  | a :: rest => namesShown a ++ namesShownAll rest

def namesShownField : Field Ty → List TypeName
  | ⟨_, t, _, _⟩ => namesShown t

def namesShownFields : List (Field Ty) → List TypeName
  | [] => []
  | f :: rest => namesShownField f ++ namesShownFields rest

end

end Ty

end LiteralFill
