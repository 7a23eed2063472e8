import LiteralFill.Syntax.Token
import LiteralFill.Syntax.TypeExpr
import LiteralFill.Text.Lines
import LiteralFill.Text.Split

/-!
What is known of a Go file: its package clause, imports, declared types and constants, and the
composite literals that spell out their type.
-/

namespace LiteralFill

/-- A path element that only numbers a version: `v` and then digits. -/
def isVersion : List Char → Bool
  | 'v' :: digits => !digits.isEmpty && digits.all Char.isDigit
  | _ => false

/-- The package name that an import path suggests: the last element, or the one before a version,
without a leading `go-` and anything from the first point on, and with underscores for hyphens. -/
def defaultPackageName (path : String) : String :=
  let last :=
    match (splitAround '/' path.toList).reverse with
    | v :: element :: _ => if isVersion v then element else v
    | [v] => v
    | [] => []
  let bare := if "go-".toList.isPrefixOf last then last.drop 3 else last
  String.ofList ((bare.takeWhile (· != '.')).map fun c => if c = '-' then '_' else c)

/-! ## Imports -/

/-- One import. `alias?` is the name before the path: an identifier, a point or an underscore. -/
structure ImportSpec where
  alias? : Option String
  path : String
  span : Span
  deriving DecidableEq, Repr, Inhabited

namespace ImportSpec

/-- The name the package probably has. -/
def defaultName (i : ImportSpec) : String := defaultPackageName i.path

/-- The import brings all exported names into the file. -/
def isDot (i : ImportSpec) : Bool := i.alias? == some "."

/-- The identifier that the import binds in the file, if any. -/
def localName (i : ImportSpec) : Option String :=
  match i.alias? with
  | some "_" | some "." => none
  | some name => some name
  | none => some i.defaultName

end ImportSpec

/-! ## Declarations -/

/-- A declared type. `scope` is the body of the function it is local to. -/
structure TypeDecl where
  name : String
  params : List String
  isAlias : Bool
  type : TypeExpr
  span : Span
  scope : Option Span
  deriving Repr, Inhabited

/-- A declared constant. The value is known only if it is written as an integer literal. -/
structure ConstDecl where
  name : String
  value : Option Nat
  scope : Option Span
  deriving DecidableEq, Repr, Inhabited

/-! ## Literals -/

/-- What stands before the colon of an element. -/
structure Key where
  text : String
  span : Span
  isIdent : Bool
  deriving DecidableEq, Repr, Inhabited

/-- One element of a literal, with the comments before it and after it on its line. -/
structure Element where
  key : Option Key
  value : Span
  span : Span
  leading : List String
  trailing : Option String
  deriving DecidableEq, Repr, Inhabited

/-- A composite literal. The braces are given by their positions. -/
structure CompositeLiteral where
  type : TypeExpr
  typeSpan : Span
  lbrace : Nat
  rbrace : Nat
  elements : List Element
  /-- The comments after the last element. -/
  dangling : List String
  deriving Repr, Inhabited

namespace CompositeLiteral

/-- From the type through the closing brace. -/
def span (l : CompositeLiteral) : Span := ⟨l.typeSpan.start, l.rbrace + 1⟩

/-- From the opening through the closing brace. -/
def braceSpan (l : CompositeLiteral) : Span := ⟨l.lbrace, l.rbrace + 1⟩

end CompositeLiteral

/-! ## Files -/

/-- What is known of a file. Types, constants and literals stand in the order of the text. -/
structure SourceFile where
  text : List Char
  package : Option String
  imports : List ImportSpec
  types : List TypeDecl
  consts : List ConstDecl
  literals : List CompositeLiteral
  diagnostics : List Diagnostic
  deriving Inhabited

namespace SourceFile

/-- The text of a span. -/
def slice (f : SourceFile) (s : Span) : String := sliceText f.text s

/-- The index of the first element of least measure. -/
def leastIndex {α : Type} (measure : α → Nat) : List (Nat × α) → Option (Nat × α)
  | [] => none
  | (i, a) :: rest =>
    match leastIndex measure rest with
    | some (j, b) => if measure b < measure a then some (j, b) else some (i, a)
    | none => some (i, a)

/-- The types with their places in the order of declaration. -/
def numberedTypes (f : SourceFile) : List (Nat × TypeDecl) := f.types.zipIdx.map fun (d, i) => (i, d)

/-- The type of the package with a name, and its place. -/
def packageTypeIndex (f : SourceFile) (name : String) : Option (Nat × TypeDecl) :=
  f.numberedTypes.find? fun (_, d) => d.scope.isNone && d.name == name

/-- The type of the package with a name. -/
def packageType (f : SourceFile) (name : String) : Option TypeDecl :=
  (f.packageTypeIndex name).map (·.2)

/-- A local type is visible at a position after its name, within the body it is declared in. -/
def isVisibleAt (d : TypeDecl) (offset : Nat) : Bool :=
  d.span.start ≤ offset && (d.scope.map (·.contains offset)).getD false

/-- The local type with a name visible at a position, in the shortest body around it, and its
place. -/
def localTypeIndex (f : SourceFile) (name : String) (offset : Nat) : Option (Nat × TypeDecl) :=
  leastIndex (fun d => (d.scope.map Span.length).getD 0)
    (f.numberedTypes.filter fun (_, d) => d.name == name && isVisibleAt d offset)

/-- The local type with a name visible at a position. -/
def localType (f : SourceFile) (name : String) (offset : Nat) : Option TypeDecl :=
  (f.localTypeIndex name offset).map (·.2)

/-- The value of the constant of the package with a name. -/
def packageConst (f : SourceFile) (name : String) : Option Nat :=
  (f.consts.find? fun d => d.scope.isNone && d.name == name).bind (·.value)

/-- The first import that binds a name. -/
def importByName (f : SourceFile) (name : String) : Option ImportSpec :=
  f.imports.find? fun i => i.localName == some name

/-- The first import of a path. -/
def importByPath (f : SourceFile) (path : String) : Option ImportSpec :=
  f.imports.find? fun i => i.path == path

/-- The literals around a position, innermost first. The closing brace belongs to its literal. -/
def literalsAt (f : SourceFile) (offset : Nat) : List CompositeLiteral :=
  (f.literals.filter fun l => l.span.contains offset || l.rbrace == offset).mergeSort
    fun a b => a.span.length ≤ b.span.length

end SourceFile

end LiteralFill
