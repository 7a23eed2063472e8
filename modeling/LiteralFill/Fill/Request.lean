import LiteralFill.Fill.Render
import LiteralFill.Fill.Target
import LiteralFill.Text.Edit

/-!
Filling literals. Every literal that a request means is resolved, merged and rendered; only when all of
them could be filled are there edits, and only then are the imports they need asked for.
-/

namespace LiteralFill

/-- What to fill. The file belongs to the package of this import path; the path on disk, if there is
one, leads to the other files of the package. -/
structure FillRequest where
  file : SourceFile
  path : Option Path
  packagePath : String
  target : Target
  deriving Inhabited

/-- How to fill. -/
structure FillOptions where
  indent : IndentStyle
  align : Bool
  recurse : Bool
  wellKnown : List String
  maxElements : Option Nat
  deriving DecidableEq, Repr, Inhabited

namespace FillOptions

/-- Tabs, columns, no expansion, the well-known types, and arrays of any length. -/
def standard : FillOptions := ⟨.tab, true, false, defaultWellKnown, none⟩

def layout (o : FillOptions) : Layout := ⟨o.indent, o.align⟩

/-- The zero values of a request. -/
def synthesizer (o : FillOptions) (r : FillRequest) : Synthesizer :=
  { qualifier := r.file.qualifier r.packagePath
    packagePath := r.packagePath
    wellKnown := o.wellKnown
    recurse := o.recurse
    maxElements := o.maxElements }

end FillOptions

/-- The edits of a request, in order, and the imports that the file then lacks. -/
structure FillOutput where
  edits : List TextEdit
  imports : PathSet
  deriving DecidableEq, Repr, Inhabited

/-- How a request ends. `endless` is no answer: resolution has no end. -/
inductive FillOutcome
  | filled (output : FillOutput)
  | cancelled
  | failed (error : FillError)
  | endless
  deriving DecidableEq, Repr, Inhabited

/-- Finds the struct type that stands before a literal. -/
abbrev StructResolver := Scope → TypeExpr → Resolution ResolvedStruct

/-- How the literals of a request end: with edits and the paths that their zero values name, or early. -/
inductive LiteralsOutcome
  | edited (edits : List TextEdit) (paths : PathSet)
  | stopped (outcome : FillOutcome)
  deriving Repr, Inhabited

/-- How one literal ends: with an edit, left alone, or with the end of the request. -/
inductive LiteralOutcome
  | edited (edit : TextEdit) (paths : PathSet)
  | leftAlone
  | stopped (outcome : FillOutcome)
  deriving Repr, Inhabited

/-- Fills a literal whose type is resolved. -/
def fillResolved (r : FillRequest) (options : FillOptions) (literal : CompositeLiteral)
    (resolved : ResolvedStruct) (s : Session) : LiteralOutcome × Session :=
  match merge r.file literal resolved (options.synthesizer r) s with
  | (.error e, s) => (.stopped (.failed e), s)
  | (.ok none, s) => (.stopped .cancelled, s)
  | (.ok (some merged), s) =>
    let indent := String.ofList (indentAt r.file.text literal.lbrace)
    (.edited ⟨literal.braceSpan, render merged indent options.layout⟩ merged.imports, s)

/-- What the error of a resolver means for a literal. -/
def onResolveError (r : FillRequest) (literal : CompositeLiteral) : ResolveError → LiteralOutcome
  | .cancelled => .stopped .cancelled
  | .endless => .stopped .endless
  | .unresolved name => .stopped (.failed (.unresolvedType name literal.typeSpan))
  | .notAStruct _ underlying =>
    if r.target.skipsOthers then .leftAlone
    else
      .stopped (.failed (.notAStruct (r.file.slice literal.typeSpan) underlying literal.typeSpan))

/-- Fills one literal. The cancel flag is read first. -/
def fillLiteral (resolve : StructResolver) (r : FillRequest) (options : FillOptions)
    (literal : CompositeLiteral) (s : Session) : LiteralOutcome × Session :=
  match s.poll with
  | (true, s) => (.stopped .cancelled, s)
  | (false, s) =>
    match resolve ⟨r.file, r.path, r.packagePath, literal.lbrace⟩ literal.type s with
    | (.error e, s) => (onResolveError r literal e, s)
    | (.ok resolved, s) => fillResolved r options literal resolved s

/-- Fills literals one after another, up to the first that ends the request. -/
def fillLiterals (resolve : StructResolver) (r : FillRequest) (options : FillOptions) :
    List CompositeLiteral → Session → LiteralsOutcome × Session
  | [], s => (.edited [] [], s)
  | literal :: rest, s =>
    match fillLiteral resolve r options literal s with
    | (.stopped outcome, s) => (.stopped outcome, s)
    | (.leftAlone, s) => fillLiterals resolve r options rest s
    | (.edited edit paths, s) =>
      match fillLiterals resolve r options rest s with
      | (.edited edits more, s) => (.edited (edit :: edits) (paths.union more), s)
      | (.stopped outcome, s) => (.stopped outcome, s)

/-- Edits in the order of their positions. -/
def sortEdits (edits : List TextEdit) : List TextEdit :=
  edits.mergeSort fun a b => a.span.start ≤ b.span.start

/-- Fills the literals that a request means. -/
def fill (resolve : StructResolver) (r : FillRequest) (options : FillOptions) (s : Session) :
    FillOutcome × Session :=
  match locate r.file r.target with
  | .error e => (.failed e, s)
  | .ok literals =>
    match fillLiterals resolve r options literals s with
    | (.stopped outcome, s) => (outcome, s)
    | (.edited [] _, s) => (.failed (.noLiteral (targetSpan r.file r.target)), s)
    | (.edited edits paths, s) =>
      let imports := r.file.missingImports r.packagePath paths
      (.filled ⟨sortEdits edits, imports⟩, imports.foldl Session.forward s)

end LiteralFill
