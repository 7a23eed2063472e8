import LiteralFill.Syntax.SourceFile
import LiteralFill.Types.Display

/-!
How a file refers to the packages it imports, and which imports it lacks.
-/

namespace LiteralFill

/-- A set of import paths, as a list in increasing order. -/
abbrev PathSet := List String

namespace PathSet

/-- A set with one more path. -/
def insert (path : String) : PathSet → PathSet
  | [] => [path]
  | p :: rest =>
    if path < p then path :: p :: rest
    else if path = p then p :: rest
    else p :: insert path rest

/-- The set of the paths of a list. -/
def ofList (paths : List String) : PathSet := paths.foldl (fun s p => insert p s) []

/-- The paths of two sets. -/
def union (s t : PathSet) : PathSet := t.foldl (fun s p => insert p s) s

end PathSet

namespace SourceFile

/-- What an import binds for a type of its package: the alias if there is one, otherwise the name of
the package, whatever the path suggests. -/
def boundName (i : ImportSpec) (n : TypeName) : Option String :=
  match i.alias? with
  | some _ => i.localName
  | none => some n.package

/-- How a file of a package refers to a type's package. Types of the same package, predeclared types and
those of a dot import stand alone; otherwise the first import that binds a name decides, and the name of
the package does without one. -/
def qualifier (f : SourceFile) (package : String) : Qualifier := fun n =>
  if !n.isForeignTo package then none
  else
    let imports := f.imports.filter fun i => i.path == n.path
    if imports.any (·.isDot) then none
    else some ((imports.findSome? fun i => boundName i n).getD n.package)

/-- The file can refer to a package through one of its imports. -/
def canName (f : SourceFile) (path : String) : Bool :=
  f.imports.any fun i => i.path == path && (i.isDot || i.localName.isSome)

/-- The paths that a file of a package still has to import. -/
def missingImports (f : SourceFile) (package : String) (paths : List String) : PathSet :=
  PathSet.ofList (paths.filter fun p => p != package && !f.canName p)

end SourceFile

end LiteralFill
