import LiteralFill.Packages.FileTree
import LiteralFill.Packages.Standard
import LiteralFill.Syntax.Outline

/-!
Packages: the files of one directory, read together under an import path.
-/

namespace LiteralFill

/-- A file of a package. Files that come with the library have no path. -/
structure PackageFile where
  path : Option Path
  source : SourceFile
  deriving Inhabited

/-- A package with its files in order of their names. -/
structure Package where
  path : String
  name : String
  dir : Option Path
  files : List PackageFile
  deriving Inhabited

namespace Package

/-- A package is named by the first file with a package clause, or else by its path. -/
def ofFiles (path : String) (dir : Option Path) (files : List PackageFile) : Package :=
  let clause := files.findSome? fun f => f.source.package
  ⟨path, clause.getD (defaultPackageName path), dir, files⟩

/-- The file at `skip` is not to be looked at. -/
def isSkipped (skip : Option Path) (f : PackageFile) : Bool :=
  match skip, f.path with
  | some p, some q => q == p
  | _, _ => false

/-- The first declaration of a type of the package and the index of its file, apart from the file at
`skip`. -/
def findType (p : Package) (name : String) (skip : Option Path) : Option (Nat × TypeDecl) :=
  p.files.zipIdx.findSome? fun (f, i) =>
    if isSkipped skip f then none else (f.source.packageType name).map fun d => (i, d)

/-- The first known value of a constant of the package. -/
def findConst (p : Package) (name : String) : Option Nat :=
  p.files.findSome? fun f => f.source.packageConst name

/-- The paths that the files of the package import. -/
def importedPaths (p : Package) : List String :=
  p.files.flatMap fun f => f.source.imports.map (·.path)

/-- A file that belongs to the package of its directory, by its name. -/
def isSourceName (name : String) : Bool := name.endsWith ".go" && !name.endsWith "_test.go"

/-- Names in increasing order. -/
def sortNames (names : List String) : List String := names.mergeSort fun a b => !(b < a)

/-- The package in a directory, if there is a file of it that can be read. -/
def read (tree : FileTree) (path : String) (dir : Path) : Option Package :=
  match tree.list dir with
  | none => none
  | some names =>
    let paths := (sortNames (names.filter isSourceName)).map dir.join
    let files := paths.filterMap fun p =>
      (tree.readText p).map fun text => PackageFile.mk (some p) (SourceFile.parse text.toList)
    if files.isEmpty then none else some (ofFiles path (some dir) files)

/-- A package of the standard library that comes with the library. -/
def standard (path : String) : Option Package :=
  (standardSource path).map fun text =>
    ofFiles path none [⟨none, SourceFile.parse text.toList⟩]

end Package

end LiteralFill
