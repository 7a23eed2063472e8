import LiteralFill.Packages.ModuleFile
import LiteralFill.Packages.Package

/-!
Where packages are found. A module maps the import paths that begin with its own path to a directory
and those below it; the longest module path decides. Below a search root directories have the import
path that leads to them. What was looked up once, found or not, is remembered.
-/

namespace LiteralFill

/-- A module path and its directory. -/
structure ModuleDir where
  path : String
  dir : Path
  deriving Inhabited

/-- Search roots, modules, and what was looked up so far by import path and by directory. -/
structure PackageDb where
  roots : List Path
  modules : List ModuleDir
  byPath : List (String × Option Package)
  byDir : List (Path × Option Package)
  deriving Inhabited

namespace PackageDb

/-- No roots and no modules. -/
def empty : PackageDb := ⟨[], [], [], []⟩

/-- A search root is kept once, under its first spelling. -/
def addRoot (db : PackageDb) (root : Path) : PackageDb :=
  if db.roots.any (· == root) then db else { db with roots := db.roots ++ [root] }

/-- A module takes the place of one with the same path and becomes the last one. -/
def addModule (db : PackageDb) (path : String) (dir : Path) : PackageDb :=
  { db with modules := (db.modules.filter fun m => m.path != path) ++ [⟨path, dir⟩] }

/-- The directory around `start` with the nearest module file, and the path of the module. A module file
that cannot be read, or names no module, ends the search. -/
def nearestModule (tree : FileTree) : List Path → Option ModuleDir
  | [] => none
  | dir :: outer =>
    let file := dir.join "go.mod"
    if tree.isFile file then
      ((tree.readText file).bind modulePath).map fun path => ⟨path, dir⟩
    else nearestModule tree outer

/-- Adds the module that a directory belongs to, and tells its path. -/
def discoverModule (tree : FileTree) (start : Path) (db : PackageDb) : Option String × PackageDb :=
  match nearestModule tree start.ancestors with
  | some m => (some m.path, db.addModule m.path m.dir)
  | none => (none, db)

/-! ## Directories and import paths -/

/-- The last of the elements with the greatest measure. -/
def lastGreatest {α : Type} (measure : α → Nat) : List α → Option α
  | [] => none
  | a :: rest =>
    match lastGreatest measure rest with
    | some b => if measure b < measure a then some a else some b
    | none => some a

/-- The directory that a module gives to an import path: its own for its own path, and for a longer
one the directory that the rest after a slash leads to. -/
def moduleDirFor (path : String) (m : ModuleDir) : Option Path :=
  let whole := path.toList
  let own := m.path.toList
  if own.isPrefixOf whole then
    match whole.drop own.length with
    | [] => some m.dir
    | '/' :: rest => some (m.dir.join (String.ofList rest))
    | _ => none
  else none

/-- The directory that the module with the longest path gives to an import path. -/
def moduleCandidate (db : PackageDb) (path : String) : Option Path :=
  let candidates := db.modules.filterMap fun m =>
    (moduleDirFor path m).map fun dir => (m.path.utf8ByteSize, dir)
  (lastGreatest (·.1) candidates).map (·.2)

/-- The directories that an import path may have, in the order in which they are tried. -/
def candidates (db : PackageDb) (path : String) : List Path :=
  (db.moduleCandidate path).toList ++ db.roots.map (·.join path)

/-- The directory of an import path, if it exists. -/
def dirFor (tree : FileTree) (db : PackageDb) (path : String) : Option Path :=
  (db.candidates path).find? tree.isDirectory

/-- A path and components below it, with slashes between them. -/
def importPath (path : String) (inner : List Component) : String :=
  inner.foldl (fun path c => (if path.isEmpty then path else path ++ "/") ++ c.text) path

/-- The import path of a directory: by the module whose directory is written longest among those
around it, or else by the first root above it. -/
def importPathForDir (db : PackageDb) (dir : Path) : Option String :=
  let candidates := db.modules.filterMap fun m =>
    (dir.relativeTo m.dir).map fun inner => (m.dir.text.utf8ByteSize, importPath m.path inner)
  match lastGreatest (·.1) candidates with
  | some (_, path) => some path
  | none => db.roots.findSome? fun root =>
    match dir.relativeTo root with
    | some inner =>
      let path := importPath "" inner
      if path.isEmpty then none else some path
    | none => none

/-! ## Loading -/

/-- What was found in a directory before. -/
def seenDir (db : PackageDb) (dir : Path) : Option (Option Package) :=
  (db.byDir.find? fun (d, _) => d == dir).map (·.2)

/-- The package in a directory; it is read under an import path if it was not looked at before. -/
def readDir (tree : FileTree) (path : String) (dir : Path) (db : PackageDb) :
    Option Package × PackageDb :=
  match db.seenDir dir with
  | some package => (package, db)
  | none =>
    let package := Package.read tree path dir
    (package, { db with byDir := db.byDir ++ [(dir, package)] })

/-- The package of an import path. -/
def load (tree : FileTree) (path : String) (db : PackageDb) : Option Package × PackageDb :=
  match db.byPath.lookup path with
  | some package => (package, db)
  | none =>
    let (found, db) :=
      match db.dirFor tree path with
      | some dir => db.readDir tree path dir
      | none => (none, db)
    let package := found.orElse fun _ => Package.standard path
    (package, { db with byPath := db.byPath ++ [(path, package)] })

/-- The package in a directory, under the import path that leads there. -/
def loadDir (tree : FileTree) (dir : Path) (db : PackageDb) : Option Package × PackageDb :=
  db.readDir tree ((db.importPathForDir dir).getD "") dir

end PackageDb

/-- Where the tools of the language look for packages. -/
structure GoEnvironment where
  goroot : Option String
  gopath : Option String
  home : Option String
  deriving DecidableEq, Repr, Inhabited

/-- The search roots of an environment; a root and a path given here come before those of the
environment. The path of the environment may list several directories, and is `go` in the home directory
unless it is set. -/
def PackageDb.ofEnvironment (env : GoEnvironment) (goroot gopath : Option String) : PackageDb :=
  let root := (goroot.orElse fun _ => env.goroot).toList
  let paths :=
    match gopath with
    | some path => [path]
    | none =>
      match env.gopath with
      | some list => (splitAround ':' list.toList).map String.ofList
      | none => (env.home.map fun home => ((Path.mk home).join "go").text).toList
  (root ++ paths).foldl (fun db dir => db.addRoot ((Path.mk dir).join "src")) .empty

end LiteralFill
