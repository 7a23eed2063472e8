import LiteralFill.Command

/-!
The program. It pictures the files that a run may look at, runs the command on the picture, and carries
out what the run ends with. A picture holds the directories on the way to a path and, in the last one, the
files that matter: sources, module files and settings.
-/

namespace LiteralFill.Program

/-- The names of the files that matter in a directory. -/
def matters (name : String) : Bool :=
  Package.isSourceName name || name == "go.mod" || name == Settings.fileName

/-- Adds what stands at a place: a directory, or a file with its bytes. -/
def addPlace (tree : FileTree) (place : Place) : IO FileTree := do
  let path := (FileTree.pathOf place).text
  match ← (IO.FS.realPath path).toBaseIO with
  | .error _ => return tree
  | .ok real =>
    if ← real.isDir then return tree.makeDirectories place
    else
      match ← (IO.FS.readBinFile real).toBaseIO with
      | .error _ => return tree
      | .ok bytes => return tree.set place (.file bytes.toList)

/-- Adds the files that matter in the directory at a place. -/
def addFilesAt (tree : FileTree) (place : Place) : IO FileTree := do
  match ← (← IO.FS.realPath (FileTree.pathOf place).text).readDir.toBaseIO with
  | .error _ => return tree
  | .ok found =>
    (found.toList.filter fun f => matters f.fileName).foldlM
      (fun tree f => addPlace tree (place ++ [f.fileName])) tree

/-- Adds the places on the way along the pieces of a path, and what matters at its end. -/
def addAlong (tree : FileTree) (place : Place) : List String → IO FileTree
  | [] => if tree.isDirectoryAt place then addFilesAt tree place else return tree
  | piece :: rest =>
    if Path.isFiller piece then addAlong tree place rest
    else if piece == ".." then addAlong tree place.dropLast rest
    else do
      let inner := place ++ [piece]
      let tree ← addPlace tree inner
      if (tree.entryAt inner).isSome then addAlong tree inner rest else return tree

/-- Adds a path. -/
def addPath (tree : FileTree) (p : Path) : IO FileTree :=
  addAlong tree (if p.isAbsolute then [] else tree.current) p.segments

/-- Adds the packages of import paths, and the packages that those import. -/
partial def addPackages (db : PackageDb) (tree : FileTree) (seen : List String) :
    List String → IO FileTree
  | [] => return tree
  | path :: rest => do
    if seen.contains path then addPackages db tree seen rest
    else
      let tree ← (db.candidates path).foldlM addPath tree
      let found := (db.dirFor tree path).bind (Package.read tree path)
      addPackages db tree (path :: seen) ((found.map (·.importedPaths)).getD [] ++ rest)

/-- Adds the packages that a run with these arguments may load. -/
def addImports (m : Machine) (a : Arguments) : IO FileTree := do
  let file := Command.absolutePath m.tree a.file
  let dir := Command.directoryOf file
  match Command.readSettings m.tree a.config dir, Command.readSource m a file with
  | .ok (s, settingsDir), .ok text =>
    let db := Command.packagesFor m s settingsDir dir
    let own := (SourceFile.parse text.toList).imports.map (·.path)
    let others := ((Package.read m.tree "" dir).map (·.importedPaths)).getD []
    addPackages db m.tree [] (own ++ others)
  | _, _ => return m.tree

/-- The path of a file with all links followed, if it exists. -/
def followLinks (file : String) : IO String := do
  match ← (IO.FS.realPath file).toBaseIO with
  | .ok real => return real.toString
  | .error _ => return file

/-- The names of the entries of an archive. -/
def archiveNames (input : List UInt8) : List String :=
  match readArchive input with
  | .ok entries => entries.map (·.name)
  | .error _ => []

/-- The picture for a run, with the rest that it depends on. -/
def picture (a : Arguments) : IO Machine := do
  let here := (← IO.currentDir).toString
  let input ← if a.modified then (·.toList) <$> (← IO.getStdin).readBinToEnd else pure []
  let environment : GoEnvironment :=
    ⟨← IO.getEnv "GOROOT", ← IO.getEnv "GOPATH", ← IO.getEnv "HOME"⟩
  let current := (Path.mk here).segments.filter fun piece => !Path.isFiller piece
  let tree ← addPath ⟨[], current⟩ ⟨here⟩
  let tree ← addPath tree ⟨a.file⟩
  let tree ← (Command.directoryOf (Command.absolutePath tree a.file)).ancestors.foldlM addPath tree
  let tree ← (archiveNames input).foldlM (fun tree name => addPath tree ⟨name⟩) tree
  let tree ← (a.config.map Path.mk).toList.foldlM addPath tree
  let m : Machine := ⟨tree, environment, input⟩
  return { m with tree := ← addImports m a }

/-- Writes a file that a run has changed. -/
def carryOut (before after : FileTree) (file : Path) : IO Unit := do
  match after.readBytes file with
  | some bytes =>
    if before.readBytes file != some bytes then
      IO.FS.writeBinFile file.text ⟨bytes.toArray⟩
  | none => return

/-- Fills literals as the arguments say. -/
def perform (a : Arguments) : IO UInt32 := do
  let a := { a with file := ← followLinks a.file }
  let m ← picture a
  let finish := Command.execute a m
  match finish.error with
  | some e => IO.eprintln e.message
  | none => carryOut m.tree finish.tree (Command.absolutePath m.tree a.file)
  if let some text := Command.output finish then
    IO.println text
  return finish.status.toUInt32

/-- The program with its arguments. -/
def start (arguments : List String) : IO UInt32 := do
  match Arguments.read arguments with
  | .misuse =>
    IO.eprintln Command.usage
    return 2
  | .information =>
    IO.println Command.usage
    return 0
  | .run a =>
    try perform a
    catch e =>
      IO.eprintln (toString e)
      return 1

end LiteralFill.Program

/-- The command line. -/
def main (arguments : List String) : IO UInt32 := LiteralFill.Program.start arguments
