import LiteralFill.Archive
import LiteralFill.Arguments
import LiteralFill.Settings
import LiteralFill.Text.JsonString

/-!
The command: it fills the literals of a file that its arguments point at, and tells the edits. Where it
fails it tells nothing and changes no file.
-/

namespace LiteralFill

/-- What a run depends on besides the arguments. -/
structure Machine where
  tree : FileTree
  environment : GoEnvironment
  /-- The bytes of the standard input. -/
  input : List UInt8
  deriving Inhabited

/-- An edit as it is told: the range, the text for it, and the imports that the file lacks. -/
structure ReportedEdit where
  start : Nat
  stop : Nat
  code : String
  imports : PathSet
  deriving DecidableEq, Repr, Inhabited

/-- Why a run fails. -/
inductive CommandError
  | archive (error : ArchiveError)
  | unreadableSource (file : Path)
  | unusableSettings (file : Path)
  | unfilled (error : FillError)
  | endless
  | unwritable (file : Path)
  deriving Repr, Inhabited

/-- The text of an error. -/
def CommandError.message : CommandError → String
  | archive e => e.message
  | unreadableSource file => "could not read " ++ file.text
  | unusableSettings file => "failed to load " ++ file.text
  | unfilled e =>
    e.code ++ ": " ++ e.message ++ (e.help.map fun help => "\nhelp: " ++ help).getD ""
  | endless => ResolveError.endless.message
  | unwritable file => "could not write " ++ file.text

/-- How a run ends: with a status, with edits if there is something to tell, with the files as they are
then, and with the error if there was one. -/
structure Finish where
  status : Nat
  edits : Option (List ReportedEdit)
  tree : FileTree
  error : Option CommandError
  deriving Inhabited

namespace Command

/-! ## Steps -/

/-- The path of a file from the root: where it leads, or else as it is written, from the current
directory. -/
def absolutePath (tree : FileTree) (file : String) : Path :=
  (tree.canonical ⟨file⟩).getD ((FileTree.pathOf tree.current).join file)

/-- The directory of a path. -/
def directoryOf (file : Path) : Path := file.parent.getD ⟨"/"⟩

/-- The text of a file on disk. -/
def readSaved (tree : FileTree) (file : Path) : Except CommandError String :=
  match tree.readText file with
  | some text => .ok text
  | none => .error (.unreadableSource file)

/-- The text of a file as the editor holds it, or else on disk. -/
def readSource (m : Machine) (a : Arguments) (file : Path) : Except CommandError String :=
  if a.modified then
    match readArchive m.input with
    | .error e => .error (.archive e)
    | .ok entries =>
      match findEntry m.tree entries file with
      | some e => .ok e.contents
      | none => readSaved m.tree file
  else readSaved m.tree file

/-- The settings and their directory, if there is a file of them. -/
def readSettings (tree : FileTree) (config : Option String) (dir : Path) :
    Except CommandError (Settings × Option Path) :=
  match (config.map Path.mk).orElse fun _ => Settings.find tree dir with
  | none => .ok (.standard, none)
  | some file =>
    match Settings.load tree file with
    | some s => .ok (s, file.parent)
    | none => .error (.unusableSettings file)

/-- The import path of the package that a file belongs to. Outside all modules and roots it is the name in
the package clause. -/
def packagePathOf (db : PackageDb) (dir : Path) (file : SourceFile) : String :=
  (db.importPathForDir dir).getD (file.package.getD "")

/-- Where packages are found by settings, with the module that a directory belongs to. -/
def packagesFor (m : Machine) (s : Settings) (settingsDir : Option Path) (dir : Path) : PackageDb :=
  ((s.packages m.environment settingsDir).discoverModule m.tree dir).2

/-- Fills the literals of a text of a file. -/
def fillText (m : Machine) (a : Arguments) (file : Path) (text : String) :
    Except CommandError FillOutput :=
  let dir := directoryOf file
  match readSettings m.tree a.config dir with
  | .error e => .error e
  | .ok (s, settingsDir) =>
    let db := packagesFor m s settingsDir dir
    let source := SourceFile.parse text.toList
    let request : FillRequest := ⟨source, some file, packagePathOf db dir source, a.target⟩
    match (fill (resolveStruct m.tree) request (s.fillOptions a.recurse) (.ofPackages db)).1 with
    | .filled output => .ok output
    | .cancelled => .ok ⟨[], []⟩
    | .failed e => .error (.unfilled e)
    | .endless => .error .endless

/-- The edits as they are told. -/
def report (output : FillOutput) : List ReportedEdit :=
  output.edits.map fun e => ⟨e.span.start, e.span.stop, e.text, output.imports⟩

/-- The files after the edits, which are only made when there are any and the file is to be changed. -/
def written (m : Machine) (a : Arguments) (file : Path) (text : String) (output : FillOutput) :
    Except CommandError FileTree :=
  if a.write && !output.edits.isEmpty then
    match m.tree.write file (encodeText (String.ofList (applyEdits text.toList output.edits))) with
    | some tree => .ok tree
    | none => .error (.unwritable file)
  else .ok m.tree

/-- The edits of a run, and the files after it. -/
def fillFile (m : Machine) (a : Arguments) :
    Except CommandError (List ReportedEdit × FileTree) := do
  let file := absolutePath m.tree a.file
  let text ← readSource m a file
  let output ← fillText m a file text
  let tree ← written m a file text output
  return (report output, tree)

/-- How a run with arguments that are understood ends. -/
def execute (a : Arguments) (m : Machine) : Finish :=
  match fillFile m a with
  | .error e => ⟨1, none, m.tree, some e⟩
  | .ok (edits, tree) => ⟨0, some edits, tree, none⟩

/-- How a run ends. Wrong arguments have a status of their own. -/
def run (arguments : List String) (m : Machine) : Finish :=
  match Arguments.read arguments with
  | .misuse => ⟨2, none, m.tree, none⟩
  | .information => ⟨0, none, m.tree, none⟩
  | .run a => execute a m

/-! ## Output -/

/-- The text of a JSON list. -/
def jsonList (items : List String) : String := "[" ++ ",".intercalate items ++ "]"

/-- An edit in JSON. -/
def jsonEdit (e : ReportedEdit) : String :=
  "\x7b\"start\":" ++ toString e.start ++ ",\"end\":" ++ toString e.stop ++ ",\"code\":" ++
    jsonString e.code ++ ",\"imports\":" ++ jsonList (e.imports.map jsonString) ++ "\x7d"

/-- What a run prints. -/
def output (f : Finish) : Option String := f.edits.map fun edits => jsonList (edits.map jsonEdit)

/-- How the command is used. -/
def usage : String :=
  "usage: fillstruct --file FILE (--offset OFFSET | --line LINE)\n" ++
  "                  [--modified] [--config FILE] [--recurse] [--write]\n" ++
  "Fill a Go composite literal with the zero values of its missing fields"

end Command

end LiteralFill
