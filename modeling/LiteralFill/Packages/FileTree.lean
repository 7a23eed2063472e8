import LiteralFill.Packages.Path
import LiteralFill.Text.Decode

/-!
A tree of files. An entry stands at the list of names that lead to it from the root; the directories of
an entry are entries themselves. A written path is followed piece by piece: each piece needs a directory
to start from, and `..` leads to the directory around it.
-/

namespace LiteralFill

/-- A file with its bytes, or a directory. -/
inductive Entry
  | file (bytes : List UInt8)
  | directory
  deriving DecidableEq, Repr, Inhabited

/-- The place of an entry: the names from the root. -/
abbrev Place := List String

/-- All entries, and the directory where paths that do not start at the root start. -/
structure FileTree where
  entries : List (Place × Entry)
  current : Place
  deriving Inhabited

namespace FileTree

/-- The entry at a place. The root is a directory. -/
def entryAt (t : FileTree) (place : Place) : Option Entry :=
  if place.isEmpty then some .directory else t.entries.lookup place

/-- A directory stands at a place. -/
def isDirectoryAt (t : FileTree) (place : Place) : Bool := t.entryAt place == some .directory

/-- Where the pieces of a path lead from a place. -/
def follow (t : FileTree) : Place → List String → Option Place
  | place, [] => some place
  | place, s :: rest =>
    if !t.isDirectoryAt place then none
    else if Path.isFiller s then follow t place rest
    else if s == ".." then follow t place.dropLast rest
    else
      let inner := place ++ [s]
      if (t.entryAt inner).isSome then follow t inner rest else none

/-- The place that a path leads to, if there is an entry. -/
def locate (t : FileTree) (p : Path) : Option Place :=
  if p.text.isEmpty then none
  else t.follow (if p.isAbsolute then [] else t.current) p.segments

/-- The entry that a path leads to. -/
def entry (t : FileTree) (p : Path) : Option Entry := (t.locate p).bind t.entryAt

def isDirectory (t : FileTree) (p : Path) : Bool := t.entry p == some .directory

def isFile (t : FileTree) (p : Path) : Bool :=
  match t.entry p with
  | some (.file _) => true
  | _ => false

/-- The bytes of a file. -/
def readBytes (t : FileTree) (p : Path) : Option (List UInt8) :=
  match t.entry p with
  | some (.file bytes) => some bytes
  | _ => none

/-- The text of a file, if it is well-formed. -/
def readText (t : FileTree) (p : Path) : Option String := (t.readBytes p).bind decodeText

/-- The name of an entry that stands directly inside a place. -/
def childName (place : Place) (inner : Place) : Option String :=
  match inner.getLast? with
  | some name => if inner.dropLast == place then some name else none
  | none => none

/-- The names inside a directory. -/
def list (t : FileTree) (p : Path) : Option (List String) :=
  match t.locate p with
  | some place =>
    if t.isDirectoryAt place then some (t.entries.filterMap fun (inner, _) => childName place inner)
    else none
  | none => none

/-- The path of a place, from the root. -/
def pathOf (place : Place) : Path := ⟨"/" ++ "/".intercalate place⟩

/-- The path from the root to the entry that a path leads to. -/
def canonical (t : FileTree) (p : Path) : Option Path := (t.locate p).map pathOf

/-- The tree with an entry in the place of whatever stood there. -/
def set (t : FileTree) (place : Place) (e : Entry) : FileTree :=
  { t with entries := (place, e) :: t.entries.filter fun (other, _) => other != place }

/-- The tree with directories at every place on the way to one. -/
def makeDirectories (t : FileTree) (place : Place) : FileTree :=
  (List.range place.length).foldl (fun t n =>
    let outer := place.take (n + 1)
    if (t.entryAt outer).isSome then t else t.set outer .directory) t

/-- The tree with a file written at a path. The directory around it must exist, and the path must end with
the name of the file. -/
def write (t : FileTree) (p : Path) (bytes : List UInt8) : Option FileTree :=
  match t.locate p with
  | some place =>
    if t.isDirectoryAt place then none else some (t.set place (.file bytes))
  | none =>
    match p.parent, p.segments.getLast? with
    | some dir, some name =>
      let outer := if dir.text.isEmpty then some t.current else t.locate dir
      match outer with
      | some place =>
        if t.isDirectoryAt place && !Path.isFiller name && name != ".." then
          some (t.set (place ++ [name]) (.file bytes))
        else none
      | none => none
    | _, _ => none

end FileTree

end LiteralFill
