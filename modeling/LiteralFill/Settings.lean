import LiteralFill.Fill.Request
import LiteralFill.Toml.Document

/-!
Settings: where packages are found and how literals are filled. They stand in a file in the directory of
the filled file or in one around it. Unknown keys are left aside; a key with a value of the wrong type
makes the whole file unusable.
-/

namespace LiteralFill

/-- What a settings file says. -/
structure Settings where
  /-- More search roots, relative to the directory of the settings. -/
  roots : List String
  goroot : Option String
  gopath : Option String
  /-- The types whose zero value is never expanded, in place of the usual ones. -/
  wellKnown : Option (List String)
  indent : IndentStyle
  align : Bool
  recurse : Bool
  maxElements : Option Nat
  /-- Module paths in increasing order, each with a directory relative to that of the settings. -/
  modules : List (String × String)
  deriving DecidableEq, Repr, Inhabited

namespace Settings

/-- The settings of an empty file. -/
def standard : Settings :=
  { roots := []
    goroot := none
    gopath := none
    wellKnown := none
    indent := .tab
    align := true
    recurse := false
    maxElements := none
    modules := [] }

/-! ## Reading -/

open Toml (Value)

/-- The value of a key read as something, or a default without the key. -/
def setting {α : Type} (entries : List (String × Value)) (key : String) (default : α)
    (read : Value → Option α) : Option α :=
  match entries.lookup key with
  | some v => read v
  | none => some default

def asString : Value → Option String
  | .string text => some text
  | _ => none

def asBool : Value → Option Bool
  | .boolean b => some b
  | _ => none

/-- A number that is not negative. -/
def asNat : Value → Option Nat
  | .integer n => if 0 ≤ n then some n.toNat else none
  | _ => none

def asStrings : Value → Option (List String)
  | .array items => items.mapM asString
  | _ => none

/-- The word `tab` or a number of spaces. -/
def asIndent : Value → Option IndentStyle
  | .string text => if text = "tab" then some .tab else none
  | v => (asNat v).map .spaces

/-- The key of the only entry of a date, where a table is asked for. -/
def dateKey : String := "$__toml_private_datetime"

/-- The entries of a table of strings. A date is a table with its text as the only entry. -/
def asStringTable : Value → Option (List (String × String))
  | .table entries => entries.mapM fun (key, v) => (asString v).map fun text => (key, text)
  | .date text => some [(dateKey, text)]
  | _ => none

/-- Entries in increasing order of their keys. -/
def sortEntries (entries : List (String × String)) : List (String × String) :=
  entries.mergeSort fun a b => !(b.1 < a.1)

/-- The settings of a document. -/
def ofEntries (entries : List (String × Value)) : Option Settings := do
  let roots ← setting entries "roots" [] asStrings
  let goroot ← setting entries "goroot" none fun v => (asString v).map some
  let gopath ← setting entries "gopath" none fun v => (asString v).map some
  let wellKnown ← setting entries "well_known" none fun v => (asStrings v).map some
  let indent ← setting entries "indent" standard.indent asIndent
  let align ← setting entries "align" standard.align asBool
  let recurse ← setting entries "recurse" standard.recurse asBool
  let maxElements ← setting entries "max_array_elems" none fun v => (asNat v).map some
  let modules ← setting entries "modules" [] asStringTable
  some
    { roots, goroot, gopath, wellKnown, indent, align, recurse, maxElements
      modules := sortEntries modules }

/-- The settings of a text. -/
def ofText (text : String) : Option Settings := (Toml.readDocument text).bind ofEntries

/-! ## Finding -/

/-- The name of a settings file. -/
def fileName : String := "fillstruct.toml"

/-- The nearest settings file in a directory or around it. -/
def find (tree : FileTree) (dir : Path) : Option Path :=
  (dir.ancestors.map (·.join fileName)).find? tree.isFile

/-- The settings of a file. -/
def load (tree : FileTree) (file : Path) : Option Settings := (tree.readText file).bind ofText

/-! ## Use -/

/-- How literals are filled. Expansion that is asked for elsewhere is not taken back. -/
def fillOptions (s : Settings) (recurse : Bool) : FillOptions :=
  { indent := s.indent
    align := s.align
    recurse := recurse || s.recurse
    wellKnown := s.wellKnown.getD defaultWellKnown
    maxElements := s.maxElements }

/-- A directory that settings in a directory name. -/
def locate (dir : Option Path) (written : String) : Path :=
  match dir with
  | some dir => dir.join written
  | none => ⟨written⟩

/-- Where packages are found, with the settings in a directory. -/
def packages (s : Settings) (environment : GoEnvironment) (dir : Option Path) : PackageDb :=
  let db := PackageDb.ofEnvironment environment s.goroot s.gopath
  let db := s.roots.foldl (fun db root => db.addRoot (locate dir root)) db
  s.modules.foldl (fun db (path, written) => db.addModule path (locate dir written)) db

end Settings

end LiteralFill
