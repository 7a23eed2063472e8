import LiteralFill.Text.Split

/-!
Paths of files. A path is kept as it is written and compared by its components, so repeated and
trailing slashes and inner points do not matter; `..` is a component like any other.
-/

namespace LiteralFill

/-- A part of a path. -/
inductive Component
  | root | here | parent
  | normal (name : String)
  deriving DecidableEq, Repr, Inhabited

/-- How a component is written. -/
def Component.text : Component → String
  | root => "/"
  | here => "."
  | parent => ".."
  | normal name => name

/-- A path as it is written. -/
structure Path where
  text : String
  deriving Repr, Inhabited

namespace Path

/-- The pieces between the slashes, empty ones included. -/
def segments (p : Path) : List String := (splitAround '/' p.text.toList).map String.ofList

def isAbsolute (p : Path) : Bool := p.text.toList.head? == some '/'

/-- A piece that names nothing. -/
def isFiller (segment : String) : Bool := segment == "" || segment == "."

/-- The component of a piece that is no filler. -/
def componentOf (segment : String) : Component :=
  if segment == ".." then .parent else .normal segment

/-- The components. A leading point counts in a path that does not start at the root. -/
def components (p : Path) : List Component :=
  let rest := (p.segments.filter fun s => !isFiller s).map componentOf
  if p.isAbsolute then .root :: rest
  else if p.segments.head? == some "." then .here :: rest
  else rest

instance : BEq Path := ⟨fun p q => p.components == q.components⟩

/-- A path inside a directory. An absolute path stays itself. -/
def join (p : Path) (inner : String) : Path :=
  if (Path.mk inner).isAbsolute || p.text.isEmpty then ⟨inner⟩
  else if p.text.toList.getLast? == some '/' then ⟨p.text ++ inner⟩
  else ⟨p.text ++ "/" ++ inner⟩

/-- Pieces without the fillers at their end. -/
def dropFillers (segments : List String) : List String :=
  (segments.reverse.dropWhile isFiller).reverse

/-- The pieces of the directory of pieces, if they name something. -/
def parentSegments (segments : List String) : Option (List String) :=
  match dropFillers segments with
  | [] => none
  | kept => some (dropFillers kept.dropLast)

/-- The directory that holds a path. -/
def parent (p : Path) : Option Path :=
  match p.segments with
  | "" :: rest =>
    if p.isAbsolute then
      (parentSegments rest).map fun kept =>
        if kept.isEmpty then ⟨"/"⟩ else ⟨"/" ++ "/".intercalate kept⟩
    else none
  | "." :: rest =>
    some ((parentSegments rest).elim ⟨""⟩ fun kept => ⟨"/".intercalate ("." :: kept)⟩)
  | segments => (parentSegments segments).map fun kept => ⟨"/".intercalate kept⟩

/-- A path, the directory that holds it, the one that holds that, and so on. The number bounds the
steps. -/
def ancestorsWithin (p : Path) : Nat → List Path
  | 0 => [p]
  | fuel + 1 =>
    match p.parent with
    | some q => p :: ancestorsWithin q fuel
    | none => [p]

/-- A path and all directories around it, innermost first. -/
def ancestors (p : Path) : List Path := p.ancestorsWithin p.text.length

/-- What is left of some components after others. -/
def dropComponents : List Component → List Component → Option (List Component)
  | rest, [] => some rest
  | c :: rest, d :: base => if c = d then dropComponents rest base else none
  | [], _ :: _ => none

/-- The components of a path inside a directory. -/
def relativeTo (p base : Path) : Option (List Component) :=
  dropComponents p.components base.components

end Path

end LiteralFill
