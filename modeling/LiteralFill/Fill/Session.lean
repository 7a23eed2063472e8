import LiteralFill.Packages.Database

/-!
What a request leaves behind: the packages loaded so far, the answers that the cancel flag still has to
give, and the imports that were asked for.
-/

namespace LiteralFill

/-- The state that requests share. `cancel` has an answer for each time the flag is read; once they are
used up the flag is down. -/
structure Session where
  packages : PackageDb
  cancel : List Bool
  forwarded : List String
  deriving Inhabited

namespace Session

/-- A session over packages, with the flag down. -/
def ofPackages (db : PackageDb) : Session := ⟨db, [], []⟩

/-- Reads the cancel flag. -/
def poll (s : Session) : Bool × Session :=
  match s.cancel with
  | [] => (false, s)
  | answer :: rest => (answer, { s with cancel := rest })

/-- Asks for an import. -/
def forward (s : Session) (path : String) : Session :=
  { s with forwarded := s.forwarded ++ [path] }

end Session

end LiteralFill
