import LiteralFill.Command
import LiteralFill.Proofs.Fill.Cancellation
import LiteralFill.Proofs.Fill.Edits
import LiteralFill.Proofs.Packages.Writing

/-!
What a run of the command changes. A run that fails changes nothing and tells nothing; one that succeeds tells edits of
the text that it read, and if it is to write, the file then holds that text with the edits made.
-/

namespace LiteralFill

/-! ## The text that is read -/

/-- An entry of an archive names a file by the path of the file, or by another path to the same place. -/
def ArchiveEntry.Names (tree : FileTree) (file : Path) (e : ArchiveEntry) : Prop :=
  (Path.mk e.name == file) = true ∨
    ∃ place place', tree.canonical file = some place ∧ tree.canonical ⟨e.name⟩ = some place' ∧ (place' == place) = true

namespace Command

variable {m : Machine} {a : Arguments} {file : Path} {text : String}

/-- The edit of a text that is told. -/
def toEdit (e : ReportedEdit) : TextEdit := ⟨⟨e.start, e.stop⟩, e.code⟩

/-- The text of a file when the edits that were told are made. -/
def edited (text : String) (edits : List ReportedEdit) : String :=
  String.ofList (applyEdits text.toList (edits.map toEdit))

end Command

end LiteralFill
