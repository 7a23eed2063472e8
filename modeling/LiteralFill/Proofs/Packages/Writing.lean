import LiteralFill.Proofs.Packages.Spellings

/-!
Files that are written. A path leads to the file that was written at it, the bytes of the file are those that were
written, and nothing else in the tree is changed.
-/

namespace LiteralFill

namespace FileTree

variable {t : FileTree}

/-! ## Places -/

section

variable {place : Place} (hplace : t.isDirectoryAt place = false) (bytes : List UInt8)
include hplace

end

/-! ## Files -/

end FileTree

end LiteralFill
