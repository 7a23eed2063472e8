import LiteralFill.Packages.FileTree
import LiteralFill.Syntax.Integer
import LiteralFill.Text.Blank
import LiteralFill.Text.Quoted

/-!
Texts that an editor has not saved yet, one after another: a line with the name of the file, a line with
the number of bytes, and the bytes. `encode` writes an entry, and `readArchive` reads a sequence of them.
-/

namespace LiteralFill

/-- A file as an editor holds it. -/
structure ArchiveEntry where
  name : String
  contents : String
  deriving DecidableEq, Repr, Inhabited

/-- What is wrong with an archive, in the entry of this name. -/
inductive ArchiveError
  | missingSize (name : String)
  | invalidSize (name size : String)
  | truncated (name : String) (expected found : Nat)
  | malformedText (name : String)
  deriving DecidableEq, Repr, Inhabited

namespace ArchiveError

/-- The text of an error. -/
def message : ArchiveError → String
  | missingSize name => "archive entry " ++ quoted name ++ ": missing size line"
  | invalidSize name size => "archive entry " ++ quoted name ++ ": invalid size " ++ quoted size
  | truncated name expected found =>
    "archive entry " ++ quoted name ++ ": expected " ++ toString expected ++ " bytes, found " ++
      toString found
  | malformedText name => "archive entry " ++ quoted name ++ " is not valid UTF-8"

end ArchiveError

/-- The byte that ends a line. -/
def newline : UInt8 := 10

/-- The bytes of an entry. -/
def ArchiveEntry.encode (e : ArchiveEntry) : List UInt8 :=
  let contents := encodeText e.contents
  encodeText e.name ++ newline :: encodeText (toString contents.length) ++ newline :: contents

/-! ## Reading -/

/-- The bytes before the first newline, and those after it. -/
def splitLine : List UInt8 → List UInt8 × List UInt8
  | [] => ([], [])
  | b :: bs =>
    if b = newline then ([], bs) else (b :: (splitLine bs).1, (splitLine bs).2)

theorem splitLine_length_le (bs : List UInt8) : (splitLine bs).2.length ≤ bs.length := by
  induction bs with
  | nil => simp [splitLine]
  | cons b bs ih =>
    rw [splitLine]
    split
    · simp
    · exact Nat.le_succ_of_le ih

theorem splitLine_length_lt (bs : List UInt8) (h : bs ≠ []) :
    (splitLine bs).2.length < bs.length := by
  cases bs with
  | nil => exact absurd rfl h
  | cons b bs =>
    rw [splitLine]
    split
    · simp
    · exact Nat.lt_succ_of_le (splitLine_length_le bs)

/-- A size with white space around it. -/
def sizeOf? (text : String) : Option Nat := boundedNumber 10 (trim text.toList)

/-- The entry that an archive starts with, and the bytes after it. -/
def readEntry (data : List UInt8) : Except ArchiveError (ArchiveEntry × List UInt8) :=
  let first := splitLine data
  let name := decodeLossy first.1
  if first.2.isEmpty then .error (.missingSize name)
  else
    let second := splitLine first.2
    let size := decodeLossy second.1
    let body := second.2
    match sizeOf? size with
    | none => .error (.invalidSize name size)
    | some n =>
      if body.length < n then .error (.truncated name n body.length)
      else
        match decodeText (body.take n) with
        | none => .error (.malformedText name)
        | some contents => .ok (⟨name, contents⟩, body.drop n)

/-- Every entry takes at least one byte. -/
theorem readEntry_length_lt {data : List UInt8} {e : ArchiveEntry} {rest : List UInt8}
    (h : data ≠ []) (he : readEntry data = .ok (e, rest)) : rest.length < data.length := by
  have hname := splitLine_length_lt data h
  have hsize := splitLine_length_le (splitLine data).2
  simp only [readEntry] at he
  split at he
  · cases he
  · split at he
    · cases he
    · rename_i n _
      split at he
      · cases he
      · split at he
        · cases he
        · injection he with he
          injection he with _ hrest
          subst hrest
          rw [List.length_drop]
          omega

/-- The entries of an archive. -/
def readArchive (data : List UInt8) : Except ArchiveError (List ArchiveEntry) :=
  if _h : data = [] then .ok []
  else
    match _he : readEntry data with
    | .error e => .error e
    | .ok (entry, rest) =>
      match readArchive rest with
      | .error e => .error e
      | .ok entries => .ok (entry :: entries)
termination_by data.length
decreasing_by exact readEntry_length_lt _h _he

/-- The entry of a file: the first one with its name, or else the first one whose name leads to the
same place. -/
def findEntry (tree : FileTree) (entries : List ArchiveEntry) (file : Path) :
    Option ArchiveEntry :=
  match entries.find? fun e => Path.mk e.name == file with
  | some e => some e
  | none =>
    match tree.canonical file with
    | none => none
    | some place => entries.find? fun e => (tree.canonical ⟨e.name⟩).any (· == place)

end LiteralFill
