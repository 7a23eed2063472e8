import LiteralFill.Fill.Merge

/-!
The text of a filled literal: a line for each entry, with comments where they belong. Values stand in one
column within a run of entries on single lines, and so do the comments after them. An entry with several
lines, or with comments before it, begins a new run.
-/

namespace LiteralFill

/-- How much further in each level of nesting is. -/
inductive IndentStyle
  | tab
  | spaces (count : Nat)
  deriving DecidableEq, Repr, Inhabited

/-- What is added to the indentation for one level. -/
def IndentStyle.unit : IndentStyle → String
  | tab => "\t"
  | spaces n => String.ofList (List.replicate n ' ')

/-- How literals are laid out. -/
structure Layout where
  indent : IndentStyle
  align : Bool
  deriving DecidableEq, Repr, Inhabited

/-- A key and a value with the comments around them. -/
structure Row where
  leading : List String
  key : String
  value : String
  trailing : Option String
  deriving Repr, Inhabited

namespace Row

def isMultiline (r : Row) : Bool := r.value.toList.contains '\n'

/-- A row on one line with a comment after it. -/
def isCommented (r : Row) : Bool := r.trailing.isSome && !r.isMultiline

/-- The values of two rows, one after the other, stand in one column. -/
def sharesValues (above below : Row) : Bool :=
  !above.isMultiline && !below.isMultiline && below.leading.isEmpty

/-- The comments after two rows, one after the other, stand in one column. -/
def sharesComments (above below : Row) : Bool :=
  above.isCommented && below.isCommented && below.leading.isEmpty

end Row

/-- The number of characters of a text. -/
def width (text : String) : Nat := text.length

/-- A text with spaces after it up to a width. -/
def padTo (column : Nat) (text : String) : String :=
  text ++ String.ofList (List.replicate (column - width text) ' ')

/-- The greatest number of a list, or zero. -/
def greatest (ns : List Nat) : Nat := ns.foldl max 0

/-- For each element the greatest measure in its run. Neighbours belong to one run when `joins` says
so. -/
def runColumns {α : Type} (joins : α → α → Bool) (measure : α → Nat) (xs : List α) : List Nat :=
  (xs.splitBy joins).flatMap fun run => List.replicate run.length (greatest (run.map measure))

/-- The column of the value of each row, counted from the start of its key. -/
def valueColumns (align : Bool) (rows : List Row) : List Nat :=
  let measure := fun r : Row => width r.key + 1
  if align then runColumns Row.sharesValues measure rows else rows.map measure

/-- A row up to the comma. -/
def rowText (r : Row) (column : Nat) : String :=
  let key := r.key ++ ":"
  (if r.isMultiline then key else padTo column key) ++ " " ++ r.value ++ ","

/-- The column of the comment after each row, whose text is given with it. -/
def commentColumns (align : Bool) (rows : List (Row × String)) : List Nat :=
  let measure := fun r : Row × String => if r.1.isCommented then width r.2 else 0
  if align then runColumns (fun a b => a.1.sharesComments b.1) measure rows
  else rows.map measure

/-- The lines of a row. -/
def rowLines (indent : String) (r : Row) (text : String) (column : Nat) : String :=
  let leading := String.join (r.leading.map fun c => indent ++ c ++ "\n")
  let line :=
    match r.trailing with
    | some comment => padTo column text ++ " " ++ comment
    | none => text
  leading ++ indent ++ line ++ "\n"

/-- The lines of rows. -/
def renderRows (indent : String) (align : Bool) (rows : List Row) : String :=
  let texts := (rows.zip (valueColumns align rows)).map fun (r, column) => (r, rowText r column)
  String.join ((texts.zip (commentColumns align texts)).map fun ((r, text), column) =>
    rowLines indent r text column)

mutual

/-- A zero value in a line with this indentation. -/
def renderZero (unit : String) (align : Bool) (indent : String) : ZeroExpr → String
  | .text t => t
  | .composite type fields =>
    type ++ "\x7b\n" ++
      renderRows (indent ++ unit) align (zeroRows unit align (indent ++ unit) fields) ++
      indent ++ "\x7d"

/-- The rows of the fields of a zero value. -/
def zeroRows (unit : String) (align : Bool) (indent : String) :
    List (String × ZeroExpr) → List Row
  | [] => []
  | (name, value) :: rest =>
    ⟨[], name, renderZero unit align indent value, none⟩ :: zeroRows unit align indent rest

end

/-- The row of an entry. -/
def entryRow (layout : Layout) (indent : String) (e : MergedEntry) : Row :=
  let value :=
    match e.value with
    | .source text => text
    | .zero expr => renderZero layout.indent.unit layout.align indent expr
  ⟨e.leading, e.name, value, e.trailing⟩

/-- The text from the opening through the closing brace, in a line that starts with the indentation
`base`. -/
def render (merged : Merged) (base : String) (layout : Layout) : String :=
  if merged.entries.isEmpty && merged.dangling.isEmpty then "\x7b\x7d"
  else
    let indent := base ++ layout.indent.unit
    "\x7b\n" ++ renderRows indent layout.align (merged.entries.map (entryRow layout indent)) ++
      String.join (merged.dangling.map fun c => indent ++ c ++ "\n") ++ base ++ "\x7d"

end LiteralFill
