import LiteralFill.Fill.Render
import LiteralFill.Proofs.Filled.Notes
import Mathlib.Data.List.SplitBy

/-!
The rows of a filled literal as lines. Whatever the columns are, a row with a name as its key, a value that stands
for itself and whole comments is written as a line that reads back as this row.
-/

namespace LiteralFill

namespace Row

/-- The parts of a row are what they are taken for. -/
structure IsSound (r : Row) : Prop where
  key : IsIdentifier r.key.toList
  value : IsValueText r.value.toList
  leading : ∀ c ∈ r.leading, IsNote c.toList
  trailing : ∀ t ∈ r.trailing, IsTrail t.toList

/-- A line with the key, the value and the comments of a row. -/
structure IsShown (l : Line) (r : Row) : Prop where
  key : l.key = r.key.toList
  value : l.value = r.value.toList
  leading : l.leading = r.leading
  trailing : joinNotes l.trailing = r.trailing

/-- What an element says of a row. -/
structure IsRead (r : Row) (text : List Char) (e : Element) : Prop where
  key : ∃ span, e.key = some ⟨r.key, span, true⟩
  value : slice text e.value = r.value.toList
  leading : e.leading = r.leading
  trailing : e.trailing = r.trailing

theorem IsShown.isRead {l : Line} {r : Row} (h : IsShown l r) {text : List Char} {e : Element} (he : l.Says text e) :
    r.IsRead text e := by
  obtain ⟨⟨span, hkey⟩, hvalue, hleading, htrailing⟩ := he
  refine ⟨⟨span, ?_⟩, h.value ▸ hvalue, h.leading ▸ hleading, h.trailing ▸ htrailing⟩
  rw [hkey, h.key, String.ofList_toList]

end Row

/-! ## One row -/

theorem toList_padTo (column : Nat) (text : String) : ∃ spaces : List Char,
    (padTo column text).toList = text.toList ++ spaces ∧ ∀ c ∈ spaces, c = ' ' := by
  refine ⟨List.replicate (column - width text) ' ', by simp [padTo], fun c hc => List.eq_of_mem_replicate hc⟩

/-- A row up to the comma: the key, the colon, at least one space, the value and the comma. -/
theorem toList_rowText (r : Row) (column : Nat) : ∃ pad : List Char, (pad ≠ [] ∧ ∀ c ∈ pad, c = ' ') ∧
    (rowText r column).toList = r.key.toList ++ ':' :: (pad ++ (r.value.toList ++ [','])) := by
  by_cases hlines : r.isMultiline
  · exact ⟨[' '], by simp, by simp [rowText, hlines]⟩
  · obtain ⟨spaces, htext, hspaces⟩ := toList_padTo column (r.key ++ ":")
    refine ⟨spaces ++ [' '], ⟨by simp, ?_⟩, by simp [rowText, hlines, htext]⟩
    simpa [or_imp, forall_and] using hspaces

theorem rowLines_eq (indent : String) (r : Row) (text : String) (column : Nat) :
    rowLines indent r text column = String.join (r.leading.map fun c => indent ++ c ++ "\n") ++ indent ++
      r.trailing.elim text (fun comment => padTo column text ++ " " ++ comment) ++ "\n" := by
  unfold rowLines
  cases r.trailing <;> rfl

/-- The lines of a row are one line with comments before it. -/
theorem Row.IsSound.exists_line {r : Row} (h : r.IsSound) {indent : String} (hindent : ∀ c ∈ indent.toList, isLineBlank c)
    (column column' : Nat) : ∃ l : Line, l.IsSound ∧ Row.IsShown l r ∧
      '\n' :: (rowLines indent r (rowText r column) column').toList = l.text ++ ['\n'] := by
  obtain ⟨pad, hpad, htext⟩ := toList_rowText r column
  have hgap := isGapText_noteLines hindent hindent h.leading
  have hjoin : (String.join (r.leading.map fun c => indent ++ c ++ "\n")).toList ++ indent.toList =
      noteLines indent.toList r.leading indent.toList := by
    simp [noteLines, List.flatMap_map]
  -- what stands behind the comma, and the comments in it
  obtain ⟨tail, notes, htail, hnotes, hline, hnone, hshown⟩ : ∃ (tail : List Char) (notes : List String),
      IsGapText tail IsNextLine notes ∧ joinNotes notes = r.trailing ∧ '\n' ∉ tail ∧ (notes = [] → tail = []) ∧
      (r.trailing.elim (rowText r column) fun comment => padTo column' (rowText r column) ++ " " ++ comment).toList =
        (rowText r column).toList ++ tail := by
    cases htrailing : r.trailing with
    | none =>
      refine ⟨[], [], ⟨fun r _ => ⟨[], rfl, by simp⟩, rfl⟩, rfl, by simp, fun _ => rfl, by simp⟩
    | some t =>
      obtain ⟨spaces, hpadded, hspaces⟩ := toList_padTo column' (rowText r column)
      have ht := h.trailing t htrailing
      have hblank : ∀ c ∈ spaces ++ [' '], c = ' ' := by simpa [or_imp, forall_and] using hspaces
      obtain ⟨notes, hgap, hjoin⟩ := ht.isGapText (by simp) hblank
      rw [String.ofList_toList] at hjoin
      refine ⟨spaces ++ [' '] ++ t.toList, notes, hgap, hjoin, ?_, ?_, by simp [hpadded]⟩
      · intro hmem
        rcases List.mem_append.mp hmem with hmem | hmem
        · exact absurd (hblank _ hmem) (by decide)
        · exact ht.noLine hmem
      · rintro rfl
        cases hjoin
  refine ⟨⟨noteLines indent.toList r.leading indent.toList, r.key.toList, pad, r.value.toList, tail, r.leading, notes⟩,
    ⟨hgap, h.key, hpad, h.value, htail, hline, hnone⟩, ⟨rfl, rfl, rfl, hnotes⟩, ?_⟩
  rw [Line.text, ← hjoin, rowLines_eq]
  simp only [String.toList_append, List.append_assoc, List.cons_append]
  refine congrArg (fun rest => '\n' :: (_ ++ (_ ++ rest))) ((congrArg (· ++ ['\n']) hshown).trans ?_)
  simp [htext]

/-! ## All rows -/

theorem length_runColumns {α : Type} (joins : α → α → Bool) (measure : α → Nat) (xs : List α) :
    (runColumns joins measure xs).length = xs.length := by
  have hall : ∀ runs : List (List α),
      (runs.flatMap fun run => List.replicate run.length (greatest (run.map measure))).length = runs.flatten.length := by
    intro runs
    induction runs with
    | nil => rfl
    | cons run runs ih => simp [ih]
  rw [runColumns, hall, List.flatten_splitBy]

theorem length_valueColumns (align : Bool) (rows : List Row) : (valueColumns align rows).length = rows.length := by
  cases align <;> simp [valueColumns, length_runColumns]

theorem length_commentColumns (align : Bool) (rows : List (Row × String)) :
    (commentColumns align rows).length = rows.length := by
  cases align <;> simp [commentColumns, length_runColumns]

/-- Rows in some columns. -/
theorem exists_lines_of_columns {rows : List Row} (h : ∀ r ∈ rows, r.IsSound) {indent : String}
    (hindent : ∀ c ∈ indent.toList, isLineBlank c) {columns columns' : List Nat} (hlength : columns.length = rows.length)
    (hlength' : columns'.length = rows.length) : ∃ ls : List Line, (∀ l ∈ ls, l.IsSound) ∧
      List.Forall₂ Row.IsShown ls rows ∧
      '\n' :: (String.join ((((rows.zip columns).map fun (r, column) => (r, rowText r column)).zip columns').map
        fun ((r, text), column) => rowLines indent r text column)).toList = Line.texts ls ++ ['\n'] := by
  induction rows generalizing columns columns' with
  | nil => exact ⟨[], by simp, .nil, rfl⟩
  | cons r rows ih =>
    obtain ⟨column, columns, rfl⟩ := List.exists_cons_of_length_eq_add_one hlength
    obtain ⟨column', columns', rfl⟩ := List.exists_cons_of_length_eq_add_one hlength'
    obtain ⟨l, hl, hshown, htext⟩ := (h r (by simp)).exists_line hindent column column'
    obtain ⟨ls, hls, hall, htexts⟩ := ih (fun r' hr' => h r' (by simp [hr'])) (Nat.succ.inj hlength) (Nat.succ.inj hlength')
    refine ⟨l :: ls, by simpa [or_imp, forall_and] using ⟨hl, hls⟩, .cons hshown hall, ?_⟩
    rw [Line.texts_cons, List.append_assoc, ← htexts]
    simp only [List.zip_cons_cons, List.map_cons, String.join_cons, String.toList_append]
    rw [← List.cons_append, htext, List.append_assoc]
    rfl

/-- The lines of rows, from the newline before the first one on. -/
theorem exists_lines {rows : List Row} (h : ∀ r ∈ rows, r.IsSound) {indent : String}
    (hindent : ∀ c ∈ indent.toList, isLineBlank c) (align : Bool) : ∃ ls : List Line, (∀ l ∈ ls, l.IsSound) ∧
      List.Forall₂ Row.IsShown ls rows ∧
      '\n' :: (renderRows indent align rows).toList = Line.texts ls ++ ['\n'] := by
  refine exists_lines_of_columns h hindent (length_valueColumns align rows) ?_
  rw [length_commentColumns]
  simp [length_valueColumns]

end LiteralFill
