import LiteralFill.Proofs.Filled.Zero
import LiteralFill.Proofs.Layout.Runs

/-!
What alignment does to the lines of a literal. The lines are written from rows in which the spaces after the key and
before the comment are numbers. Aligned or not, the rows are the same but for these numbers: they are all one when
nothing is aligned, and those that align are just what puts the values, and the comments, of a run in one column.
-/

namespace LiteralFill

/-! ## Rows with the spaces in them -/

/-- A row with the spaces between the colon and the value, and those between the comma and the comment. -/
structure LaidRow (ν : Type) where
  leading : List String
  key : String
  gap : Nat
  value : ν
  comment : Option (Nat × String)

/-- A value with the spaces in it. -/
inductive LaidValue
  | text (text : String)
  | literal (type : String) (rows : List (LaidRow LaidValue))
  deriving Inhabited

def spaces (n : Nat) : String := String.ofList (List.replicate n ' ')

namespace LaidRow

variable {ν μ : Type}

def setValue (r : LaidRow ν) (value : μ) : LaidRow μ := ⟨r.leading, r.key, r.gap, value, r.comment⟩

/-- The row with one space in the place of each gap. -/
def tighten (r : LaidRow ν) : LaidRow ν := ⟨r.leading, r.key, 1, r.value, r.comment.map fun c => (1, c.2)⟩

/-- What stands before the value. -/
def label (r : LaidRow ν) : String := r.key ++ ":" ++ spaces r.gap

/-- The row up to the comma. -/
def text (r : LaidRow String) : String := r.label ++ r.value ++ ","

/-- What stands before the comment. -/
def beforeComment (r : LaidRow String) : String := r.text ++ r.comment.elim "" fun c => spaces c.1

/-- The lines of the row. -/
def lines (indent : String) (r : LaidRow String) : String :=
  String.join (r.leading.map fun c => indent ++ c ++ "\n") ++ indent ++
    (r.beforeComment ++ r.comment.elim "" fun c => c.2) ++ "\n"

def IsOneLine (r : LaidRow String) : Prop := '\n' ∉ r.value.toList

end LaidRow

mutual

/-- The text of a value in a line with this indentation. -/
def LaidValue.write (unit indent : String) : LaidValue → String
  | .text t => t
  | .literal type rows => type ++ "\x7b\n" ++ writeRows unit (indent ++ unit) rows ++ indent ++ "\x7d"

/-- The lines of rows. -/
def writeRows (unit indent : String) : List (LaidRow LaidValue) → String
  | [] => ""
  | ⟨leading, key, gap, value, comment⟩ :: rest =>
    LaidRow.lines indent ⟨leading, key, gap, value.write unit indent, comment⟩ ++ writeRows unit indent rest

end

mutual

/-- The value with one space in the place of each gap, at every level. -/
def LaidValue.tight : LaidValue → LaidValue
  | .text t => .text t
  | .literal type rows => .literal type (tightRows rows)

def tightRows : List (LaidRow LaidValue) → List (LaidRow LaidValue)
  | [] => []
  | ⟨leading, key, gap, value, comment⟩ :: rest =>
    LaidRow.tighten ⟨leading, key, gap, value.tight, comment⟩ :: tightRows rest

end

/-- The text from the opening through the closing brace, with comments below the rows. -/
def writeLiteral (unit base : String) (rows : List (LaidRow LaidValue)) (dangling : List String) : String :=
  if rows.isEmpty && dangling.isEmpty then "\x7b\x7d"
  else
    "\x7b\n" ++ writeRows unit (base ++ unit) rows ++ String.join (dangling.map fun c => base ++ unit ++ c ++ "\n") ++
      base ++ "\x7d"

/-- The row with the text of its value. -/
def LaidRow.shown (unit indent : String) (r : LaidRow LaidValue) : LaidRow String :=
  r.setValue (r.value.write unit indent)

theorem writeRows_eq (unit indent : String) (rows : List (LaidRow LaidValue)) :
    writeRows unit indent rows = String.join ((rows.map (LaidRow.shown unit indent)).map (LaidRow.lines indent)) := by
  induction rows with
  | nil => rfl
  | cons r rows ih => rw [writeRows, ih, List.map_cons, List.map_cons, String.join_cons]; rfl

theorem tightRows_eq (rows : List (LaidRow LaidValue)) :
    tightRows rows = rows.map fun r => r.tighten.setValue r.value.tight := by
  induction rows with
  | nil => rfl
  | cons r rows ih => rw [tightRows, ih, List.map_cons]; rfl

/-! ## Rows in columns -/

/-- The rows of one level stand in columns, which are counted from the indentation on. Rows with several lines have
single spaces. -/
structure InColumns (rows : List (LaidRow String)) : Prop where
  values : SharesColumns LaidRow.IsOneLine (·.leading ≠ []) (width ·.key) (width ·.label) 2 rows
  comments : SharesColumns (fun r => r.IsOneLine ∧ r.comment.isSome) (·.leading ≠ []) (width ·.text)
    (width ·.beforeComment) 1 rows
  multiline : ∀ r ∈ rows, ¬ r.IsOneLine → r.tighten = r
  spaced : ∀ r ∈ rows, 0 < r.gap ∧ ∀ c ∈ r.comment, 0 < c.1

/-- Rows stand in columns, and so do those of the literals in them at every level. -/
inductive IsAligned (unit : String) : String → List (LaidRow LaidValue) → Prop
  | intro {indent : String} {rows : List (LaidRow LaidValue)}
      (columns : InColumns (rows.map (LaidRow.shown unit indent)))
      (inner : ∀ r ∈ rows, ∀ type fields, r.value = .literal type fields → IsAligned unit (indent ++ unit) fields) :
      IsAligned unit indent rows

/-! ## The rows that are written -/

/-- The spaces from the end of a text past a column. -/
def gapTo (column : Nat) (text : String) : Nat := column - width text + 1

theorem padTo_space (column : Nat) (text : String) : padTo column text ++ " " = text ++ spaces (gapTo column text) := by
  rw [padTo, String.append_assoc, gapTo, spaces, List.replicate_succ', String.ofList_append]

theorem gapTo_of_le {column : Nat} {text : String} (h : column ≤ width text) : gapTo column text = 1 := by
  rw [gapTo, Nat.sub_eq_zero_of_le h]

theorem width_colon (key : String) : width (key ++ ":") = width key + 1 := by rw [width, String.length_append]; rfl

theorem width_spaces (n : Nat) : width (spaces n) = n := by simp [width, spaces]

/-- A text and the spaces behind it end one past the column. -/
theorem width_gapTo {column : Nat} {text : String} (h : width text ≤ column) :
    width (text ++ spaces (gapTo column text)) = column + 1 := by
  have happend : width (text ++ spaces (gapTo column text)) = width text + gapTo column text := by
    rw [width, String.length_append, ← width, ← width, width_spaces]
  rw [happend, gapTo]
  omega

namespace Row

/-- The row with its value in a column and its comment in another one. -/
def laid (r : Row) (column commentColumn : Nat) : LaidRow String where
  leading := r.leading
  key := r.key
  gap := if r.isMultiline then 1 else gapTo column (r.key ++ ":")
  value := r.value
  comment := r.trailing.map fun c => (gapTo commentColumn (rowText r column), c)

/-- The row with single spaces. -/
def bare (r : Row) : LaidRow String := ⟨r.leading, r.key, 1, r.value, r.trailing.map fun c => (1, c)⟩

variable {r : Row} {column commentColumn : Nat}

theorem isOneLine_laid : (r.laid column commentColumn).IsOneLine ↔ r.isMultiline = false := by
  simp [LaidRow.IsOneLine, isMultiline, laid]

theorem tighten_laid : (r.laid column commentColumn).tighten = r.bare := by
  simp [laid, bare, LaidRow.tighten, Function.comp_def]

/-- A row whose columns are not behind its own texts. -/
theorem laid_eq_bare (h : r.isMultiline = true ∨ column ≤ width r.key + 1)
    (hcomment : commentColumn ≤ width (rowText r column)) : r.laid column commentColumn = r.bare := by
  have hgap : (if r.isMultiline then 1 else gapTo column (r.key ++ ":")) = 1 := by
    split
    · rfl
    · rename_i hlines
      exact gapTo_of_le ((width_colon _).symm ▸ h.resolve_left hlines)
  rw [laid, bare, hgap, gapTo_of_le hcomment]

theorem label_laid (h : r.isMultiline = false) :
    (r.laid column commentColumn).label = r.key ++ ":" ++ spaces (gapTo column (r.key ++ ":")) := by
  simp [LaidRow.label, laid, h]

theorem text_laid : (r.laid column commentColumn).text = rowText r column := by
  rw [LaidRow.text, LaidRow.label, rowText]
  by_cases h : r.isMultiline
  · simp [laid, h]; rfl
  · simp only [laid, h, Bool.false_eq_true, if_false, padTo_space]

theorem beforeComment_laid {c : String} (h : r.trailing = some c) : (r.laid column commentColumn).beforeComment =
    rowText r column ++ spaces (gapTo commentColumn (rowText r column)) := by
  rw [LaidRow.beforeComment, text_laid]
  simp [laid, h]

theorem lines_laid (indent : String) : (r.laid column commentColumn).lines indent =
    rowLines indent r (rowText r column) commentColumn := by
  rw [LaidRow.lines, rowLines_eq, LaidRow.beforeComment, text_laid]
  cases h : r.trailing with
  | none => simp [laid, h]
  | some c => simp [laid, h, padTo_space]

end Row

/-- The rows with the columns of their values and of their comments. -/
def placedRows (align : Bool) (rows : List Row) : List ((Row × Nat) × Nat) :=
  let placed := rows.zip (valueColumns align rows)
  placed.zip (commentColumns align (placed.map fun p => (p.1, rowText p.1 p.2)))

def laidRows (align : Bool) (rows : List Row) : List (LaidRow String) :=
  (placedRows align rows).map fun p => p.1.1.laid p.1.2 p.2

theorem renderRows_eq (indent : String) (align : Bool) (rows : List Row) :
    renderRows indent align rows = String.join ((laidRows align rows).map (LaidRow.lines indent)) := by
  rw [renderRows, laidRows, placedRows, List.zip_map_left, List.map_map, List.map_map]
  refine congrArg String.join (List.map_congr_left fun p _ => ?_)
  exact (Row.lines_laid indent).symm

theorem map_fst_placedRows (align : Bool) (rows : List Row) :
    (placedRows align rows).map Prod.fst = rows.zip (valueColumns align rows) := by
  refine List.map_fst_zip ?_
  rw [length_commentColumns, List.length_map]

theorem map_row_placedRows (align : Bool) (rows : List Row) : (placedRows align rows).map (fun p => p.1.1) = rows := by
  have hfst : (rows.zip (valueColumns align rows)).map Prod.fst = rows :=
    List.map_fst_zip (length_valueColumns align rows).ge
  rw [← map_fst_placedRows, List.map_map] at hfst
  exact hfst

/-! ## The columns of aligned rows -/

theorem sharesColumns_values (rows : List Row) :
    SharesColumns LaidRow.IsOneLine (·.leading ≠ []) (width ·.key) (width ·.label) 2 (laidRows true rows) := by
  have hjoins : ∀ a b : Row, a.sharesValues b = true ↔
      a.isMultiline = false ∧ b.isMultiline = false ∧ ¬ b.leading ≠ [] := fun a b => by
    simp [Row.sharesValues, and_assoc]
  have hpairs := sharesColumns_runColumns hjoins (fun r => width r.key + 1) rows
  have hplaced : rows.zip (runColumns Row.sharesValues (fun r => width r.key + 1) rows) =
      (placedRows true rows).map Prod.fst := (map_fst_placedRows true rows).symm
  rw [hplaced, sharesColumns_map] at hpairs
  rw [laidRows, sharesColumns_map]
  -- the colon is measured with the key, and one space stands behind the column
  refine hpairs.shift (k := 1) (fun p => Row.isOneLine_laid) (fun p _ => rfl) fun p hp hle => ?_
  rw [Row.label_laid hp]
  exact width_gapTo ((width_colon _).trans_le hle)

/-- The texts of aligned rows with the columns of their comments. -/
theorem map_text_placedRows (rows : List Row) : ∃ texts : List (Row × String),
    (placedRows true rows).map (fun p => ((p.1.1, rowText p.1.1 p.1.2), p.2)) =
      texts.zip (runColumns (fun a b => a.1.sharesComments b.1)
        (fun p => if p.1.isCommented then width p.2 else 0) texts) := by
  refine ⟨(rows.zip (valueColumns true rows)).map fun p => (p.1, rowText p.1 p.2), ?_⟩
  rw [placedRows, List.zip_map_left]
  rfl

theorem sharesComments_iff (a b : Row × String) : a.1.sharesComments b.1 = true ↔
    a.1.isCommented = true ∧ b.1.isCommented = true ∧ ¬ b.1.leading ≠ [] := by
  simp [Row.sharesComments, and_assoc]

theorem sharesColumns_comments (rows : List Row) :
    SharesColumns (fun r => r.IsOneLine ∧ r.comment.isSome) (·.leading ≠ []) (width ·.text) (width ·.beforeComment) 1
      (laidRows true rows) := by
  obtain ⟨texts, htexts⟩ := map_text_placedRows rows
  have hpairs := sharesColumns_runColumns sharesComments_iff
    (fun p => if p.1.isCommented then width p.2 else 0) texts
  rw [← htexts, sharesColumns_map] at hpairs
  rw [laidRows, sharesColumns_map]
  refine hpairs.shift (k := 1) (fun p => ?_) (fun p hp => ?_) fun p hp hle => ?_
  · rw [Row.isOneLine_laid, Row.isCommented, Bool.and_eq_true, Bool.not_eq_true', and_comm]
    simp [Row.laid]
  · rw [Row.text_laid, if_pos hp]
  · rw [if_pos hp] at hle
    obtain ⟨c, hc⟩ := Option.isSome_iff_exists.mp (Bool.and_eq_true_iff.mp hp).1
    rw [Row.beforeComment_laid hc, width_gapTo hle]

/-- A row with several lines is in no run of comments. -/
theorem commentColumn_of_multiline {rows : List Row} {p : (Row × Nat) × Nat} (hp : p ∈ placedRows true rows)
    (hlines : p.1.1.isMultiline = true) : p.2 = 0 := by
  obtain ⟨texts, htexts⟩ := map_text_placedRows rows
  have hpair : ((p.1.1, rowText p.1.1 p.1.2), p.2) ∈ texts.zip (runColumns (fun a b => a.1.sharesComments b.1)
      (fun p => if p.1.isCommented then width p.2 else 0) texts) :=
    htexts ▸ List.mem_map_of_mem hp
  have hcommented : ¬ p.1.1.isCommented = true := by simp [Row.isCommented, hlines]
  exact (runColumns_of_not_belongs sharesComments_iff hpair hcommented).trans (if_neg hcommented)

theorem inColumns_laidRows (rows : List Row) : InColumns (laidRows true rows) where
  values := sharesColumns_values rows
  comments := sharesColumns_comments rows
  multiline := by
    intro r hr hlines
    obtain ⟨p, hp, rfl⟩ := List.mem_map.mp hr
    rw [Row.isOneLine_laid, Bool.not_eq_false] at hlines
    have hcolumn := commentColumn_of_multiline hp hlines
    rw [Row.tighten_laid, Row.laid_eq_bare (.inl hlines) (hcolumn ▸ Nat.zero_le _)]
  spaced := by
    intro r hr
    obtain ⟨p, -, rfl⟩ := List.mem_map.mp hr
    refine ⟨?_, fun c hc => ?_⟩
    · show 0 < if p.1.1.isMultiline then 1 else gapTo p.1.2 (p.1.1.key ++ ":")
      split
      · exact Nat.one_pos
      · exact Nat.succ_pos _
    · obtain ⟨text, -, rfl⟩ := Option.map_eq_some_iff.mp hc
      exact Nat.succ_pos _

/-! ## Single spaces -/

mutual

/-- A zero value with single spaces. -/
def bareValue : ZeroExpr → LaidValue
  | .text t => .text t
  | .composite type fields => .literal type (bareFields fields)

def bareFields : List (String × ZeroExpr) → List (LaidRow LaidValue)
  | [] => []
  | (name, value) :: rest => ⟨[], name, 1, bareValue value, none⟩ :: bareFields rest

end

def entryValue (e : MergedEntry) : LaidValue :=
  match e.value with
  | .source text => .text text
  | .zero expr => bareValue expr

/-- An entry with single spaces. -/
def bareRow (e : MergedEntry) : LaidRow LaidValue :=
  ⟨e.leading, e.name, 1, entryValue e, e.trailing.map fun c => (1, c)⟩

/-- What is not aligned is written with single spaces. -/
theorem laidRows_false (rows : List Row) : laidRows false rows = rows.map Row.bare := by
  have hplaced : placedRows false rows = rows.map fun r =>
      ((r, width r.key + 1), if r.isCommented then width (rowText r (width r.key + 1)) else 0) := by
    simp only [placedRows, valueColumns, commentColumns, Bool.false_eq_true, if_false, ← List.map_prod_left_eq_zip,
      List.map_map]
    exact List.zip_map'
  rw [laidRows, hplaced, List.map_map]
  refine List.map_congr_left fun r _ => Row.laid_eq_bare (.inr Nat.le.refl) ?_
  show (if r.isCommented then width (rowText r (width r.key + 1)) else 0) ≤ width (rowText r (width r.key + 1))
  split
  · exact Nat.le.refl
  · exact Nat.zero_le _

mutual

theorem renderZero_false (unit indent : String) (e : ZeroExpr) :
    renderZero unit false indent e = (bareValue e).write unit indent := by
  cases e with
  | text t => rw [renderZero, bareValue, LaidValue.write]
  | composite type fields =>
    rw [renderZero, bareValue, LaidValue.write, renderRows_eq, laidRows_false, map_bare_zeroRows, ← writeRows_eq]

theorem map_bare_zeroRows (unit indent : String) (fields : List (String × ZeroExpr)) :
    (zeroRows unit false indent fields).map Row.bare = (bareFields fields).map (LaidRow.shown unit indent) := by
  cases fields with
  | nil => rfl
  | cons field fields =>
    obtain ⟨name, value⟩ := field
    rw [zeroRows, bareFields, List.map_cons, List.map_cons, map_bare_zeroRows unit indent fields,
      renderZero_false unit indent value]
    rfl

end

/-! ## Aligned values -/

/-- A value at this indentation whose rows stand in columns at every level. -/
structure IsLaidOut (unit indent : String) (text : String) (bare v : LaidValue) : Prop where
  text : v.write unit indent = text
  tight : v.tight = bare
  inner : ∀ type fields, v = .literal type fields → IsAligned unit (indent ++ unit) fields

/-- The rows that are written, each with what it comes from. -/
theorem exists_placed {ε : Type} (es : List ε) (row : ε → Row) : ∃ placed : List (ε × (Row × Nat) × Nat),
    placed.map Prod.fst = es ∧ placed.map Prod.snd = placedRows true (es.map row) ∧
      ∀ p ∈ placed, p.2.1.1 = row p.1 := by
  have hrows : (placedRows true (es.map row)).map (fun p => p.1.1) = es.map row := map_row_placedRows true (es.map row)
  have hlength : es.length = (placedRows true (es.map row)).length := by
    simpa using (congrArg List.length hrows).symm
  have hfst := List.map_fst_zip hlength.le
  have hsnd := List.map_snd_zip hlength.ge
  refine ⟨es.zip (placedRows true (es.map row)), hfst, hsnd, List.map_inj_left.mp ?_⟩
  calc (es.zip (placedRows true (es.map row))).map (fun p => p.2.1.1)
    _ = ((es.zip (placedRows true (es.map row))).map Prod.snd).map (fun p => p.1.1) := by rw [List.map_map]; rfl
    _ = ((es.zip (placedRows true (es.map row))).map Prod.fst).map row := by rw [hsnd, hrows, hfst]
    _ = (es.zip (placedRows true (es.map row))).map (fun p => row p.1) := by rw [List.map_map]; rfl

/-- Rows whose values are laid out stand in columns at every level. -/
theorem exists_aligned {ε : Type} {unit indent : String} {es : List ε} {row : ε → Row} {bare : ε → LaidValue}
    (h : ∀ e ∈ es, ∃ v, IsLaidOut unit indent (row e).value (bare e) v) :
    ∃ rows, tightRows rows = es.map (fun e => (row e).bare.setValue (bare e)) ∧ IsAligned unit indent rows ∧
      renderRows indent true (es.map row) = writeRows unit indent rows := by
  choose! v hv using h
  obtain ⟨placed, hes, hplaced, hrow⟩ := exists_placed es row
  have hmem : ∀ p ∈ placed, p.1 ∈ es := fun p hp => hes ▸ List.mem_map_of_mem hp
  let rows := placed.map fun p => (p.2.1.1.laid p.2.1.2 p.2.2).setValue (v p.1)
  have hshown : rows.map (LaidRow.shown unit indent) = laidRows true (es.map row) := by
    rw [laidRows, ← hplaced, List.map_map, List.map_map]
    refine List.map_congr_left fun p hp => ?_
    show (p.2.1.1.laid p.2.1.2 p.2.2).setValue ((v p.1).write unit indent) = p.2.1.1.laid p.2.1.2 p.2.2
    rw [(hv p.1 (hmem p hp)).text, ← hrow p hp]
    rfl
  refine ⟨rows, ?_, ⟨hshown ▸ inColumns_laidRows _, ?_⟩, ?_⟩
  · rw [tightRows_eq, List.map_map, ← congrArg (List.map _) hes, List.map_map]
    refine List.map_congr_left fun p hp => ?_
    show (p.2.1.1.laid p.2.1.2 p.2.2).tighten.setValue (v p.1).tight = (row p.1).bare.setValue (bare p.1)
    rw [Row.tighten_laid, (hv p.1 (hmem p hp)).tight, hrow p hp]
  · intro r hr
    obtain ⟨p, hp, rfl⟩ := List.mem_map.mp hr
    exact (hv p.1 (hmem p hp)).inner
  · rw [renderRows_eq, writeRows_eq, hshown]

theorem bareFields_eq (fields : List (String × ZeroExpr)) :
    bareFields fields = fields.map fun f => ⟨[], f.1, 1, bareValue f.2, none⟩ := by
  induction fields with
  | nil => rfl
  | cons field fields ih => rw [bareFields, ih, List.map_cons]

mutual

theorem exists_isLaidOut (unit indent : String) (e : ZeroExpr) :
    ∃ v, IsLaidOut unit indent (renderZero unit true indent e) (bareValue e) v := by
  cases e with
  | text t => exact ⟨.text t, by rw [renderZero, LaidValue.write], by rw [LaidValue.tight, bareValue], by simp⟩
  | composite type fields =>
    obtain ⟨rows, htight, haligned, hwrite⟩ := exists_aligned (exists_isLaidOut_fields unit (indent ++ unit) fields)
    refine ⟨.literal type rows, ?_, ?_, ?_⟩
    · rw [renderZero, LaidValue.write, zeroRows_eq, ← hwrite]
    · rw [LaidValue.tight, bareValue, bareFields_eq, htight]
      rfl
    · rintro type' rows' ⟨⟩
      exact haligned

theorem exists_isLaidOut_fields (unit indent : String) (fields : List (String × ZeroExpr)) :
    ∀ f ∈ fields, ∃ v, IsLaidOut unit indent
      (Row.mk [] f.1 (renderZero unit true indent f.2) none).value (bareValue f.2) v := by
  cases fields with
  | nil => simp
  | cons field fields =>
    exact List.forall_mem_cons.mpr ⟨exists_isLaidOut unit indent field.2, exists_isLaidOut_fields unit indent fields⟩

end

/-! ## The whole literal -/

theorem render_eq {merged : Merged} {base : String} {layout : Layout} {rows : List (LaidRow LaidValue)}
    (hempty : rows.isEmpty = merged.entries.isEmpty)
    (hrows : renderRows (base ++ layout.indent.unit) layout.align
        (merged.entries.map (entryRow layout (base ++ layout.indent.unit))) =
      writeRows layout.indent.unit (base ++ layout.indent.unit) rows) :
    render merged base layout = writeLiteral layout.indent.unit base rows merged.dangling := by
  rw [render, writeLiteral, hempty]
  show (if _ then _ else "\x7b\n" ++ renderRows _ _ _ ++ _ ++ _ ++ _) = _
  rw [hrows]

theorem shown_bareRow (style : IndentStyle) (indent : String) (e : MergedEntry) :
    (entryRow ⟨style, false⟩ indent e).bare = (bareRow e).shown style.unit indent := by
  obtain ⟨name, value, leading, trailing⟩ := e
  cases value with
  | source text => simp [entryRow, Row.bare, bareRow, LaidRow.shown, LaidRow.setValue, entryValue, LaidValue.write]
  | zero expr =>
    simp [entryRow, Row.bare, bareRow, LaidRow.shown, LaidRow.setValue, entryValue, renderZero_false]

theorem exists_isLaidOut_entry (style : IndentStyle) (indent : String) (e : MergedEntry) :
    ∃ v, IsLaidOut style.unit indent (entryRow ⟨style, true⟩ indent e).value (entryValue e) v := by
  obtain ⟨name, value, leading, trailing⟩ := e
  cases value with
  | source text => exact ⟨.text text, by rw [LaidValue.write]; rfl, by rw [LaidValue.tight]; rfl, by simp⟩
  | zero expr => exact exists_isLaidOut style.unit indent expr

/-- Alignment adds spaces, and the right number of them. The literal is written from rows that are the same with and
without alignment, at every level, but for the spaces after the keys and before the comments: these are single ones
without alignment, and put the values and the comments of each maximal run in one column with it. -/
theorem render_aligned (merged : Merged) (base : String) (indent : IndentStyle) :
    ∃ rows : List (LaidRow LaidValue),
      tightRows rows = merged.entries.map bareRow ∧
      IsAligned indent.unit (base ++ indent.unit) rows ∧
      render merged base ⟨indent, true⟩ = writeLiteral indent.unit base rows merged.dangling ∧
      render merged base ⟨indent, false⟩ =
        writeLiteral indent.unit base (merged.entries.map bareRow) merged.dangling := by
  obtain ⟨rows, htight, haligned, hwrite⟩ := exists_aligned fun e (_ : e ∈ merged.entries) =>
    exists_isLaidOut_entry indent (base ++ indent.unit) e
  have hrows : tightRows rows = merged.entries.map bareRow := htight
  have hempty : rows.isEmpty = merged.entries.isEmpty := by
    rw [← List.isEmpty_map (f := bareRow), ← hrows, tightRows_eq, List.isEmpty_map]
  have hbare : (merged.entries.map (entryRow ⟨indent, false⟩ (base ++ indent.unit))).map Row.bare =
      (merged.entries.map bareRow).map (LaidRow.shown indent.unit (base ++ indent.unit)) := by
    rw [List.map_map, List.map_map]
    exact List.map_congr_left fun e _ => shown_bareRow indent (base ++ indent.unit) e
  refine ⟨rows, hrows, haligned, render_eq hempty hwrite, render_eq List.isEmpty_map ?_⟩
  rw [renderRows_eq, laidRows_false, writeRows_eq, hbare]

/-- Two fields with comments behind their values, and one that begins a new run. -/
def serverFields : Merged where
  entries :=
    [⟨"Host", .source "host", [], some "// a", true⟩, ⟨"Timeout", .source "0", [], some "// b", true⟩,
      ⟨"Log", .zero (.text "nil"), ["// c"], none, false⟩]
  dangling := []
  imports := []

example : render serverFields "" ⟨.tab, true⟩ =
    "\x7b\n\tHost:    host, // a\n\tTimeout: 0,    // b\n\t// c\n\tLog: nil,\n\x7d" := by
  decide +kernel

end LiteralFill
