import LiteralFill.Fill.Zero
import Mathlib.Tactic.Tauto

/-!
Zero values with the names that stand in them. A text is worded in pieces, of which some are names of declared types;
writing the pieces for a file gives the text. The names that are asked for on the way to a zero value are those that
stand in it, and those of declared types that are spelled and then not used, because they stand for neither a struct
nor an array.
-/

namespace LiteralFill

/-! ## Wordings -/

/-- A piece of a text: as it stands, a function or interface type as it is written where it is declared, or the name
of a declared type. -/
inductive Piece
  | text (text : String)
  | form (text : String)
  | name (name : TypeName)

/-- A text in pieces. -/
abbrev Wording := List Piece

namespace Wording

/-- The text in a file that refers to types in this way. -/
def write (q : Qualifier) : Wording → String
  | [] => ""
  | .text t :: rest => t ++ write q rest
  | .form t :: rest => t ++ write q rest
  | .name n :: rest => showName q n ++ write q rest

/-- The names that stand in the text, in order. -/
def names : Wording → List TypeName
  | [] => []
  | .text _ :: rest => names rest
  | .form _ :: rest => names rest
  | .name n :: rest => n :: names rest

/-- The function and interface types that stand in the text. -/
def forms : Wording → List String
  | [] => []
  | .text _ :: rest => forms rest
  | .form t :: rest => t :: forms rest
  | .name _ :: rest => forms rest

@[simp] theorem write_nil (q : Qualifier) : write q [] = "" := rfl

@[simp] theorem write_text (q : Qualifier) (t : String) (w : Wording) : write q (.text t :: w) = t ++ write q w := rfl

@[simp] theorem write_form (q : Qualifier) (t : String) (w : Wording) : write q (.form t :: w) = t ++ write q w := rfl

@[simp] theorem write_name (q : Qualifier) (n : TypeName) (w : Wording) :
    write q (.name n :: w) = showName q n ++ write q w := rfl

@[simp] theorem write_append (q : Qualifier) (v w : Wording) : write q (v ++ w) = write q v ++ write q w := by
  induction v with
  | nil => simp
  | cons p rest ih => cases p <;> simp [ih, String.append_assoc]

@[simp] theorem names_nil : names [] = [] := rfl

@[simp] theorem names_text (t : String) (w : Wording) : names (.text t :: w) = names w := rfl

@[simp] theorem names_form (t : String) (w : Wording) : names (.form t :: w) = names w := rfl

@[simp] theorem names_name (n : TypeName) (w : Wording) : names (.name n :: w) = n :: names w := rfl

@[simp] theorem names_append (v w : Wording) : names (v ++ w) = names v ++ names w := by
  induction v with
  | nil => rfl
  | cons p rest ih => cases p <;> simp [ih]

/-- An empty literal of a type. -/
def emptied (w : Wording) : Wording := w ++ [.text "\x7b\x7d"]

@[simp] theorem write_emptied (q : Qualifier) (w : Wording) : w.emptied.write q = emptyLiteral (w.write q) := by
  simp [emptied, emptyLiteral]

@[simp] theorem names_emptied (w : Wording) : w.emptied.names = w.names := by simp [emptied]

/-- A text a number of times, with commas between. -/
def repeated (w : Wording) : Nat → Wording
  | 0 => []
  | 1 => w
  | n + 2 => w ++ .text ", " :: repeated w (n + 1)

theorem write_repeated (q : Qualifier) (w : Wording) (n : Nat) :
    (w.repeated n).write q = ", ".intercalate (List.replicate n (w.write q)) := by
  induction n using repeated.induct with
  | case1 => rfl
  | case2 => simp [repeated]
  | case3 n ih =>
    have hmore : List.replicate (n + 1) (w.write q) ≠ [] := by simp
    rw [repeated, write_append, write_text, ih, List.replicate_succ (n := n + 1),
      String.intercalate_cons_of_ne_nil hmore, String.append_assoc]

/-- A text that stands somewhere at least once has the names of the one. -/
theorem mem_names_repeated {w : Wording} {n : Nat} (hn : 0 < n) {m : TypeName} :
    m ∈ (w.repeated n).names ↔ m ∈ w.names := by
  induction n using repeated.induct with
  | case1 => cases hn
  | case2 => rfl
  | case3 n ih => simp [repeated, ih (Nat.succ_pos n)]

end Wording

namespace Ty

mutual

/-- A type in pieces. -/
def wording : Ty → Wording
  | primitive .pointer => [.name pointerName]
  | primitive p => [.text p.name]
  | named n [] _ => [.name n]
  | named n (a :: rest) _ => .name n :: .text "[" :: (wording a ++ wordingMore rest ++ [.text "]"])
  | unseen n => [.name n]
  | pointer t => .text "*" :: wording t
  | slice t => .text "[]" :: wording t
  | array l t => .text "[" :: .text l.text :: .text "]" :: wording t
  | map k v => .text "map[" :: (wording k ++ .text "]" :: wording v)
  | chan d t => .text d.text :: wording t
  | struct [] => [.text "struct\x7b\x7d"]
  | struct (f :: rest) => .text "struct\x7b " :: (wordingField f ++ wordingMoreFields rest ++ [.text " \x7d"])
  | interface t => [.form t]
  | func t => [.form t]
  | param t => [.text t]

def wordingMore : List Ty → Wording
  | [] => []
  | a :: rest => .text ", " :: (wording a ++ wordingMore rest)

def wordingField : Field Ty → Wording
  | ⟨name, t, embedded, tag⟩ =>
    (if embedded then wording t else .text name :: .text " " :: wording t) ++
      match tag with
      | some text => [.text " ", .text text]
      | none => []

def wordingMoreFields : List (Field Ty) → Wording
  | [] => []
  | f :: rest => .text "; " :: (wordingField f ++ wordingMoreFields rest)

end

mutual

/-- A type in pieces is written as it is displayed. -/
theorem write_wording (q : Qualifier) : ∀ t : Ty, t.wording.write q = t.display q
  | primitive p => by cases p <;> simp [wording, display]
  | named n [] _ => by simp [wording, display]
  | named n (a :: rest) _ => by
    simp [wording, display, write_wording q a, write_wordingMore q rest, String.append_assoc]
  | unseen n => by simp [wording, display]
  | pointer t => by simp [wording, display, write_wording q t]
  | slice t => by simp [wording, display, write_wording q t]
  | array l t => by simp [wording, display, write_wording q t, String.append_assoc]
  | map k v => by simp [wording, display, write_wording q k, write_wording q v, String.append_assoc]
  | chan d t => by simp [wording, display, write_wording q t]
  | struct [] => by simp [wording, display]
  | struct (f :: rest) => by
    simp [wording, display, write_wordingField q f, write_wordingMoreFields q rest, String.append_assoc]
  | interface t => by simp [wording, display]
  | func t => by simp [wording, display]
  | param t => by simp [wording, display]

theorem write_wordingMore (q : Qualifier) : ∀ ts : List Ty, (wordingMore ts).write q = displayMore q ts
  | [] => rfl
  | a :: rest => by simp [wordingMore, displayMore, write_wording q a, write_wordingMore q rest, String.append_assoc]

theorem write_wordingField (q : Qualifier) : ∀ f : Field Ty, (wordingField f).write q = displayField q f
  | ⟨name, t, embedded, tag⟩ => by
    cases embedded <;> cases tag <;> simp [wordingField, displayField, write_wording q t, String.append_assoc]

theorem write_wordingMoreFields (q : Qualifier) :
    ∀ fields : List (Field Ty), (wordingMoreFields fields).write q = displayMoreFields q fields
  | [] => rfl
  | f :: rest => by
    simp [wordingMoreFields, displayMoreFields, write_wordingField q f, write_wordingMoreFields q rest, String.append_assoc]

end

mutual

/-- The names in a type are those that the qualifier is asked for. -/
theorem names_wording : ∀ t : Ty, t.wording.names = t.namesShown
  | primitive p => by cases p <;> simp [wording, namesShown]
  | named n [] _ => by simp [wording, namesShown, namesShownAll]
  | named n (a :: rest) _ => by simp [wording, namesShown, namesShownAll, names_wording a, names_wordingMore rest]
  | unseen n => by simp [wording, namesShown]
  | pointer t => by simp [wording, namesShown, names_wording t]
  | slice t => by simp [wording, namesShown, names_wording t]
  | array l t => by simp [wording, namesShown, names_wording t]
  | map k v => by simp [wording, namesShown, names_wording k, names_wording v]
  | chan d t => by simp [wording, namesShown, names_wording t]
  | struct [] => by simp [wording, namesShown, namesShownFields]
  | struct (f :: rest) => by
    simp [wording, namesShown, namesShownFields, names_wordingField f, names_wordingMoreFields rest]
  | interface t => by simp [wording, namesShown]
  | func t => by simp [wording, namesShown]
  | param t => by simp [wording, namesShown]

theorem names_wordingMore : ∀ ts : List Ty, (wordingMore ts).names = namesShownAll ts
  | [] => rfl
  | a :: rest => by simp [wordingMore, namesShownAll, names_wording a, names_wordingMore rest]

theorem names_wordingField : ∀ f : Field Ty, (wordingField f).names = namesShownField f
  | ⟨name, t, embedded, tag⟩ => by
    cases embedded <;> cases tag <;> simp [wordingField, namesShownField, names_wording t]

theorem names_wordingMoreFields : ∀ fields : List (Field Ty), (wordingMoreFields fields).names = namesShownFields fields
  | [] => rfl
  | f :: rest => by
    simp [wordingMoreFields, namesShownFields, names_wordingField f, names_wordingMoreFields rest]

end

end Ty

/-! ## Zero values in pieces -/

/-- A zero value in pieces. -/
inductive Worded
  | text (w : Wording)
  | composite (type : Wording) (fields : List (String × Worded))

namespace Worded

/-- The value on one line. -/
def oneLine : Worded → Wording
  | text w => w
  | composite type _ => type.emptied

mutual

/-- The value in a file that refers to types in this way. -/
def write (q : Qualifier) : Worded → ZeroExpr
  | text w => .text (w.write q)
  | composite type fields => .composite (type.write q) (writeFields q fields)

def writeFields (q : Qualifier) : List (String × Worded) → List (String × ZeroExpr)
  | [] => []
  | (name, value) :: rest => (name, value.write q) :: writeFields q rest

end

mutual

/-- The names that stand in the value, that of a literal's type before those in its fields. -/
def names : Worded → List TypeName
  | text w => w.names
  | composite type fields => type.names ++ namesOfFields fields

def namesOfFields : List (String × Worded) → List TypeName
  | [] => []
  | (_, value) :: rest => value.names ++ namesOfFields rest

end

mutual

/-- The function and interface types that stand in the value. -/
def forms : Worded → List String
  | text w => w.forms
  | composite type fields => type.forms ++ formsOfFields fields

def formsOfFields : List (String × Worded) → List String
  | [] => []
  | (_, value) :: rest => value.forms ++ formsOfFields rest

end

theorem write_oneLine (q : Qualifier) (v : Worded) : v.oneLine.write q = (v.write q).oneLine := by
  cases v <;> simp [oneLine, write, ZeroExpr.oneLine]

end Worded

namespace Synthesizer

/-- The text of the declared type that stands for another one. -/
def outerText (q : Qualifier) (outer : Option (TypeName × Wording)) : Option (TypeName × String) :=
  outer.map fun o => (o.1, o.2.write q)

/-- The names in the text of the declared type that stands for another one. -/
def outerNames : Option (TypeName × Wording) → List TypeName
  | some o => o.2.names
  | none => []

/-- A literal of an array type with the same element everywhere, or without elements. -/
def arrayWording (z : Synthesizer) (type : Wording) (length : Length) (element : Wording) : Wording :=
  match z.lists length with
  | some n => type ++ .text "\x7b" :: (element.repeated n ++ [.text "\x7d"])
  | none => type.emptied

theorem write_arrayWording (z : Synthesizer) (q : Qualifier) (type : Wording) (length : Length) (element : Wording) :
    (z.arrayWording type length element).write q = z.arrayLiteral (type.write q) length (element.write q) := by
  unfold arrayWording arrayLiteral
  cases z.lists length with
  | none => simp
  | some n => simp [Wording.write_repeated, String.append_assoc]

mutual

/-- The zero value of a type in pieces. -/
def worded (z : Synthesizer) (recurse : Bool) (visiting : List TypeName)
    (outer : Option (TypeName × Wording)) : Ty → Worded
  | .primitive p => .text [.text p.zero]
  | .named n args t =>
    match outer with
    | some o => worded z recurse visiting (some o) t
    | none =>
      if z.wellKnown.contains n.qualified then .text (Ty.named n args t).wording.emptied
      else worded z recurse visiting (some (n, (Ty.named n args t).wording)) t
  | .pointer _ | .slice _ | .map .. | .chan .. | .func _ | .interface _ => .text [.text "nil"]
  | .array length t =>
    let type := (outer.map (·.2)).getD (Ty.array length t).wording
    .text (z.arrayWording type length (worded z false visiting none t).oneLine)
  | .struct fields =>
    match outer with
    | none => .text (Ty.struct fields).wording.emptied
    | some (n, type) =>
      if recurse && !visiting.contains n then
        match wordedFields z recurse (n :: visiting) (n.path == z.packagePath) fields with
        | [] => .text type.emptied
        | values => .composite type values
      else .text type.emptied
  | .param name => .text [.text ("*new(" ++ name ++ ")")]
  | .unseen n => .text (Ty.unseen n).wording.emptied

/-- The zero values of the fields that may be set. -/
def wordedFields (z : Synthesizer) (recurse : Bool) (visiting : List TypeName) (samePackage : Bool) :
    List (Field Ty) → List (String × Worded)
  | [] => []
  | ⟨name, t, _, _⟩ :: rest =>
    let more := wordedFields z recurse visiting samePackage rest
    if isExported name || samePackage then (name, worded z recurse visiting none t) :: more else more

end

mutual

/-- The names that are asked for and do not stand in the zero value for it: those of a declared type that stands
for neither a struct nor an array. -/
def dropped (z : Synthesizer) (recurse : Bool) (visiting : List TypeName)
    (outer : Option (TypeName × Wording)) : Ty → List TypeName
  | .named n args t =>
    match outer with
    | some o => dropped z recurse visiting (some o) t
    | none =>
      if z.wellKnown.contains n.qualified then []
      else dropped z recurse visiting (some (n, (Ty.named n args t).wording)) t
  | .array length t =>
    match z.lists length with
    | some _ => dropped z false visiting none t
    | none => []
  | .struct fields =>
    match outer with
    | none => []
    | some (n, _) =>
      if recurse && !visiting.contains n then
        droppedFields z recurse (n :: visiting) (n.path == z.packagePath) fields
      else []
  | .primitive _ | .pointer _ | .slice _ | .map .. | .chan .. | .func _ | .interface _ | .param _ | .unseen _ =>
    outerNames outer

def droppedFields (z : Synthesizer) (recurse : Bool) (visiting : List TypeName) (samePackage : Bool) :
    List (Field Ty) → List TypeName
  | [] => []
  | ⟨name, t, _, _⟩ :: rest =>
    let more := droppedFields z recurse visiting samePackage rest
    if isExported name || samePackage then dropped z recurse visiting none t ++ more else more

end

variable (z : Synthesizer)

/-! ## The zero value in pieces -/

/-- The value of a declared struct type with values for its fields, if there are any. -/
def structZero (type : String) : List (String × ZeroExpr) → ZeroExpr
  | [] => .text (emptyLiteral type)
  | values => .composite type values

def structWorded (type : Wording) : List (String × Worded) → Worded
  | [] => .text type.emptied
  | values => .composite type values

theorem write_structWorded (q : Qualifier) (type : Wording) (values : List (String × Worded)) :
    (structWorded type values).write q = structZero (type.write q) (Worded.writeFields q values) := by
  cases values with
  | nil => simp [structWorded, structZero, Worded.write, Worded.writeFields]
  | cons value rest => rfl

theorem mem_names_structWorded {type : Wording} {values : List (String × Worded)} {m : TypeName} :
    m ∈ (structWorded type values).names ↔ m ∈ type.names ∨ m ∈ Worded.namesOfFields values := by
  cases values with
  | nil => simp [structWorded, Worded.names, Worded.namesOfFields]
  | cons value rest => simp [structWorded, Worded.names]

theorem zero_structZero (recurse : Bool) (visiting : List TypeName) (n : TypeName) (shown : String)
    (fields : List (Field Ty)) :
    z.zero recurse visiting (some (n, shown)) (.struct fields) =
      if recurse && !visiting.contains n then
        (structZero shown (z.zeroFields recurse (n :: visiting) (n.path == z.packagePath) fields).1,
          (z.zeroFields recurse (n :: visiting) (n.path == z.packagePath) fields).2)
      else (.text (emptyLiteral shown), []) := by
  rw [zero]
  cases z.zeroFields recurse (n :: visiting) (n.path == z.packagePath) fields with
  | mk values names => cases values <;> rfl

theorem worded_structWorded (recurse : Bool) (visiting : List TypeName) (n : TypeName) (type : Wording)
    (fields : List (Field Ty)) :
    z.worded recurse visiting (some (n, type)) (.struct fields) =
      if recurse && !visiting.contains n then
        structWorded type (z.wordedFields recurse (n :: visiting) (n.path == z.packagePath) fields)
      else .text type.emptied := by
  rw [worded]
  cases z.wordedFields recurse (n :: visiting) (n.path == z.packagePath) fields <;> rfl

theorem zero_arrayLiteral (recurse : Bool) (visiting : List TypeName) (outer : Option (TypeName × Wording))
    (length : Length) (t : Ty) :
    (z.zero recurse visiting (outerText z.qualifier outer) (.array length t)).1 =
      .text (z.arrayLiteral (((outer.map (·.2)).getD (Ty.array length t).wording).write z.qualifier) length
        (z.zero false visiting none t).1.oneLine) := by
  cases outer with
  | none =>
    rw [outerText, Option.map_none, zero]
    cases hlists : z.lists length <;> simp [arrayLiteral, hlists, Ty.write_wording]
  | some o =>
    rw [outerText, Option.map_some, zero]
    cases hlists : z.lists length <;> simp [arrayLiteral, hlists]

theorem mem_names_zero_array (recurse : Bool) (visiting : List TypeName) (outer : Option (TypeName × Wording))
    (length : Length) (t : Ty) (m : TypeName) :
    m ∈ (z.zero recurse visiting (outerText z.qualifier outer) (.array length t)).2 ∨ m ∈ outerNames outer ↔
      m ∈ ((outer.map (·.2)).getD (Ty.array length t).wording).names ∨
        (z.lists length).isSome ∧ m ∈ (z.zero false visiting none t).2 := by
  cases outer with
  | none =>
    rw [outerText, Option.map_none, zero]
    cases hlists : z.lists length <;> simp [outerNames, Ty.names_wording]
  | some o =>
    rw [outerText, Option.map_some, zero]
    cases hlists : z.lists length <;> simp [outerNames, or_comm]

mutual

/-- The zero value in pieces is written as the zero value. -/
theorem write_worded (recurse : Bool) (visiting : List TypeName) :
    ∀ (t : Ty) (outer : Option (TypeName × Wording)),
      (z.worded recurse visiting outer t).write z.qualifier =
        (z.zero recurse visiting (outerText z.qualifier outer) t).1
  | .named n args t, outer => by
    have ih := write_worded recurse visiting t
    cases outer with
    | some o => simpa [worded, zero, outerText] using ih (some o)
    | none =>
      rw [worded, outerText, Option.map_none, zero]
      dsimp only
      split
      · simp [Worded.write, Ty.write_wording]
      · simpa [outerText, Ty.write_wording] using ih (some (n, (Ty.named n args t).wording))
  | .array length t, outer => by
    have ih := write_worded false visiting t none
    have helement := Worded.write_oneLine z.qualifier (z.worded false visiting none t)
    rw [ih] at helement
    rw [worded, zero_arrayLiteral, Worded.write, write_arrayWording, helement]
    rfl
  | .struct fields, outer => by
    cases outer with
    | none => simp [worded, zero, outerText, Worded.write, Ty.write_wording]
    | some o =>
      obtain ⟨n, type⟩ := o
      have ih := write_wordedFields recurse (n :: visiting) (n.path == z.packagePath) fields
      rw [worded_structWorded, outerText, Option.map_some, zero_structZero]
      split
      · rw [write_structWorded, ih]
      · simp [Worded.write]
  | .primitive _, _ | .pointer _, _ | .slice _, _ | .map .., _ | .chan .., _ | .func _, _ | .interface _, _
  | .param _, _ | .unseen _, _ => by
    rw [worded, zero]
    simp [Worded.write, Ty.wording]

theorem write_wordedFields (recurse : Bool) (visiting : List TypeName) (samePackage : Bool) :
    ∀ fields : List (Field Ty),
      Worded.writeFields z.qualifier (z.wordedFields recurse visiting samePackage fields) =
        (z.zeroFields recurse visiting samePackage fields).1
  | [] => rfl
  | ⟨name, t, embedded, tag⟩ :: rest => by
    have hvalue := write_worded recurse visiting t none
    have hrest := write_wordedFields recurse visiting samePackage rest
    rw [wordedFields, zeroFields]
    dsimp only
    split
    · rw [Worded.writeFields, hvalue, hrest]
      rfl
    · exact hrest

end

/-! ## The names asked for -/

/-- Without expansion a zero value is one line. -/
theorem names_oneLine_worded (visiting : List TypeName) :
    ∀ (t : Ty) (outer : Option (TypeName × Wording)),
      (z.worded false visiting outer t).oneLine.names = (z.worded false visiting outer t).names
  | .named n args t, outer => by
    have ih := names_oneLine_worded visiting t
    cases outer with
    | some o =>
      rw [worded]
      exact ih _
    | none =>
      rw [worded]
      split
      · rfl
      · exact ih _
  | .struct fields, outer => by cases outer <;> simp [worded, Worded.oneLine, Worded.names]
  | .primitive _, _ | .pointer _, _ | .slice _, _ | .map .., _ | .chan .., _ | .func _, _ | .interface _, _
  | .param _, _ | .unseen _, _ | .array .., _ => by simp [worded, Worded.oneLine, Worded.names]

theorem mem_names_arrayWording {type : Wording} {length : Length} {element : Wording} {m : TypeName} :
    m ∈ (z.arrayWording type length element).names ↔
      m ∈ type.names ∨ (z.lists length).isSome ∧ m ∈ element.names := by
  unfold arrayWording
  cases hlists : z.lists length with
  | none => simp
  | some n =>
    have hn : 0 < n := by
      cases length with
      | symbolic text => cases hlists
      | known k =>
        simp only [lists] at hlists
        split at hlists
        · next h =>
          cases hlists
          simp only [Bool.and_eq_true, decide_eq_true_eq] at h
          exact h.1
        · cases hlists
    simp [Wording.mem_names_repeated hn]

mutual

/-- The names asked for on the way to a zero value, and those in the text of the type around it, are those that
stand in the value and those that are dropped. -/
theorem mem_names_zero (recurse : Bool) (visiting : List TypeName) (m : TypeName) :
    ∀ (t : Ty) (outer : Option (TypeName × Wording)),
      m ∈ (z.zero recurse visiting (outerText z.qualifier outer) t).2 ∨ m ∈ outerNames outer ↔
        m ∈ (z.worded recurse visiting outer t).names ∨ m ∈ z.dropped recurse visiting outer t
  | .named n args t, outer => by
    have ih := mem_names_zero recurse visiting m t
    cases outer with
    | some o => simpa [worded, zero, dropped, outerText] using ih (some o)
    | none =>
      have hinner := ih (some (n, (Ty.named n args t).wording))
      rw [worded, dropped, outerText, Option.map_none, zero]
      dsimp only
      split
      · simp [Worded.names, outerNames, Ty.names_wording]
      · rw [← hinner]
        simp [outerText, outerNames, Ty.names_wording, Ty.write_wording, or_comm]
  | .array length t, outer => by
    have ih := mem_names_zero false visiting m t none
    have hline := z.names_oneLine_worded visiting t none
    rw [worded, dropped, Worded.names, mem_names_arrayWording, hline, mem_names_zero_array]
    cases z.lists length with
    | none => simp
    | some k =>
      simp only [outerText, outerNames, Option.map_none] at ih
      simp only [Option.isSome_some]
      tauto
  | .struct fields, outer => by
    cases outer with
    | none => simp [worded, zero, dropped, outerText, Worded.names, outerNames, Ty.names_wording]
    | some o =>
      obtain ⟨n, type⟩ := o
      have ih := mem_names_zeroFields recurse (n :: visiting) (n.path == z.packagePath) m fields
      rw [worded_structWorded, dropped, outerText, Option.map_some, zero_structZero]
      dsimp only
      split
      · rw [mem_names_structWorded, outerNames]
        tauto
      · simp [Worded.names, outerNames]
  | .primitive _, _ | .pointer _, _ | .slice _, _ | .map .., _ | .chan .., _ | .func _, _ | .interface _, _
  | .param _, _ => by simp [worded, zero, dropped, Worded.names]
  | .unseen _, _ => by simp [worded, zero, dropped, Worded.names, Ty.wording]

theorem mem_names_zeroFields (recurse : Bool) (visiting : List TypeName) (samePackage : Bool) (m : TypeName) :
    ∀ fields : List (Field Ty), m ∈ (z.zeroFields recurse visiting samePackage fields).2 ↔
      m ∈ Worded.namesOfFields (z.wordedFields recurse visiting samePackage fields) ∨
        m ∈ z.droppedFields recurse visiting samePackage fields
  | [] => by simp [zeroFields, wordedFields, Worded.namesOfFields, droppedFields]
  | ⟨name, t, embedded, tag⟩ :: rest => by
    have hvalue := mem_names_zero recurse visiting m t none
    have hrest := mem_names_zeroFields recurse visiting samePackage m rest
    simp only [outerText, outerNames, Option.map_none] at hvalue
    rw [wordedFields, zeroFields, droppedFields]
    dsimp only
    split
    · simp only [Worded.namesOfFields, List.mem_append]
      tauto
    · exact hrest

end

end Synthesizer

end LiteralFill
