import LiteralFill.Proofs.Printed.Arrows

/-!
The text that a type is displayed as is read as a type of the same structure, unless a receiving channel is the
element of a channel in both directions: `chan (<-chan T)` is displayed without the parentheses, and
`chan <-chan T` is a sending channel. Types that are displayed alike have the same structure all the same.
-/

namespace LiteralFill

/-! ## Printable types -/

/-- A type that is written as a name. -/
def Ty.isName : Ty → Bool
  | .primitive _ | .named .. | .unseen _ | .param _ => true
  | _ => false

/-- A field has a name, or it is embedded and its type is a name or a pointer to one. -/
inductive Field.IsHeaded (f : Field Ty) : Prop
  | named (h : f.embedded = false) (hname : IsIdentifier f.name.toList)
  | embedded (h : f.embedded = true) (htype : f.type.isName)
  | pointer {t : Ty} (h : f.embedded = true) (htype : f.type = .pointer t) (hname : t.isName)

/-- A type without function and interface types, whose names are identifiers, whose lengths are known and whose
tags are string literals. What a declared type stands for is not written. -/
inductive Ty.IsPrintable : Ty → Prop
  | primitive {p : Primitive} : IsPrintable (.primitive p)
  | named {n : TypeName} {args : List Ty} {t : Ty} (hn : IsIdentifier n.name.toList)
      (hargs : ∀ a ∈ args, a.IsPrintable) : IsPrintable (.named n args t)
  | unseen {n : TypeName} (hn : IsIdentifier n.name.toList) : IsPrintable (.unseen n)
  | param {name : String} (hname : IsIdentifier name.toList) : IsPrintable (.param name)
  | pointer {t : Ty} (ht : t.IsPrintable) : IsPrintable (.pointer t)
  | slice {t : Ty} (ht : t.IsPrintable) : IsPrintable (.slice t)
  | array {n : Nat} {t : Ty} (hn : n < wordBound) (ht : t.IsPrintable) : IsPrintable (.array (.known n) t)
  | map {k v : Ty} (hk : k.IsPrintable) (hv : v.IsPrintable) : IsPrintable (.map k v)
  | chan {d : Direction} {t : Ty} (ht : t.IsPrintable) : IsPrintable (.chan d t)
  | struct {fields : List (Field Ty)} (hheads : ∀ f ∈ fields, f.IsHeaded)
      (htypes : ∀ f ∈ fields, f.type.IsPrintable)
      (htags : ∀ f ∈ fields, ∀ tag ∈ f.tag, IsStringLiteral tag.toList) : IsPrintable (.struct fields)

/-! ## Their shapes -/

section

variable {q : Qualifier}

theorem Ty.shapeAll_eq_map (ts : List Ty) : shapeAll q ts = ts.map (shape q) := by
  induction ts with
  | nil => rfl
  | cons t ts ih => rw [shapeAll, ih, List.map_cons]

theorem Ty.shapeFields_eq_map (fields : List (Field Ty)) : shapeFields q fields = fields.map (shapeField q) := by
  induction fields with
  | nil => rfl
  | cons f fields ih => rw [shapeFields, ih, List.map_cons]

theorem Ty.shapeField_eq (f : Field Ty) :
    shapeField q f = ⟨if f.embedded then [] else [f.name], shape q f.type, f.tag, .empty 0⟩ := by
  obtain ⟨name, t, embedded, tag⟩ := f
  rw [shapeField]

theorem Ty.isName_shape {t : Ty} (h : t.isName) : (t.shape q).isName := by
  cases t with
  | primitive p => cases p <;> rfl
  | named | unseen | param => rfl
  | _ => cases h

theorem Field.IsHeaded.shape {f : Field Ty} (h : f.IsHeaded) : (Ty.shapeField q f).IsHeaded := by
  obtain ⟨name, t, embedded, tag⟩ := f
  cases h with
  | named h hname =>
    obtain rfl : embedded = false := h
    exact .named rfl hname
  | embedded h htype =>
    obtain rfl : embedded = true := h
    exact .embedded rfl (Ty.isName_shape htype)
  | @pointer u h htype hname =>
    obtain rfl : embedded = true := h
    obtain rfl : t = .pointer u := htype
    exact .pointer rfl (by rw [Ty.shapeField, Ty.shape]) (Ty.isName_shape hname)

theorem isIdentifier_pointerName : IsIdentifier pointerName.name.toList :=
  ⟨⟨_, _, rfl, rfl, List.all_eq_true.mp rfl⟩, rfl⟩

/-- The shape of a printable type is printable where packages have names. -/
theorem Ty.IsPrintable.shape (hq : ∀ n, ∀ p ∈ q n, IsIdentifier p.toList) {t : Ty} (h : t.IsPrintable) :
    (t.shape q).IsPrintable := by
  induction h with
  | @primitive p =>
    by_cases hp : p = .pointer
    · subst hp
      exact .name (hq _) isIdentifier_pointerName nofun
    · have hshape : (Ty.primitive p).shape q = .name none p.name [] := by
        cases p <;> first | rfl | exact absurd rfl hp
      rw [hshape]
      exact .name nofun (Primitive.isIdentifier hp) nofun
  | @named n args t hn hargs ih =>
    rw [Ty.shape, Ty.shapeAll_eq_map]
    exact .name (hq n) hn (List.forall_mem_map.mpr ih)
  | @unseen n hn => exact .name (hq n) hn nofun
  | param hname => exact .name nofun hname nofun
  | pointer ht ih => exact .pointer ih
  | slice ht ih => exact .slice ih
  | array hn ht ih => exact .array hn ih
  | map hk hv ihk ihv => exact .map ihk ihv
  | chan ht ih => exact .chan ih
  | @struct fields hheads htypes htags ih =>
    rw [Ty.shape, Ty.shapeFields_eq_map]
    refine .struct (List.forall_mem_map.mpr fun f hf => (hheads f hf).shape) ?_ ?_ ?_ <;>
      refine List.forall_mem_map.mpr fun f hf => ?_ <;> rw [Ty.shapeField_eq]
    · exact ih f hf
    · exact htags f hf

end

/-! ## Reading displayed types -/

/-- The text of a printable type is cut into its lexemes. -/
theorem TypeExpr.IsPrintable.lexemes_text {e : TypeExpr} (h : e.IsPrintable) :
    LiteralFill.lexemes (lexemesText e.lexemes) = e.lexemes := by
  simpa [lexemes_nil] using h.isCutAgain (r := []) nofun

/-- The text of a printable type is read as a type up to the semicolon at its end. -/
theorem TypeExpr.IsPrintable.readType_eq {e : TypeExpr} (h : e.IsPrintable) :
    let s := (Lexed.ofText (lexemesText e.lexemes)).1
    ∃ e', readType s ⟨0, []⟩ = (some e', ⟨(words e.lexemes).length, []⟩) ∧ e'.move noPlace = e.reading ∧
      s.tokens.toList.drop (words e.lexemes).length = [.impliedSemicolon (byteLength (lexemesText e.lexemes))] := by
  intro s
  have hcut : LiteralFill.lexemes (lexemesText e.lexemes) = e.lexemes := h.lexemes_text
  obtain ⟨hwords, hrest⟩ := Lexed.wordsFrom_ofText hcut h.arePlain h.endStatement
  have hsize : (words e.lexemes).length ≤ s.size + 1 := by
    have hlength : s.size = (words e.lexemes).length + 1 := by
      rw [← Lexed.length_wordsFrom, hwords, List.length_append, List.length_singleton]
    omega
  obtain ⟨e', hread, hmoved⟩ := readTypeWithin_readsBack (Lexed.isMatched_ofText _) (s.size + 1) [] h hsize hwords
    (endsType_cons [] (by decide) (by decide))
  rw [Nat.zero_add] at hread
  exact ⟨e', hread, hmoved, hrest⟩

/-- Printable types with one text are the same. -/
theorem TypeExpr.IsPrintable.eq_of_text {e e' : TypeExpr} (h : e.IsPrintable) (h' : e'.IsPrintable)
    (ht : lexemesText e.lexemes = lexemesText e'.lexemes) : e = e' := by
  have hcut : e.lexemes = e'.lexemes := by
    rw [← h.lexemes_text, ht, h'.lexemes_text]
  obtain ⟨u, hread, hmoved, -⟩ := h.readType_eq
  obtain ⟨u', hread', hmoved', -⟩ := h'.readType_eq
  rw [ht, hread'] at hread
  obtain rfl : u' = u := Option.some.inj (Prod.mk.inj hread).1
  exact TypeExpr.eq_of_reading (hmoved.symm.trans hmoved') hcut

/-- The text of a printable type is read as a type up to the semicolon at its end. The type has the structure of
the displayed one exactly if no arrow stands behind the bare keyword of a channel type. No other structure is
displayed with the same text. -/
theorem readType_display {q : Qualifier} (hq : ∀ n, ∀ p ∈ q n, IsIdentifier p.toList) {t : Ty}
    (h : t.IsPrintable) :
    let text := (t.display q).toList
    let s := (Lexed.ofText text).1
    (∃ e c, readType s ⟨0, []⟩ = (some e, c) ∧ c.diagnostics = [] ∧
        s.tokens.toList.drop c.index = [.impliedSemicolon (byteLength text)] ∧
        e.move noPlace = (t.shape q).reading ∧ (e.move noPlace = t.shape q ↔ (t.shape q).arrowsApart)) ∧
      ∀ u : Ty, u.IsPrintable → u.display q = t.display q → u.shape q = t.shape q := by
  intro text s
  have hshape := h.shape hq
  have htext : text = lexemesText (t.shape q).lexemes := Ty.toList_display q t
  constructor
  · obtain ⟨e, hread, hmoved, hrest⟩ := hshape.readType_eq
    rw [← htext] at hread hrest
    refine ⟨e, _, hread, rfl, hrest, hmoved, ?_⟩
    rw [hmoved]
    exact TypeExpr.reading_eq_iff _
  · intro u hu hdisplay
    refine (hu.shape hq).eq_of_text hshape ?_
    rw [← Ty.toList_display, ← Ty.toList_display, hdisplay]

/-- A channel in both directions whose elements are receiving channels is displayed like a sending channel. -/
theorem readType_display_chan :
    let t : Ty := .chan .both (.chan .receive (.primitive .int))
    let q : Qualifier := fun _ => none
    t.display q = "chan <-chan int" ∧
      ∃ e c, readType (Lexed.ofText "chan <-chan int".toList).1 ⟨0, []⟩ = (some e, c) ∧
        e.move noPlace = .chan .send (.chan .both (.name none "int" [])) ∧ e.move noPlace ≠ t.shape q := by
  intro t q
  have hprintable : t.IsPrintable := .chan (.chan .primitive)
  have hdisplay : t.display q = "chan <-chan int" := by rfl
  obtain ⟨⟨e, c, hread, -, -, hmoved, hsame⟩, -⟩ := readType_display (q := q) nofun hprintable
  rw [hdisplay] at hread
  refine ⟨hdisplay, e, c, hread, hmoved, fun he => ?_⟩
  have hapart := hsame.mp he
  cases hapart

end LiteralFill
