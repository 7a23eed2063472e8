import LiteralFill.Proofs.Fill.LiteralTypes

/-!
Which zero values are `nil`. Two questions are answered by the type at the end of a chain of names: whether a type is
nilable, and how its zero value is written. The answers agree, except that a well-known type is written as a literal
whatever it stands for. A value that is not `nil` is a constant, what `new` points to, or a literal.
-/

namespace LiteralFill

/-- The constants among the zero values. -/
def zeroConstants : List String := ["false", "\"\"", "0", "0.0", "(0 + 0i)"]

theorem Primitive.zero_mem_zeroConstants {p : Primitive} (h : p ≠ .pointer) : p.zero ∈ zeroConstants := by
  cases p
  case pointer => exact absurd rfl h
  all_goals decide

namespace Synthesizer

variable (z : Synthesizer)

/-- A value other than `nil`: a constant of a primitive type, what `new` points to for a type parameter, a literal of
the type of its place, or one of the type out of sight that this one stands for. -/
inductive IsWrittenOut : Spot → Prop
  | constant {t : Ty} {p : Primitive} {text : String} (ht : t.underlying = .primitive p)
      (htext : text ∈ zeroConstants) : IsWrittenOut ⟨t, .text text⟩
  | new {t : Ty} {name : String} (ht : t.underlying = .param name) : IsWrittenOut ⟨t, .text ("*new(" ++ name ++ ")")⟩
  | literal {p : Spot} (h : z.IsLiteralOf p) : IsWrittenOut p
  | unseen {t : Ty} {n : TypeName} (ht : t.underlying = .unseen n) :
      IsWrittenOut ⟨t, .text (emptyLiteral (showName z.qualifier n))⟩

variable {z} {recurse : Bool} {visiting : List TypeName} {t : Ty}

/-! ## Values other than nil -/

theorem isLiteral_arrayLiteral (type : String) (length : Length) (element : String) :
    (ZeroExpr.text (z.arrayLiteral type length element)).isLiteral = true := by
  rw [arrayLiteral]
  cases z.lists length with
  | none => exact isLiteral_emptyLiteral type
  | some n =>
    have hclosed : ∀ opened : String, (opened ++ "\x7d").toList.getLast? = some '\x7d' := by simp
    simp only [ZeroExpr.isLiteral, hclosed, BEq.rfl]

theorem IsLiteralOf.isLiteral {p : Spot} (h : z.IsLiteralOf p) : p.value.isLiteral = true := by
  cases h with
  | empty t => exact isLiteral_emptyLiteral _
  | listed element ht hlength => exact isLiteral_arrayLiteral _ _ _
  | expanded hfields hnames => rfl

theorem ne_nil_of_isLiteral {value : ZeroExpr} (h : value.isLiteral = true) : value ≠ .text "nil" := by
  rintro rfl
  exact absurd h (by decide)

theorem IsWrittenOut.ne_nil {p : Spot} (h : z.IsWrittenOut p) : p.value ≠ .text "nil" := by
  cases h with
  | constant ht htext =>
    rintro ⟨⟩
    exact absurd htext (by decide)
  | @new t name ht =>
    intro hnil
    have hlength := congrArg String.length (ZeroExpr.text.inj hnil)
    have hopen : "*new(".length = 5 := rfl
    have hword : "nil".length = 3 := rfl
    rw [String.length_append, String.length_append, hopen, hword] at hlength
    omega
  | literal hliteral => exact ne_nil_of_isLiteral hliteral.isLiteral
  | unseen ht => exact ne_nil_of_isLiteral (isLiteral_emptyLiteral _)

/-! ## Shapes -/

/-- Only arrays and structs are written in the name that is declared for them. -/
theorem zero_eq_underlying (hknown : z.isWellKnown t = false)
    (harray : ∀ length elem, t.underlying ≠ .array length elem) (hstruct : ∀ fields, t.underlying ≠ .struct fields) :
    (z.zero recurse visiting none t).1 = (z.zero recurse visiting none t.underlying).1 := by
  cases t with
  | named n args t =>
    rw [z.zero_named hknown]
    rw [Ty.underlying_named] at harray hstruct ⊢
    cases hshape : t.underlying with
    | named n args u => exact absurd hshape (Ty.underlying_ne_named n args u t)
    | array length elem => exact absurd hshape (harray length elem)
    | struct fields => exact absurd hshape (hstruct fields)
    | _ => rw [zero, zero]
  | _ => rfl

/-- A zero value is `nil` or written out, as the type at the end of the names is nilable or not. -/
theorem zero_of_unknown (recurse : Bool) (visiting : List TypeName) (hknown : z.isWellKnown t = false) :
    (t.isNilable = true ∧ (z.zero recurse visiting none t).1 = .text "nil") ∨
      (t.isNilable = false ∧ z.IsWrittenOut ⟨t, (z.zero recurse visiting none t).1⟩) := by
  unfold Ty.isNilable
  cases hshape : t.underlying with
  | named n args u => exact absurd hshape (Ty.underlying_ne_named n args u t)
  | array length elem => exact .inr ⟨rfl, .literal (isLiteralOf_array hshape hknown)⟩
  | struct fields => exact .inr ⟨rfl, .literal (isLiteralOf_struct hshape hknown)⟩
  | unseen n =>
    rw [zero_of_unseen hshape hknown]
    exact .inr ⟨rfl, .unseen hshape⟩
  | primitive p =>
    rw [zero_eq_underlying hknown (by simp [hshape]) (by simp [hshape]), hshape, zero]
    by_cases hp : p = .pointer
    · subst hp
      exact .inl ⟨rfl, rfl⟩
    · exact .inr ⟨beq_eq_false_iff_ne.mpr hp, .constant hshape (Primitive.zero_mem_zeroConstants hp)⟩
  | param name =>
    rw [zero_eq_underlying hknown (by simp [hshape]) (by simp [hshape]), hshape, zero]
    exact .inr ⟨rfl, .new hshape⟩
  | _ =>
    rw [zero_eq_underlying hknown (by simp [hshape]) (by simp [hshape]), hshape, zero]
    exact .inl ⟨rfl, rfl⟩

/-- The zero value of a type is `nil` exactly if the type is nilable and not well known. -/
theorem zero_eq_nil_iff :
    (z.zero recurse visiting none t).1 = .text "nil" ↔ t.isNilable = true ∧ z.isWellKnown t = false := by
  cases hknown : z.isWellKnown t with
  | true =>
    rw [z.zero_wellKnown hknown]
    simpa using ne_nil_of_isLiteral (isLiteral_emptyLiteral _)
  | false =>
    obtain ⟨hnilable, hnil⟩ | ⟨hnilable, hwritten⟩ := zero_of_unknown recurse visiting hknown
    · simp [hnilable, hnil]
    · simpa [hnilable] using hwritten.ne_nil

theorem isWrittenOut_zero (h : t.isNilable = false) : z.IsWrittenOut ⟨t, (z.zero recurse visiting none t).1⟩ := by
  cases hknown : z.isWellKnown t with
  | true =>
    rw [z.zero_wellKnown hknown]
    exact .literal (.empty t)
  | false =>
    obtain ⟨hnilable, -⟩ | ⟨-, hwritten⟩ := zero_of_unknown recurse visiting hknown
    · exact absurd h (by simp [hnilable])
    · exact hwritten

/-! ## All values -/

/-- A zero value, and each one in it, is `nil` exactly if the type of its place is nilable, unless that type is nilable
and well known; all others are written out. -/
theorem value_eq_nil_iff {p : Spot} (h : z.Holds (z.top t) p)
    (hknown : z.isWellKnown p.type = true → p.type.isNilable = false) :
    (p.value = .text "nil" ↔ p.type.isNilable = true) ∧ (p.type.isNilable = false → z.IsWrittenOut p) := by
  obtain ⟨recurse, visiting, hvalue⟩ := isZeroAt_of_holds h
  have hp : p = ⟨p.type, (z.zero recurse visiting none p.type).1⟩ := by rw [← hvalue]
  constructor
  · rw [hvalue, zero_eq_nil_iff, and_iff_left_of_imp]
    intro hnilable
    exact Bool.eq_false_iff.mpr fun hwell => Bool.noConfusion ((hknown hwell).symm.trans hnilable)
  · intro hnilable
    rw [hp]
    exact isWrittenOut_zero hnilable

end Synthesizer

/-- Values for a file of one package, with structs written out and the usual types well known. -/
def expandedValues : Synthesizer :=
  ⟨fun n => if n.isForeignTo "p" then some n.package else none, "p", defaultWellKnown, true, none⟩

/-- The untyped pointer under two names. -/
def handleSpot : Spot :=
  ⟨.named ⟨"p", "p", "Handle"⟩ [] (.named ⟨"q", "q", "Ref"⟩ [] (.primitive .pointer)), .text "nil"⟩

/-- A type that is well known. -/
def timeSpot : Spot := ⟨.named ⟨"time", "time", "Time"⟩ [] (.struct []), .text "time.Time\x7b\x7d"⟩

/-- A struct of the pointer and the well-known type. -/
def handleParts : Ty :=
  .named ⟨"p", "p", "Parts"⟩ [] (.struct [⟨"H", handleSpot.type, false, none⟩, ⟨"At", timeSpot.type, false, none⟩])

/-- Inside the struct the pointer is `nil`, and the well-known type is not. -/
theorem value_eq_nil_handleParts :
    expandedValues.Holds (expandedValues.top handleParts) handleSpot ∧
      expandedValues.Holds (expandedValues.top handleParts) timeSpot ∧
      expandedValues.isWellKnown handleSpot.type = false ∧ timeSpot.type.isNilable = false ∧
      handleSpot.value = .text "nil" ∧ expandedValues.IsWrittenOut timeSpot := by
  have hhandle : expandedValues.Holds (expandedValues.top handleParts) handleSpot :=
    .single (.inl (.mk (f := ⟨"H", handleSpot.type, false, none⟩) (v := ("H", handleSpot.value)) (i := 0) rfl rfl rfl))
  have htime : expandedValues.Holds (expandedValues.top handleParts) timeSpot :=
    .single (.inl (.mk (f := ⟨"At", timeSpot.type, false, none⟩) (v := ("At", timeSpot.value)) (i := 1) rfl rfl rfl))
  have hunknown : expandedValues.isWellKnown handleSpot.type = false := by decide
  have hplain : timeSpot.type.isNilable = false := rfl
  refine ⟨hhandle, htime, hunknown, hplain, ?_, ?_⟩
  · exact (Synthesizer.value_eq_nil_iff hhandle fun hwell => absurd hwell (by decide)).1.mpr rfl
  · exact (Synthesizer.value_eq_nil_iff htime fun _ => hplain).2 hplain

end LiteralFill
