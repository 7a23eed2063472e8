import LiteralFill.Proofs.Fill.Positions

/-!
The types that literals name. A literal in a zero value names the type of its place, with its own name and all of
its arguments, whatever that type stands for: a struct, an array, or a type that is well known. The one exception is
a declared type that stands for a type out of sight. Its zero value is the literal of what it stands for, and
nothing of its own name is left: another name, or the same without its arguments.
-/

namespace LiteralFill

/-! ## Literals -/

/-- The value is a literal: it ends with a brace. -/
def ZeroExpr.isLiteral : ZeroExpr → Bool
  | text t => t.toList.getLast? == some '\x7d'
  | composite .. => true

namespace Synthesizer

variable (z : Synthesizer)

/-- A literal in the name of the type of its place: without anything in it, with the elements of an array type, or
with the fields that may be set of a declared type. -/
inductive IsLiteralOf : Spot → Prop
  | empty (t : Ty) : IsLiteralOf ⟨t, .text (emptyLiteral (t.display z.qualifier))⟩
  | listed {t elem : Ty} {length : Length} {n : Nat} (element : String) (ht : t.underlying = .array length elem)
      (hlength : z.lists length = some n) :
      IsLiteralOf ⟨t, .text (z.arrayLiteral (t.display z.qualifier) length element)⟩
  | expanded {t : Ty} {n : TypeName} {visible : List (Field Ty)} {values : List (String × ZeroExpr)}
      (hfields : z.expansion? t = some (n, visible)) (hnames : values.map (·.1) = visible.map (·.name)) :
      IsLiteralOf ⟨t, .composite (t.display z.qualifier) values⟩

/-- If the value of a place is a literal, it is one of the type of the place. -/
def NamesType (p : Spot) : Prop := p.value.isLiteral = true → z.IsLiteralOf p

/-- A declared type that stands for a type out of sight and is not written as that one. -/
def IsMisnamed (t : Ty) : Prop :=
  ∃ n, t.underlying = .unseen n ∧ z.isWellKnown t = false ∧ t.display z.qualifier ≠ showName z.qualifier n

/-! ## Zero values -/

variable {z} {recurse : Bool} {visiting : List TypeName} {t : Ty}

theorem isLiteral_emptyLiteral (type : String) : (ZeroExpr.text (emptyLiteral type)).isLiteral = true := by
  simp [ZeroExpr.isLiteral, emptyLiteral]

theorem emptyLiteral_injective : Function.Injective emptyLiteral := by
  intro a b h
  simpa [emptyLiteral] using h

/-- A type out of sight is written in its name by whatever stands for it. -/
theorem zero_of_unseen {n : TypeName} (ht : t.underlying = .unseen n) (hknown : z.isWellKnown t = false) :
    (z.zero recurse visiting none t).1 = .text (emptyLiteral (showName z.qualifier n)) := by
  cases t with
  | named m args t =>
    rw [z.zero_named hknown]
    rw [Ty.underlying_named] at ht
    rw [ht, zero]
  | unseen m =>
    cases ht
    rw [zero]
  | _ => cases ht

/-- A literal of nothing but a name names no other type. -/
theorem display_of_isLiteralOf {n : TypeName} {shown : String} (ht : t.underlying = .unseen n)
    (h : z.IsLiteralOf ⟨t, .text (emptyLiteral shown)⟩) : t.display z.qualifier = shown := by
  generalize hvalue : ZeroExpr.text (emptyLiteral shown) = value at h
  cases h with
  | empty => exact (emptyLiteral_injective (ZeroExpr.text.inj hvalue)).symm
  | listed _ hlisted => rw [ht] at hlisted; cases hlisted
  | expanded => cases hvalue

theorem namesType_of_unseen {n : TypeName} (ht : t.underlying = .unseen n) :
    z.NamesType ⟨t, (z.zero recurse visiting none t).1⟩ ↔ ¬ z.IsMisnamed t := by
  cases hknown : z.isWellKnown t with
  | true =>
    rw [z.zero_wellKnown hknown]
    refine iff_of_true (fun _ => .empty t) ?_
    rintro ⟨-, -, hunknown, -⟩
    rw [hknown] at hunknown
    cases hunknown
  | false =>
    rw [zero_of_unseen ht hknown]
    constructor
    · rintro hnames ⟨m, hm, -, hshown⟩
      cases ht.symm.trans hm
      exact hshown (display_of_isLiteralOf ht (hnames (isLiteral_emptyLiteral _)))
    · intro hnamed _
      have hshown : t.display z.qualifier = showName z.qualifier n :=
        Decidable.of_not_not fun hshown => hnamed ⟨n, ht, hknown, hshown⟩
      rw [← hshown]
      exact .empty t

theorem isLiteralOf_struct {fields : List (Field Ty)} (ht : t.underlying = .struct fields)
    (hknown : z.isWellKnown t = false) : z.IsLiteralOf ⟨t, (z.zero recurse visiting none t).1⟩ := by
  cases t with
  | named n args t =>
    rw [Ty.underlying_named] at ht
    rw [z.zero_named hknown, ht, zero_struct]
    split
    · next hvisible =>
      simp only [Bool.and_eq_true, Bool.not_eq_true'] at hvisible
      refine .expanded (z.expansion?_named ht hknown hvisible.2) ?_
      rw [List.map_map]
      rfl
    · exact .empty _
  | struct fields =>
    rw [zero]
    exact .empty _
  | _ => cases ht

theorem isLiteralOf_array {elem : Ty} {length : Length} (ht : t.underlying = .array length elem)
    (hknown : z.isWellKnown t = false) : z.IsLiteralOf ⟨t, (z.zero recurse visiting none t).1⟩ := by
  rw [z.zero_array ht hknown]
  cases hlength : z.lists length with
  | some n => exact .listed _ ht hlength
  | none =>
    rw [arrayLiteral, hlength]
    exact .empty t

/-- What is neither an array nor a struct nor out of sight is written without a literal. -/
theorem isLiteral_zero_shape {shape : Ty} (outer : Option (TypeName × String))
    (hnamed : ∀ n args u, shape ≠ .named n args u) (harray : ∀ length elem, shape ≠ .array length elem)
    (hstruct : ∀ fields, shape ≠ .struct fields) (hunseen : ∀ n, shape ≠ .unseen n) :
    (z.zero recurse visiting outer shape).1.isLiteral = false := by
  cases shape with
  | named n args u => exact absurd rfl (hnamed n args u)
  | array length elem => exact absurd rfl (harray length elem)
  | struct fields => exact absurd rfl (hstruct fields)
  | unseen n => exact absurd rfl (hunseen n)
  | primitive p =>
    rw [zero]
    cases p <;> rfl
  | param name =>
    have hlast : ("*new(" ++ name ++ ")").toList.getLast? = some ')' := by
      rw [String.toList_append]
      exact List.getLast?_concat
    rw [zero, ZeroExpr.isLiteral, hlast]
    rfl
  | _ =>
    rw [zero]
    rfl

theorem isLiteral_zero (harray : ∀ length elem, t.underlying ≠ .array length elem)
    (hstruct : ∀ fields, t.underlying ≠ .struct fields) (hunseen : ∀ n, t.underlying ≠ .unseen n)
    (hknown : z.isWellKnown t = false) : (z.zero recurse visiting none t).1.isLiteral = false := by
  cases t with
  | named n args t =>
    rw [z.zero_named hknown]
    exact isLiteral_zero_shape _ (fun n args u => Ty.underlying_ne_named n args u t) harray hstruct hunseen
  | _ => exact isLiteral_zero_shape none nofun harray hstruct hunseen

/-- The zero value of a type names it, unless nothing but what it stands for is written. -/
theorem namesType_zero (t : Ty) : z.NamesType ⟨t, (z.zero recurse visiting none t).1⟩ ↔ ¬ z.IsMisnamed t := by
  by_cases hunseen : ∃ n, t.underlying = .unseen n
  · obtain ⟨n, hn⟩ := hunseen
    exact namesType_of_unseen hn
  · have hunseen : ∀ n, t.underlying ≠ .unseen n := fun n hn => hunseen ⟨n, hn⟩
    refine iff_of_true ?_ fun ⟨n, hn, _⟩ => hunseen n hn
    cases hknown : z.isWellKnown t with
    | true =>
      rw [z.zero_wellKnown hknown]
      exact fun _ => .empty t
    | false =>
      by_cases harray : ∃ length elem, t.underlying = .array length elem
      · obtain ⟨length, elem, ht⟩ := harray
        exact fun _ => isLiteralOf_array ht hknown
      · by_cases hstruct : ∃ fields, t.underlying = .struct fields
        · obtain ⟨fields, ht⟩ := hstruct
          exact fun _ => isLiteralOf_struct ht hknown
        · intro hliteral
          have hplain : (z.zero recurse visiting none t).1.isLiteral = false :=
            isLiteral_zero (fun length elem ht => harray ⟨length, elem, ht⟩) (fun fields ht => hstruct ⟨fields, ht⟩)
              hunseen hknown
          exact Bool.noConfusion (hplain.symm.trans hliteral)

/-- A generic type out of sight is known by its arguments only, and they are not written. -/
theorem isMisnamed_of_args {n : TypeName} {a : Ty} {rest : List Ty}
    (hknown : z.isWellKnown (.named n (a :: rest) (.unseen n)) = false) :
    z.IsMisnamed (.named n (a :: rest) (.unseen n)) := by
  refine ⟨n, rfl, hknown, fun hshown => ?_⟩
  have hlength := congrArg String.length hshown
  have hopen : "[".length = 1 := rfl
  rw [Ty.display] at hlength
  simp only [String.length_append, hopen] at hlength
  omega

end Synthesizer

/-! ## All literals -/

/-- A literal in a zero value names the type of its place, unless that type stands for a type out of sight and is
not written as that one. -/
theorem Synthesizer.namesType_iff {z : Synthesizer} {t : Ty} {p : Spot} (h : z.Holds (z.top t) p) :
    z.NamesType p ↔ ¬ z.IsMisnamed p.type := by
  obtain ⟨recurse, visiting, hvalue⟩ := isZeroAt_of_holds h
  have hp : p = ⟨p.type, (z.zero recurse visiting none p.type).1⟩ := by rw [← hvalue]
  rw [hp]
  exact namesType_zero p.type

/-- Values for a file that imports all packages by their own names. -/
def namedImports : Synthesizer :=
  ⟨fun n => if n.isForeignTo "p" then some n.package else none, "p", [], true, none⟩

/-- A declared type that stands for one out of sight. -/
def headerSpot : Spot :=
  ⟨.named ⟨"p", "p", "Header"⟩ [] (.unseen ⟨"net/http", "http", "Header"⟩), .text "http.Header\x7b\x7d"⟩

/-- A generic type out of sight. -/
def boxSpot : Spot :=
  ⟨.named ⟨"q", "q", "Box"⟩ [.primitive .int] (.unseen ⟨"q", "q", "Box"⟩), .text "q.Box\x7b\x7d"⟩

/-- A declared type of arrays of the generic type. -/
def boxesSpot : Spot :=
  ⟨.named ⟨"p", "p", "Boxes"⟩ [] (.array (.known 2) boxSpot.type), .text "Boxes\x7bq.Box\x7b\x7d, q.Box\x7b\x7d\x7d"⟩

/-- A struct of the header and the array. -/
def hiddenParts : Ty :=
  .named ⟨"p", "p", "Parts"⟩ []
    (.struct [⟨"H", headerSpot.type, false, none⟩, ⟨"B", boxesSpot.type, false, none⟩])

theorem holds_hiddenParts :
    namedImports.Holds (namedImports.top hiddenParts) headerSpot ∧
      namedImports.Holds (namedImports.top hiddenParts) boxesSpot ∧
      namedImports.Holds (namedImports.top hiddenParts) boxSpot := by
  have hheader : namedImports.HasField (namedImports.top hiddenParts) headerSpot :=
    .mk (f := ⟨"H", headerSpot.type, false, none⟩) (v := ("H", headerSpot.value)) (i := 0) rfl rfl rfl
  have hboxes : namedImports.HasField (namedImports.top hiddenParts) boxesSpot :=
    .mk (f := ⟨"B", boxesSpot.type, false, none⟩) (v := ("B", boxesSpot.value)) (i := 1) rfl rfl rfl
  have hbox : namedImports.HasElement boxesSpot boxSpot :=
    @Synthesizer.HasElement.mk namedImports boxesSpot.type boxSpot.type (.known 2) 2 "q.Box\x7b\x7d" rfl rfl rfl
  exact ⟨.single (.inl hheader), .single (.inl hboxes), .tail (.single (.inl hboxes)) (.inr hbox)⟩

/-- The array is written in its own name; its elements and the header are not. -/
theorem namesType_hiddenParts :
    namedImports.NamesType boxesSpot ∧ ¬ namedImports.NamesType boxSpot ∧ ¬ namedImports.NamesType headerSpot := by
  obtain ⟨hheader, hboxes, hbox⟩ := holds_hiddenParts
  refine ⟨(Synthesizer.namesType_iff hboxes).mpr ?_, fun h => (Synthesizer.namesType_iff hbox).mp h ?_,
    fun h => (Synthesizer.namesType_iff hheader).mp h ?_⟩
  · rintro ⟨n, hn, -⟩
    cases hn
  · exact Synthesizer.isMisnamed_of_args rfl
  · exact ⟨_, rfl, rfl, by decide⟩

example : namedImports.top hiddenParts =
    ⟨hiddenParts, .composite "Parts" [("H", headerSpot.value), ("B", boxesSpot.value)]⟩ := rfl

end LiteralFill
