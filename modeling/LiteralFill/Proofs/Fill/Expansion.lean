import LiteralFill.Proofs.Fill.Positions

/-!
Which struct types a recursive zero value writes out. The names of the types that are being written out are kept,
without their type arguments, and a type of one of these names is not written out again. So a type is written out
with all it holds, each field as the zero value of its type on its own, exactly if no declared type of structs in it
holds another of the same name. A generic type may well hold itself, with other arguments.
-/

namespace LiteralFill

open Relation (ReflTransGen TransGen)

/-! ## Types in a type -/

theorem Ty.sizeOf_underlying_le : ∀ t : Ty, sizeOf t.underlying ≤ sizeOf t
  | .named n args t => by
    have ih := sizeOf_underlying_le t
    rw [underlying_named, named.sizeOf_spec]
    omega
  | .primitive _ | .pointer _ | .slice _ | .array .. | .map .. | .chan .. | .struct _ | .interface _ | .func _
  | .param _ | .unseen _ => Nat.le_refl _

namespace Synthesizer

variable (z : Synthesizer)

/-- The type of a field that may be set, of a declared type of structs that may be written out. -/
def HasFieldType (t u : Ty) : Prop :=
  ∃ n visible, z.expansion? t = some (n, visible) ∧ ∃ f ∈ visible, f.type = u

/-- A declared type of structs in it holds another of the same name. -/
def Repeats (t : Ty) : Prop :=
  ∃ u w n visible others, ReflTransGen z.HasFieldType t u ∧ TransGen z.HasFieldType u w ∧
    z.expansion? u = some (n, visible) ∧ z.expansion? w = some (n, others)

/-- No declared type of structs in it has one of these names. -/
def Avoids (visiting : List TypeName) (t : Ty) : Prop :=
  ∀ u n visible, ReflTransGen z.HasFieldType t u → z.expansion? u = some (n, visible) → n ∉ visiting

/-- A declared type of structs is written out, with the zero value of each field that may be set. -/
def IsExpanded (p : Spot) : Prop :=
  ∀ n visible, z.expansion? p.type = some (n, visible) →
    p.value = .composite (p.type.display z.qualifier) (visible.map fun f => (f.name, (z.synthesize f.type).1))

variable {z} {visiting : List TypeName} {t u : Ty}

theorem HasFieldType.sizeOf_lt (h : z.HasFieldType t u) : sizeOf u < sizeOf t := by
  obtain ⟨n, visible, hfields, f, hf, rfl⟩ := h
  obtain ⟨args, w, fields, rfl, hw, -, rfl, -⟩ := z.expansion?_eq_some hfields
  have hmem : sizeOf f < sizeOf fields := List.sizeOf_lt_of_mem (List.mem_filter.mp hf).1
  have hle := w.sizeOf_underlying_le
  rw [hw, Ty.struct.sizeOf_spec] at hle
  have hfield : sizeOf f.type < sizeOf f := by
    cases f
    simp +arith
  rw [Ty.named.sizeOf_spec]
  omega

theorem hasFieldType_wellFounded (z : Synthesizer) : WellFounded fun u t => z.HasFieldType t u :=
  Subrelation.wf HasFieldType.sizeOf_lt (measure (sizeOf : Ty → Nat)).wf

theorem Avoids.field (h : z.Avoids visiting t) (hu : z.HasFieldType t u) : z.Avoids visiting u :=
  fun w n visible hw => h w n visible (hw.head hu)

theorem avoids_nil (t : Ty) : z.Avoids [] t := fun _ _ _ _ _ => List.not_mem_nil

theorem not_repeats_inside (h : ¬ z.Repeats t) (hu : ReflTransGen z.HasFieldType t u) : ¬ z.Repeats u := by
  rintro ⟨v, w, n, visible, others, hv, hw, hfields⟩
  exact h ⟨v, w, n, visible, others, hu.trans hv, hw, hfields⟩

/-- The name of a type that holds none of the same name is not met below it. -/
theorem avoids_cons {n : TypeName} {visible : List (Field Ty)} (h : ¬ z.Repeats t)
    (hfields : z.expansion? t = some (n, visible)) (hvisiting : z.Avoids visiting t) (hu : z.HasFieldType t u) :
    z.Avoids (n :: visiting) u := by
  intro w m others hw hothers
  refine List.not_mem_cons_of_ne_of_not_mem ?_ (hvisiting.field hu w m others hw hothers)
  rintro rfl
  exact h ⟨t, w, m, visible, others, .refl, .head' hu hw, hfields, hothers⟩

/-! ## Zero values -/

/-- Only structs are written out, so nothing else is written in another way for what is being written out. -/
theorem zero_visiting (others : List TypeName) :
    ∀ (recurse : Bool) (outer : Option (TypeName × String)) (t : Ty), (recurse = true → t.structFields = none) →
      (z.zero recurse visiting outer t).1 = (z.zero recurse others outer t).1
  | recurse, some o, .named n args t, h => by
    rw [zero, zero]
    exact zero_visiting others recurse (some o) t h
  | recurse, none, .named n args t, h => by
    have ih := zero_visiting others recurse (some (n, (Ty.named n args t).display z.qualifier)) t h
    rw [zero, zero]
    dsimp only
    split
    · rfl
    · exact ih
  | _, outer, .array length t, _ => by
    have ih := zero_visiting others false none t (absurd · Bool.false_ne_true)
    cases outer <;> rw [zero, zero] <;> cases z.lists length <;> simp only [ih]
  | false, outer, .struct fields, _ => by
    cases outer <;> rw [zero, zero] <;> rfl
  | true, _, .struct fields, h => by cases h rfl
  | _, _, .primitive _, _ | _, _, .pointer _, _ | _, _, .slice _, _ | _, _, .map .., _ | _, _, .chan .., _
  | _, _, .func _, _ | _, _, .interface _, _ | _, _, .param _, _ | _, _, .unseen _, _ => by
    rw [zero, zero]

/-- What is not written out is written the same whatever is being written out. -/
theorem zero_of_expansion_none (h : z.expansion? t = none) (recurse : Bool) (others : List TypeName) :
    (z.zero recurse visiting none t).1 = (z.zero recurse others none t).1 := by
  cases hfields : t.structFields with
  | none => exact zero_visiting others recurse none t fun _ => hfields
  | some fields =>
    rw [Ty.structFields_eq_some] at hfields
    cases t with
    | named n args t =>
      cases hknown : z.isWellKnown (.named n args t) with
      | true => rw [z.zero_wellKnown hknown, z.zero_wellKnown hknown]
      | false =>
        have hvisible : (z.visibleFields n fields).isEmpty = true := by
          cases hvisible : (z.visibleFields n fields).isEmpty with
          | true => rfl
          | false => exact absurd (h.symm.trans (z.expansion?_named hfields hknown hvisible)) nofun
        rw [Ty.underlying_named] at hfields
        rw [z.zero_named hknown, z.zero_named hknown, hfields, zero_struct, zero_struct, hvisible]
        simp only [Bool.not_true, Bool.and_false, Bool.false_eq_true, if_false]
    | struct fields => rw [zero, zero]
    | _ => cases hfields

/-- A type whose name is being written out is not. -/
theorem zero_of_mem {n : TypeName} {visible : List (Field Ty)} (hfields : z.expansion? t = some (n, visible))
    (hn : n ∈ visiting) : (z.zero true visiting none t).1 = .text (emptyLiteral (t.display z.qualifier)) := by
  rw [z.zero_of_expansion hfields, if_neg]
  simp [hn]

theorem zero_of_not_mem {n : TypeName} {visible : List (Field Ty)} (hfields : z.expansion? t = some (n, visible))
    (hn : n ∉ visiting) : (z.zero true visiting none t).1 = .composite (t.display z.qualifier)
      (visible.map fun f => (f.name, (z.zero true (n :: visiting) none f.type).1)) := by
  rw [z.zero_of_expansion hfields, if_pos]
  simp [hn]

/-- A type that holds no name twice and none that is being written out is written as on its own. -/
theorem zero_of_avoids (h : ¬ z.Repeats t) (hvisiting : z.Avoids visiting t) :
    (z.zero true visiting none t).1 = (z.zero true [] none t).1 := by
  induction t using z.hasFieldType_wellFounded.induction generalizing visiting with
  | _ t ih =>
    cases hfields : z.expansion? t with
    | none => exact zero_of_expansion_none hfields true []
    | some expansion =>
      obtain ⟨n, visible⟩ := expansion
      have hvalues : ∀ names : List TypeName, z.Avoids names t → ∀ f ∈ visible,
          (z.zero true (n :: names) none f.type).1 = (z.zero true [] none f.type).1 := by
        intro names hnames f hf
        have hfield : z.HasFieldType t f.type := ⟨n, visible, hfields, f, hf, rfl⟩
        exact ih f.type hfield (not_repeats_inside h (.single hfield)) (avoids_cons h hfields hnames hfield)
      rw [zero_of_not_mem hfields (hvisiting t n visible .refl hfields), zero_of_not_mem hfields List.not_mem_nil]
      congr 1
      refine List.map_congr_left fun f hf => ?_
      rw [hvalues visiting hvisiting f hf, hvalues [] (avoids_nil t) f hf]

theorem synthesize_fst (hrecurse : z.recurse = true) (t : Ty) :
    (z.synthesize t).1 = (z.zero true [] none t).1 := by
  rw [← hrecurse]
  rfl

/-- A type that holds no name twice is written out, each of its fields as on its own. -/
theorem isExpanded_top (hrecurse : z.recurse = true) (h : ¬ z.Repeats t) : z.IsExpanded (z.top t) := by
  intro n visible hfields
  have hfields : z.expansion? t = some (n, visible) := hfields
  show (z.synthesize t).1 = .composite (t.display z.qualifier) (visible.map fun f => (f.name, (z.synthesize f.type).1))
  rw [synthesize_fst hrecurse, zero_of_not_mem hfields List.not_mem_nil]
  congr 1
  refine List.map_congr_left fun f hf => ?_
  have hfield : z.HasFieldType t f.type := ⟨n, visible, hfields, f, hf, rfl⟩
  rw [synthesize_fst hrecurse,
    zero_of_avoids (not_repeats_inside h (.single hfield)) (avoids_cons h hfields (avoids_nil t) hfield)]

/-! ## Places -/

variable (z) in
/-- Every declared type of structs is written out, wherever it stands among the fields. -/
def AllExpanded (t : Ty) : Prop := ∀ p, ReflTransGen z.HasField (z.top t) p → z.IsExpanded p

/-- A field of a type that is written out is written as on its own. -/
theorem IsExpanded.hasField (h : z.IsExpanded (z.top t)) (hu : z.HasFieldType t u) :
    z.HasField (z.top t) (z.top u) := by
  obtain ⟨n, visible, hfields, f, hf, rfl⟩ := hu
  obtain ⟨i, hi⟩ := List.mem_iff_getElem?.mp hf
  have hvalue : (z.synthesize t).1 = .composite (t.display z.qualifier)
    (visible.map fun f => (f.name, (z.synthesize f.type).1)) := h n visible hfields
  rw [top, hvalue]
  refine .mk (v := (f.name, (z.synthesize f.type).1)) hfields hi ?_
  rw [List.getElem?_map, hi]
  rfl

theorem IsExpanded.top_of_hasField (h : z.IsExpanded (z.top t)) {p : Spot} (hp : z.HasField (z.top t) p) :
    ∃ u, z.HasFieldType t u ∧ p = z.top u := by
  generalize htop : z.top t = q at hp
  cases hp with
  | @mk t' n visible text values f v i hfields hf hv =>
    obtain ⟨rfl, hvalue⟩ := Spot.mk.inj htop
    cases (h n visible hfields).symm.trans hvalue
    rw [List.getElem?_map, hf] at hv
    cases hv
    exact ⟨f.type, ⟨n, visible, hfields, f, List.mem_of_getElem? hf, rfl⟩, rfl⟩

theorem AllExpanded.field (h : z.AllExpanded t) (hu : z.HasFieldType t u) : z.AllExpanded u :=
  fun p hp => h p (hp.head ((h _ .refl).hasField hu))

theorem AllExpanded.inside (h : z.AllExpanded t) (hu : ReflTransGen z.HasFieldType t u) : z.AllExpanded u := by
  induction hu with
  | refl => exact h
  | tail _ hw ih => exact ih.field hw

/-- If a type is written the same below other names, so are its fields. -/
theorem IsExpanded.zero_field (hrecurse : z.recurse = true) (h : z.IsExpanded (z.top t)) {n : TypeName}
    {visible : List (Field Ty)} (hfields : z.expansion? t = some (n, visible)) (hn : n ∉ visiting)
    (hsame : (z.zero true visiting none t).1 = (z.zero true [] none t).1) {f : Field Ty} (hf : f ∈ visible) :
    (z.zero true (n :: visiting) none f.type).1 = (z.zero true [] none f.type).1 := by
  have hvalue : (z.synthesize t).1 = .composite (t.display z.qualifier)
    (visible.map fun f => (f.name, (z.synthesize f.type).1)) := h n visible hfields
  rw [synthesize_fst hrecurse, ← hsame, zero_of_not_mem hfields hn, ZeroExpr.composite.injEq] at hvalue
  have hpair := List.map_inj_left.mp hvalue.2 f hf
  rw [synthesize_fst hrecurse] at hpair
  exact (Prod.mk.inj hpair).2

/-- A type that is written out in full and holds a name that is being written out is not written as on its own. -/
theorem AllExpanded.zero_ne (hrecurse : z.recurse = true) (h : z.AllExpanded t) {w : Ty} {n : TypeName}
    {visible : List (Field Ty)} (hw : ReflTransGen z.HasFieldType t w) (hfields : z.expansion? w = some (n, visible))
    (hn : n ∈ visiting) : (z.zero true visiting none t).1 ≠ (z.zero true [] none t).1 := by
  induction hw using ReflTransGen.head_induction_on generalizing visiting with
  | refl =>
    rw [zero_of_mem hfields hn, zero_of_not_mem hfields List.not_mem_nil]
    nofun
  | @head t u hu hw ih =>
    obtain ⟨m, others, hothers, f, hf, rfl⟩ := id hu
    by_cases hm : m ∈ visiting
    · rw [zero_of_mem hothers hm, zero_of_not_mem hothers List.not_mem_nil]
      nofun
    · intro hsame
      exact ih (h.field hu) (List.mem_cons_of_mem m hn) ((h _ .refl).zero_field hrecurse hothers hm hsame hf)

/-- With nested structs written with their fields, each declared type of structs is, wherever it stands among the
fields, and each field of it as its type is on its own, exactly if none of them holds another of its name. -/
theorem allExpanded_iff (hrecurse : z.recurse = true) : z.AllExpanded t ↔ ¬ z.Repeats t := by
  constructor
  · rintro h ⟨u, w, n, visible, others, hu, hw, hvisible, hothers⟩
    obtain ⟨v, hv, hw⟩ := TransGen.head'_iff.mp hw
    have hall : z.AllExpanded u := h.inside hu
    obtain ⟨m, fields, hfields, f, hf, rfl⟩ := id hv
    cases hvisible.symm.trans hfields
    exact (hall.field hv).zero_ne hrecurse hw hothers (List.mem_singleton_self n)
      ((hall _ .refl).zero_field hrecurse hvisible List.not_mem_nil rfl hf)
  · intro h p hp
    have htop : ∃ u, p = z.top u ∧ ReflTransGen z.HasFieldType t u := by
      induction hp with
      | refl => exact ⟨t, rfl, .refl⟩
      | tail _ hstep ih =>
        obtain ⟨u, rfl, hu⟩ := ih
        obtain ⟨v, hv, rfl⟩ := (isExpanded_top hrecurse (not_repeats_inside h hu)).top_of_hasField hstep
        exact ⟨v, rfl, hu.tail hv⟩
    obtain ⟨u, rfl, hu⟩ := htop
    exact isExpanded_top hrecurse (not_repeats_inside h hu)

end Synthesizer

/-- Values for a file of the package of all types, with nested structs written out. -/
def expanding : Synthesizer := ⟨fun _ => none, "p", [], true, none⟩

/-- A generic pair of a value and a number. -/
def pairOf (t : Ty) : Ty :=
  .named ⟨"p", "p", "Pair"⟩ [t]
    (.struct [⟨"A", t, false, none⟩, ⟨"B", .primitive .int, false, none⟩])

/-- A pair in a pair has the name of the pair around it. -/
theorem not_allExpanded_nestedPair :
    expanding.recurse = true ∧ ¬ expanding.AllExpanded (pairOf (pairOf (.primitive .int))) := by
  have hinner : expanding.HasFieldType (pairOf (pairOf (.primitive .int))) (pairOf (.primitive .int)) :=
    ⟨_, _, rfl, _, List.mem_cons_self, rfl⟩
  exact ⟨rfl, fun h => (Synthesizer.allExpanded_iff rfl).mp h ⟨_, _, _, _, _, .refl, .single hinner, rfl, rfl⟩⟩

example : (expanding.synthesize (pairOf (pairOf (.primitive .int)))).1 =
    .composite "Pair[Pair[int]]" [("A", .text "Pair[int]\x7b\x7d"), ("B", .text "0")] := rfl

end LiteralFill
