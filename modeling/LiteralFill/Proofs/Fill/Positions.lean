import LiteralFill.Fill.Zero
import Mathlib.Logic.Relation

/-!
Where values stand in a zero value. The literal of a declared type that stands for a struct type has a value for
each field that may be set, and that of an array type has one element several times; everything else is a value
without values in it. So whatever stands in a zero value was written as a zero value itself, for the type of its
place.
-/

namespace LiteralFill

/-! ## Shapes -/

namespace Ty

@[simp]
theorem underlying_named (n : TypeName) (args : List Ty) (t : Ty) : (named n args t).underlying = t.underlying := rfl

theorem underlying_ne_named (n : TypeName) (args : List Ty) (u : Ty) : ∀ t : Ty, t.underlying ≠ named n args u
  | named _ _ t => underlying_ne_named n args u t
  | primitive _ | pointer _ | slice _ | array .. | map .. | chan .. | struct _ | interface _ | func _ | param _
  | unseen _ => nofun

theorem structFields_eq_some {t : Ty} {fields : List (Field Ty)} :
    t.structFields = some fields ↔ t.underlying = struct fields := by
  unfold structFields
  constructor
  · intro h
    split at h
    · cases h
      assumption
    · cases h
  · intro h
    rw [h]

end Ty

/-! ## Texts that repeat -/

theorem length_intercalate_replicate (text : String) (n : Nat) :
    (", ".intercalate (List.replicate (n + 1) text)).length = (n + 1) * text.length + n * 2 := by
  induction n with
  | zero => simp
  | succ n ih =>
    have hcomma : ", ".length = 2 := rfl
    rw [List.replicate_succ, List.replicate_succ, String.intercalate_cons_cons, ← List.replicate_succ]
    rw [String.length_append, String.length_append, ih, hcomma, Nat.succ_mul (n + 1)]
    omega

theorem prefix_intercalate_replicate (text : String) (n : Nat) :
    text.toList <+: (", ".intercalate (List.replicate (n + 1) text)).toList := by
  cases n with
  | zero => simp
  | succ n =>
    rw [List.replicate_succ, List.replicate_succ, String.intercalate_cons_cons]
    simp only [String.toList_append, List.append_assoc]
    exact List.prefix_append ..

/-- What is repeated can be read off: its length is known, and it comes first. -/
theorem intercalate_replicate_injective (n : Nat) :
    Function.Injective fun text : String => ", ".intercalate (List.replicate (n + 1) text) := by
  intro a b (hab : ", ".intercalate (List.replicate (n + 1) a) = ", ".intercalate (List.replicate (n + 1) b))
  have hlength : a.length = b.length := by
    have h := congrArg String.length hab
    rw [length_intercalate_replicate, length_intercalate_replicate] at h
    exact Nat.eq_of_mul_eq_mul_left (Nat.succ_pos n) (Nat.add_right_cancel h)
  have hlengths : a.toList.length = b.toList.length := by rw [String.length_toList, String.length_toList, hlength]
  have hfirst := prefix_intercalate_replicate a n
  rw [hab] at hfirst
  have hinside := List.prefix_of_prefix_length_le hfirst (prefix_intercalate_replicate b n) (Nat.le_of_eq hlengths)
  exact String.toList_inj.mp (hinside.eq_of_length hlengths)

namespace Synthesizer

variable (z : Synthesizer) {recurse : Bool} {visiting : List TypeName}

/-- A declared type whose values are written without what is in them. -/
def isWellKnown : Ty → Bool
  | .named n _ _ => z.wellKnown.contains n.qualified
  | _ => false

/-- The fields of a declared type that may be set in a file of the package. -/
def visibleFields (n : TypeName) (fields : List (Field Ty)) : List (Field Ty) :=
  fields.filter fun f => isExported f.name || n.path == z.packagePath

/-- The name of a declared type of structs and the fields that may be set, if there are any and the type is not
well known. -/
def expansion? : Ty → Option (TypeName × List (Field Ty))
  | .named n args t =>
    match t.structFields with
    | some fields =>
      if z.isWellKnown (.named n args t) || (z.visibleFields n fields).isEmpty then none
      else some (n, z.visibleFields n fields)
    | none => none
  | _ => none

/-! ## Zero values -/

theorem zero_wellKnown {t : Ty} (h : z.isWellKnown t = true) :
    (z.zero recurse visiting none t).1 = .text (emptyLiteral (t.display z.qualifier)) := by
  cases t with
  | named n args t =>
    rw [isWellKnown] at h
    rw [zero]
    simp only [h, if_true]
  | _ => cases h

/-- A declared type is written as what it stands for, in its own name. -/
theorem zero_named {n : TypeName} {args : List Ty} {t : Ty} (h : z.isWellKnown (.named n args t) = false) :
    (z.zero recurse visiting none (.named n args t)).1 =
      (z.zero recurse visiting (some (n, (Ty.named n args t).display z.qualifier)) t.underlying).1 := by
  simp only [isWellKnown] at h
  rw [zero]
  simp only [h, Bool.false_eq_true, if_false]
  rw [zero_underlying]

/-- Each field that may be set is set to the zero value of its type. -/
theorem zeroFields_eq (n : TypeName) (fields : List (Field Ty)) :
    (z.zeroFields recurse visiting (n.path == z.packagePath) fields).1 =
      (z.visibleFields n fields).map fun f => (f.name, (z.zero recurse visiting none f.type).1) := by
  unfold visibleFields
  induction fields with
  | nil => rw [zeroFields]; rfl
  | cons f rest ih =>
    rw [zeroFields, List.filter_cons]
    dsimp only
    split
    · rw [List.map_cons, ← ih]
    · exact ih

/-- A struct type under a declared name is written in that name. -/
theorem zero_struct (n : TypeName) (shown : String) (fields : List (Field Ty)) :
    (z.zero recurse visiting (some (n, shown)) (.struct fields)).1 =
      if recurse && !visiting.contains n && !(z.visibleFields n fields).isEmpty then
        .composite shown ((z.visibleFields n fields).map fun f => (f.name, (z.zero recurse (n :: visiting) none f.type).1))
      else .text (emptyLiteral shown) := by
  have hvalues : (z.zeroFields recurse (n :: visiting) (n.path == z.packagePath) fields).1 = _ := z.zeroFields_eq n fields
  rw [zero]
  cases recurse && !visiting.contains n with
  | false => rfl
  | true =>
    simp only [if_true, Bool.true_and]
    cases hset : z.zeroFields recurse (n :: visiting) (n.path == z.packagePath) fields with
    | mk values names =>
      rw [hset] at hvalues
      cases hvisible : z.visibleFields n fields with
      | nil =>
        obtain rfl : values = [] := by simpa [hvisible] using hvalues
        rfl
      | cons f rest =>
        rw [hvisible] at hvalues
        obtain rfl : values = _ := hvalues
        rfl

theorem expansion?_named {n : TypeName} {args : List Ty} {t : Ty} {fields : List (Field Ty)}
    (ht : t.underlying = .struct fields) (hknown : z.isWellKnown (.named n args t) = false)
    (hvisible : (z.visibleFields n fields).isEmpty = false) :
    z.expansion? (.named n args t) = some (n, z.visibleFields n fields) := by
  rw [expansion?, Ty.structFields_eq_some.mpr ht]
  simp only [hknown, hvisible, Bool.or_self, Bool.false_eq_true, if_false]

theorem expansion?_eq_some {t : Ty} {n : TypeName} {visible : List (Field Ty)}
    (h : z.expansion? t = some (n, visible)) :
    ∃ args u fields, t = .named n args u ∧ u.underlying = .struct fields ∧ z.isWellKnown t = false ∧
      visible = z.visibleFields n fields ∧ visible.isEmpty = false := by
  cases t with
  | named m args u =>
    rw [expansion?] at h
    split at h
    · next fields hfields =>
      split at h
      · cases h
      · next hshown =>
        cases h
        obtain ⟨hknown, hvisible⟩ := Bool.or_eq_false_iff.mp (Bool.eq_false_iff.mpr hshown)
        exact ⟨args, u, fields, rfl, Ty.structFields_eq_some.mp hfields, hknown, rfl, hvisible⟩
    · cases h
  | _ => cases h

/-- A declared type of structs with fields that may be set is written with them, unless a type of its name is being
written. -/
theorem zero_of_expansion {t : Ty} {n : TypeName} {visible : List (Field Ty)}
    (h : z.expansion? t = some (n, visible)) :
    (z.zero recurse visiting none t).1 =
      if recurse && !visiting.contains n then
        .composite (t.display z.qualifier)
          (visible.map fun f => (f.name, (z.zero recurse (n :: visiting) none f.type).1))
      else .text (emptyLiteral (t.display z.qualifier)) := by
  obtain ⟨args, u, fields, rfl, hu, hknown, rfl, hvisible⟩ := z.expansion?_eq_some h
  rw [z.zero_named hknown, hu, zero_struct, hvisible]
  simp only [Bool.not_false, Bool.and_true]

/-- An array type, under a declared name or without one, is written in that name or as it stands. -/
theorem zero_array {t elem : Ty} {length : Length} (ht : t.underlying = .array length elem)
    (hknown : z.isWellKnown t = false) :
    (z.zero recurse visiting none t).1 =
      .text (z.arrayLiteral (t.display z.qualifier) length (z.zero false visiting none elem).1.oneLine) := by
  have harray : ∀ outer : Option (TypeName × String), ∀ shown : String,
      outer.elim ((Ty.array length elem).display z.qualifier) (·.2) = shown →
        (z.zero recurse visiting outer (.array length elem)).1 =
          .text (z.arrayLiteral shown length (z.zero false visiting none elem).1.oneLine) := by
    rintro (_ | o) shown rfl
    all_goals
      rw [zero]
      dsimp only [arrayLiteral]
      cases z.lists length <;> rfl
  cases t with
  | named n args t =>
    rw [z.zero_named hknown]
    rw [Ty.underlying_named] at ht
    rw [ht]
    exact harray _ _ rfl
  | array l e =>
    cases ht
    exact harray none _ rfl
  | _ => cases ht

/-- A zero value that is not expanded is on one line. -/
theorem text_oneLine_zero_false :
    ∀ (outer : Option (TypeName × String)) (t : Ty),
      .text (z.zero false visiting outer t).1.oneLine = (z.zero false visiting outer t).1
  | some o, .named n args t => by
    rw [zero]
    exact text_oneLine_zero_false (some o) t
  | none, .named n args t => by
    cases hknown : z.isWellKnown (.named n args t) with
    | true =>
      rw [z.zero_wellKnown hknown]
      rfl
    | false =>
      rw [z.zero_named hknown, ← zero_underlying]
      exact text_oneLine_zero_false _ t
  | outer, .array length t => by
    cases outer <;> rw [zero] <;> cases z.lists length <;> rfl
  | outer, .struct fields => by
    cases outer <;> rw [zero] <;> rfl
  | _, .primitive _ | _, .pointer _ | _, .slice _ | _, .map .. | _, .chan .. | _, .func _ | _, .interface _
  | _, .param _ | _, .unseen _ => by
    rw [zero]
    rfl

end Synthesizer

/-! ## Places -/

/-- A value and the type of its place. -/
structure Spot where
  type : Ty
  value : ZeroExpr

namespace Synthesizer

variable (z : Synthesizer)

/-- A place in the value of another: that of a field in the literal of a declared type. -/
inductive HasField : Spot → Spot → Prop
  | mk {t : Ty} {n : TypeName} {visible : List (Field Ty)} {text : String} {values : List (String × ZeroExpr)}
      {f : Field Ty} {v : String × ZeroExpr} {i : Nat} (hfields : z.expansion? t = some (n, visible))
      (hf : visible[i]? = some f) (hv : values[i]? = some v) : HasField ⟨t, .composite text values⟩ ⟨f.type, v.2⟩

/-- A place in the value of another: that of the elements in the literal of an array type. -/
inductive HasElement : Spot → Spot → Prop
  | mk {t elem : Ty} {length : Length} {n : Nat} {element : String} (ht : t.underlying = .array length elem)
      (hknown : z.isWellKnown t = false) (hlength : z.lists length = some n) :
      HasElement ⟨t, .text (z.arrayLiteral (t.display z.qualifier) length element)⟩ ⟨elem, .text element⟩

/-- A place in the value of another, however deep. -/
def Holds : Spot → Spot → Prop := Relation.ReflTransGen fun p p' => z.HasField p p' ∨ z.HasElement p p'

/-- The place of the zero value of a type. -/
def top (t : Ty) : Spot := ⟨t, (z.synthesize t).1⟩

/-- The value of the place is a zero value of its type. -/
def IsZeroAt (p : Spot) : Prop := ∃ recurse visiting, p.value = (z.zero recurse visiting none p.type).1

variable {z}

theorem lists_pos {length : Length} {n : Nat} (h : z.lists length = some n) : 0 < n := by
  cases length with
  | known m =>
    rw [lists] at h
    split at h
    · next hlisted =>
      cases h
      simp only [Bool.and_eq_true, decide_eq_true_eq] at hlisted
      exact hlisted.1
    · cases h
  | symbolic _ => cases h

/-- The element of a literal of an array type can be read off. -/
theorem arrayLiteral_injective {length : Length} {n : Nat} (h : z.lists length = some n) (type : String) :
    Function.Injective (z.arrayLiteral type length) := by
  intro a b hab
  obtain ⟨m, rfl⟩ : ∃ m, n = m + 1 := ⟨n - 1, by have := lists_pos h; omega⟩
  simp only [arrayLiteral, h] at hab
  exact intercalate_replicate_injective m (by simpa using hab)

theorem IsZeroAt.field {p p' : Spot} (h : z.IsZeroAt p) (hp : z.HasField p p') : z.IsZeroAt p' := by
  obtain ⟨recurse, visiting, hvalue⟩ := h
  cases hp with
  | @mk t n visible text values f v i hfields hf hv =>
    dsimp only at hvalue
    rw [z.zero_of_expansion hfields] at hvalue
    split at hvalue
    · cases hvalue
      rw [List.getElem?_map, hf] at hv
      cases hv
      exact ⟨recurse, n :: visiting, rfl⟩
    · cases hvalue

theorem IsZeroAt.element {p p' : Spot} (h : z.IsZeroAt p) (hp : z.HasElement p p') : z.IsZeroAt p' := by
  obtain ⟨recurse, visiting, hvalue⟩ := h
  cases hp with
  | @mk t elem length n element ht hknown hlength =>
    dsimp only at hvalue
    rw [z.zero_array ht hknown, ZeroExpr.text.injEq] at hvalue
    obtain rfl := arrayLiteral_injective hlength _ hvalue
    exact ⟨false, visiting, z.text_oneLine_zero_false none elem⟩

theorem IsZeroAt.holds {p p' : Spot} (h : z.IsZeroAt p) (hp : z.Holds p p') : z.IsZeroAt p' := by
  induction hp with
  | refl => exact h
  | tail _ hstep ih => exact hstep.elim ih.field ih.element

/-- Whatever stands in a zero value is a zero value of the type of its place. -/
theorem isZeroAt_of_holds {t : Ty} {p : Spot} (h : z.Holds (z.top t) p) : z.IsZeroAt p :=
  IsZeroAt.holds ⟨z.recurse, [], rfl⟩ h

end Synthesizer

end LiteralFill
